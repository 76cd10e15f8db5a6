import LispDos.Foundation.Loop
import Mathlib.Logic.Function.Iterate

/-! # Devices behind ports

A device is what the processor sees of it: each access to a port of a byte or of a word gives a new
state of the device. A driver waits for a device by reading a port until the value allows it to
go on. -/

namespace LispDos.Foundation

/-- The accesses to the ports of a device. -/
structure Bus (σ : Type*) where
  inb : UInt16 → σ → UInt8 × σ
  outb : UInt16 → UInt8 → σ → σ
  inw : UInt16 → σ → UInt16 × σ
  outw : UInt16 → UInt16 → σ → σ

namespace Bus

variable {σ : Type*} (bus : Bus σ) (port : UInt16)

/-- `rep insw`: the words that have been read. -/
def insw : ℕ → σ → List UInt16 × σ
  | 0, s => ([], s)
  | n + 1, s =>
      let w := bus.inw port s
      let ws := insw n w.2
      (w.1 :: ws.1, ws.2)

/-- `rep outsw`. -/
def outsw (ws : List UInt16) (s : σ) : σ :=
  ws.foldl (fun s w => bus.outw port w s) s

theorem outsw_append (ws ws' : List UInt16) (s : σ) :
    bus.outsw port (ws ++ ws') s = bus.outsw port ws' (bus.outsw port ws s) := List.foldl_append

/-- A device that gives a row of words: `P` says what is still to come. -/
theorem insw_eq {P : List UInt16 → σ → Prop}
    (hgive : ∀ w ws s, P (w :: ws) s → (bus.inw port s).1 = w ∧ P ws (bus.inw port s).2)
    (ws : List UInt16) {s : σ} (h : P ws s) :
    (bus.insw port ws.length s).1 = ws ∧ P [] (bus.insw port ws.length s).2 := by
  induction ws generalizing s with
  | nil => exact ⟨rfl, h⟩
  | cons w ws ih =>
      obtain ⟨hword, hrest⟩ := hgive w ws s h
      obtain ⟨hwords, hend⟩ := ih hrest
      refine ⟨?_, hend⟩
      show (bus.inw port s).1 :: (bus.insw port ws.length (bus.inw port s).2).1 = w :: ws
      rw [hword, hwords]

/-- A device that takes a row of words: `P` says what has come. -/
theorem outsw_of_takes {P : List UInt16 → σ → Prop} (bound : ℕ)
    (htake : ∀ ws w s, ws.length < bound → P ws s → P (ws ++ [w]) (bus.outw port w s))
    (ws : List UInt16) {start : List UInt16} (hlen : start.length + ws.length ≤ bound) {s : σ}
    (h : P start s) : P (start ++ ws) (bus.outsw port ws s) := by
  induction ws generalizing start s with
  | nil =>
      rw [List.append_nil]
      exact h
  | cons w ws ih =>
      rw [List.length_cons] at hlen
      have hfirst := htake start w s (by omega) h
      have hrest := ih (by rw [List.length_append, List.length_singleton]; omega) hfirst
      rw [List.append_assoc] at hrest
      exact hrest

end Bus

/-- What counts down comes to its end. -/
theorem exists_countdown {σ : Type*} {f : σ → σ} {g : σ → ℕ} (hdown : ∀ s, g (f s) = g s - 1) (s : σ) :
    ∃ n, g (f^[n] s) = 0 := by
  have hsub : ∀ n s, g (f^[n] s) = g s - n := by
    intro n
    induction n with
    | zero => exact fun s => rfl
    | succ n ih =>
        intro s
        rw [Function.iterate_succ_apply, ih, hdown]
        omega
  exact ⟨g s, (hsub _ s).trans (Nat.sub_self _)⟩

/-- A loop that polls a device is left once it is not busy any more, and keeps what polling keeps. -/
theorem loopReturns_of_poll {σ ρ : Type*} {body : σ → LoopStep σ ρ} {poll : σ → σ} {f : σ → ρ}
    {Busy P : σ → Prop} (hbusy : ∀ s, Busy s → body s = .next (poll s))
    (hready : ∀ s, ¬ Busy s → body s = .leave (f s)) (hpoll : ∀ s, P s → P (poll s)) (n : ℕ)
    {s : σ} (hn : ¬ Busy (poll^[n] s)) (hs : P s) :
    ∃ t, P t ∧ ¬ Busy t ∧ LoopReturns body s (f t) := by
  induction n generalizing s with
  | zero => exact ⟨s, hs, hn, .leave (hready s hn)⟩
  | succ n ih =>
      by_cases h : Busy s
      · obtain ⟨t, ht, hidle, hreturns⟩ := ih hn (hpoll s hs)
        exact ⟨t, ht, hidle, .next (hbusy s h) hreturns⟩
      · exact ⟨s, hs, h, .leave (hready s h)⟩

end LispDos.Foundation
