import LispDos.Verification.Keyboard.Queue

/-! # A full keyboard queue

The handler stores without a test for room. The 256th unread character makes the indices equal,
and with that all the unread characters are gone. -/

namespace LispDos.Input

open Foundation

variable {s : System} {events : List Event} {queue : List UInt8} {n : ℕ}

/-! ## Keeping keys -/

/-- What has been returned, and then what can still be. -/
def System.kept (s : System) : List UInt8 := s.returned ++ unread s.keyboard

/-- The character that a step of the system stores. -/
def arriving (s : System) : Event → List UInt8
  | .interrupt input => storedChar s.keyboard input
  | .getchar => []

/-- A step keeps every character that is stored and unread, and takes in the arriving one. It may
drop that one, but only if the queue is full. -/
def KeepsKeys (s : System) (e : Event) : Prop :=
  (s.step e).kept = s.kept ++ arriving s e ∨
    (255 ≤ (unread s.keyboard).length ∧ (s.step e).kept = s.kept)

/-- All the steps of a run keep the keys, and what has been returned and what can still be are
among the characters typed, in their order. -/
structure Lossless (events : List Event) : Prop where
  steps : ∀ n e, events[n]? = some e → KeepsKeys (run (events.take n)) e
  order : (run events).kept.Sublist (run events).stored

theorem stored_step (s : System) (e : Event) : (s.step e).stored = s.stored ++ arriving s e := by
  cases e with
  | interrupt input => rfl
  | getchar =>
      have hstep : s.step .getchar = getcharStep s := rfl
      rw [arriving, List.append_nil, hstep, getcharStep]
      cases s.getchar with
      | test => dsimp only; split_ifs <;> rfl
      | read => rfl
      | advance c => rfl

/-! ## One step -/

/-- A character that arrives finds fewer than 255 unread ones. -/
def Room (s : System) (e : Event) : Prop :=
  arriving s e ≠ [] → s.stored.length < s.returned.length + 255

/-- Every character of a run finds room. -/
def Roomy (events : List Event) : Prop :=
  ∀ n e, events[n]? = some e → Room (run (events.take n)) e

theorem arriving_length_le (s : System) (e : Event) : (arriving s e).length ≤ 1 := by
  cases e with
  | getchar => exact Nat.zero_le 1
  | interrupt input =>
      cases input with
      | none => exact Nat.zero_le 1
      | some scancode =>
          rw [arriving, storedChar]
          split_ifs
          · exact le_rfl
          · exact Nat.zero_le 1

theorem Invariant.stored_length (h : Invariant s queue) :
    s.stored.length = s.returned.length + queue.length := by
  rw [h.stored, List.length_append]

theorem Invariant.kept (h : Invariant s queue) : s.kept = s.stored := by
  rw [System.kept, unread_eq h.ring, h.stored]

theorem getcharStep_length (s : System) : s.returned.length ≤ (getcharStep s).returned.length := by
  unfold getcharStep
  cases s.getchar with
  | test => dsimp only; split_ifs <;> exact le_rfl
  | read => exact le_rfl
  | advance c =>
      dsimp only
      rw [List.length_append]
      omega

theorem Invariant.notFull (h : Invariant s queue) {e : Event} (hroom : Room s e) :
    NotFull (s.step e) := by
  have hlength := h.stored_length
  have hqueue := h.ring.room
  have hone := arriving_length_le s e
  have hreturned : s.returned.length ≤ (s.step e).returned.length := by
    cases e with
    | interrupt input => exact le_rfl
    | getchar => exact getcharStep_length s
  rw [NotFull, stored_step, List.length_append]
  by_cases hnil : arriving s e = []
  · rw [hnil, List.length_nil]
    omega
  · have := hroom hnil
    omega

/-- With room for the arriving character nothing is lost. -/
theorem Invariant.keepsKeys (h : Invariant s queue) {e : Event} (hroom : Room s e) :
    KeepsKeys s e := by
  obtain ⟨queue', h'⟩ := h.step e (h.notFull hroom)
  apply Or.inl
  rw [h'.kept, stored_step, h.kept]

/-- The handler moves `kbd_head` on for every character that it stores. -/
theorem keyboardHandler_head (k : Keyboard) (input : Option UInt8) (hne : storedChar k input ≠ []) :
    (keyboardHandler k input).head = (k.head + 1) % 256 ∧
      (keyboardHandler k input).tail = k.tail := by
  cases input with
  | none => exact absurd rfl hne
  | some scancode =>
      obtain ⟨_, hhead, htail⟩ := decode_buffer k scancode
      have hc : (decode k scancode).2 ≠ 0 := by
        intro hzero
        rw [storedChar, if_neg (not_not.mpr hzero)] at hne
        exact hne rfl
      simp only [keyboardHandler, Keyboard.store, if_pos hc, hhead, htail, and_self]

/-- Equal indices stand for an empty queue. -/
theorem unread_of_head_eq_tail {k : Keyboard} (h : k.head = k.tail) : unread k = [] := by
  rw [unread, h, Nat.add_sub_cancel_left]
  rfl

/-- The 256th unread character empties the queue. -/
theorem Invariant.not_keepsKeys (h : Invariant s queue) {e : Event} (hroom : ¬ Room s e) :
    ¬ KeepsKeys s e := by
  obtain ⟨hne, hfull⟩ := Classical.not_imp.mp hroom
  have hlength := h.stored_length
  have hring := h.ring
  have hqueue : queue.length = 255 := by
    have := hring.room
    omega
  cases e with
  | getchar => exact absurd rfl hne
  | interrupt input =>
      obtain ⟨hhead, htail⟩ := keyboardHandler_head s.keyboard input hne
      have hequal : (keyboardHandler s.keyboard input).head =
          (keyboardHandler s.keyboard input).tail := by
        have hlt := hring.tail_lt
        rw [hhead, htail, hring.head_eq, hqueue]
        omega
      have hafter : (s.step (.interrupt input)).kept = s.returned := by
        rw [System.kept, System.step, unread_of_head_eq_tail hequal, List.append_nil]
      have hlost : (s.step (.interrupt input)).kept.length < s.kept.length := by
        rw [hafter, h.kept]
        omega
      intro hkeeps
      cases hkeeps with
      | inl hkept =>
          rw [hkept, List.length_append] at hlost
          omega
      | inr hdropped =>
          rw [hdropped.2] at hlost
          exact lt_irrefl _ hlost

/-! ## Runs -/

theorem roomy_take_iff (events : List Event) (n : ℕ) :
    Roomy (events.take n) ↔ ∀ m < n, ∀ e, events[m]? = some e → Room (run (events.take m)) e := by
  constructor
  · intro h m hm e he
    have hroom := h m e (by rw [List.getElem?_take_of_lt hm]; exact he)
    rwa [List.take_take, Nat.min_eq_left hm.le] at hroom
  · intro h m e he
    obtain ⟨hm, _⟩ := List.getElem?_eq_some_iff.mp he
    rw [List.length_take] at hm
    rw [List.getElem?_take_of_lt (by omega)] at he
    rw [List.take_take, Nat.min_eq_left (by omega)]
    exact h m (by omega) e he

theorem Roomy.take (h : Roomy events) (n : ℕ) : Roomy (events.take n) :=
  (roomy_take_iff events n).mpr fun m _ => h m

theorem Roomy.invariant (h : Roomy events) : ∃ queue, Invariant (run events) queue := by
  induction events using List.reverseRecOn with
  | nil => exact ⟨[], Ring.nil (by decide), rfl, fun hne => (hne rfl).elim, fun c hc => nomatch hc⟩
  | append_singleton events e ih =>
      have hbefore := h.take events.length
      have hlast := h events.length e List.getElem?_concat_length
      rw [List.take_left] at hbefore hlast
      obtain ⟨queue, hqueue⟩ := ih hbefore
      rw [run_snoc]
      exact hqueue.step e (hqueue.notFull hlast)

theorem Lossless.roomy (h : Lossless events) : Roomy events := by
  intro n
  induction n using Nat.strong_induction_on with
  | _ n ih =>
      intro e he
      obtain ⟨queue, hqueue⟩ := ((roomy_take_iff events n).mpr ih).invariant
      by_contra hroom
      exact hqueue.not_keepsKeys hroom (h.steps n e he)

theorem Roomy.lossless (h : Roomy events) : Lossless events := by
  constructor
  · intro n e he
    obtain ⟨queue, hqueue⟩ := (h.take n).invariant
    exact hqueue.keepsKeys (h n e he)
  · obtain ⟨queue, hqueue⟩ := h.invariant
    rw [hqueue.kept]

/-- A run loses no key exactly if every character is stored while fewer than 255 are unread. -/
theorem lossless_iff_roomy (events : List Event) : Lossless events ↔ Roomy events :=
  ⟨Lossless.roomy, Roomy.lossless⟩

/-- The key `a`, pressed again and again. -/
def pressed (n : ℕ) : List Event := List.replicate n (.interrupt (some 0x1E))

theorem run_pressed (n : ℕ) :
    (run (pressed n)).stored.length = n ∧ (run (pressed n)).returned = [] ∧
      (run (pressed n)).keyboard.shiftPressed = false ∧
      (run (pressed n)).keyboard.e0Pressed = false := by
  induction n with
  | zero => exact ⟨rfl, rfl, rfl, rfl⟩
  | succ n ih =>
      obtain ⟨hstored, hreturned, hshift, he0⟩ := ih
      have hsnoc : pressed (n + 1) = pressed n ++ [.interrupt (some 0x1E)] :=
        List.replicate_succ'
      have hdecode : decode (run (pressed n)).keyboard 0x1E =
          ((run (pressed n)).keyboard, 0x61) := by
        rw [decode, hshift, he0]
        rfl
      have hkeys : storedChar (run (pressed n)).keyboard (some 0x1E) = [0x61] := by
        rw [storedChar, hdecode]
        rfl
      rw [hsnoc, run_snoc, stored_step, arriving, hkeys, List.length_append, hstored]
      simp only [System.step, keyboardHandler, hdecode, Keyboard.store]
      exact ⟨rfl, hreturned, hshift, he0⟩

/-- The 256th key without a read. -/
theorem not_lossless_pressed : ¬ Lossless (pressed 256) := by
  intro h
  have hroom := h.roomy 255 (.interrupt (some 0x1E)) rfl
  have htake : (pressed 256).take 255 = pressed 255 := by
    rw [pressed, List.take_replicate]
    rfl
  obtain ⟨hstored, hreturned, hshift, he0⟩ := run_pressed 255
  rw [htake] at hroom
  have harrives : arriving (run (pressed 255)) (.interrupt (some 0x1E)) ≠ [] := by
    rw [arriving, storedChar, decode, hshift, he0]
    decide
  have hlt := hroom harrives
  rw [hstored, hreturned] at hlt
  exact absurd hlt (by decide)

end LispDos.Input
