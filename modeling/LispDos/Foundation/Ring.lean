import Mathlib.Data.List.Range
import Mathlib.Data.Nat.ModEq
import Mathlib.Logic.Function.Basic
import Mathlib.Tactic.Common

/-! # Ring buffers

A queue in `cap` cells: the entries start at `tail` and go around the end, and one more
entry goes to `head`. One cell stays free, so that a full ring differs from an empty one. -/

namespace LispDos.Foundation

variable {α : Type*} {cells : ℕ → α} {cap head tail n : ℕ} {queue : List α} {x : α}

/-- The `n` entries from `tail` on. -/
def ringSlice (cells : ℕ → α) (cap tail n : ℕ) : List α :=
  (List.range n).map fun i => cells ((tail + i) % cap)

/-- The cells hold the queue between the two indices. -/
structure Ring (cells : ℕ → α) (cap head tail : ℕ) (queue : List α) : Prop where
  room : queue.length < cap
  tail_lt : tail < cap
  head_eq : head = (tail + queue.length) % cap
  entries : queue = ringSlice cells cap tail queue.length

theorem ringSlice_succ (htail : tail < cap) :
    ringSlice cells cap tail (n + 1) =
      cells tail :: ringSlice cells cap ((tail + 1) % cap) n := by
  rw [ringSlice, List.range_succ_eq_map, List.map_cons, List.map_map, Nat.add_zero,
    Nat.mod_eq_of_lt htail]
  refine congrArg (List.cons (cells tail)) (List.map_congr_left ?_)
  intro i _
  rw [Function.comp_apply, Nat.mod_add_mod]
  exact congrArg cells (congrArg (· % cap) (by omega))

/-- The cell after the entries is none of theirs. -/
theorem ringSlice_update (hroom : n < cap) :
    ringSlice (Function.update cells ((tail + n) % cap) x) cap tail (n + 1) =
      ringSlice cells cap tail n ++ [x] := by
  rw [ringSlice, List.range_succ, List.map_append, List.map_singleton, Function.update_self]
  refine congrArg (· ++ [x]) (List.map_congr_left ?_)
  intro i hi
  rw [List.mem_range] at hi
  apply Function.update_of_ne
  intro heq
  -- two offsets below the capacity that differ by less than it
  have hmod : Nat.ModEq cap i n := Nat.ModEq.add_left_cancel' tail heq
  have := Nat.ModEq.eq_of_lt_of_lt hmod (by omega) hroom
  omega

namespace Ring

theorem nil (hcap : 0 < cap) : Ring cells cap 0 0 [] where
  room := hcap
  tail_lt := hcap
  head_eq := (Nat.zero_mod cap).symm
  entries := rfl

/-- The indices are equal only if the queue is empty. -/
theorem eq_nil_iff (h : Ring cells cap head tail queue) : head = tail ↔ queue = [] := by
  have hroom := h.room
  have htail := h.tail_lt
  constructor
  · intro heq
    rw [h.head_eq] at heq
    apply List.eq_nil_of_length_eq_zero
    by_contra hne
    by_cases hwrap : tail + queue.length < cap
    · rw [Nat.mod_eq_of_lt hwrap] at heq
      omega
    · rw [Nat.mod_eq_sub_mod (by omega), Nat.mod_eq_of_lt (by omega)] at heq
      omega
  · rintro rfl
    rw [h.head_eq, List.length_nil, Nat.add_zero, Nat.mod_eq_of_lt htail]

/-- The entry at `tail` is the oldest. -/
theorem head_entry (h : Ring cells cap head tail (x :: queue)) : cells tail = x := by
  have hentries := h.entries
  rw [List.length_cons, ringSlice_succ h.tail_lt] at hentries
  exact (List.cons.inj hentries).1.symm

theorem push (h : Ring cells cap head tail queue) (hroom : queue.length + 1 < cap) (x : α) :
    Ring (Function.update cells head x) cap ((head + 1) % cap) tail (queue ++ [x]) where
  room := by simpa using hroom
  tail_lt := h.tail_lt
  head_eq := by
    rw [h.head_eq, Nat.mod_add_mod, List.length_append, List.length_singleton, Nat.add_assoc]
  entries := by
    rw [List.length_append, List.length_singleton, h.head_eq, ringSlice_update h.room, ← h.entries]

theorem pop (h : Ring cells cap head tail (x :: queue)) :
    Ring cells cap head ((tail + 1) % cap) queue where
  room := by
    have := h.room
    rw [List.length_cons] at this
    omega
  tail_lt := Nat.mod_lt _ (by have := h.tail_lt; omega)
  head_eq := by
    rw [h.head_eq, Nat.mod_add_mod, List.length_cons]
    exact congrArg (· % cap) (by omega)
  entries := by
    have hentries := h.entries
    rw [List.length_cons, ringSlice_succ h.tail_lt] at hentries
    exact (List.cons.inj hentries).2

end Ring

end LispDos.Foundation
