import Mathlib.Data.List.Nodup
import Mathlib.Data.Finset.Card
import Mathlib.Logic.Function.Basic

/-! # Chains in a successor table

A table stores for every node the node that follows it. Starting at a node and
following the table as long as a guard holds visits a list of nodes and then leaves
the guarded set at some end value. -/

namespace LispDos.Foundation

/-- `Chain next go a l e` says that the walk from `a` visits exactly the nodes `l`,
all of them guarded, and stops at the unguarded value `e`. -/
inductive Chain {α : Type*} (next : α → α) (go : α → Prop) : α → List α → α → Prop where
  | stop {a} : ¬ go a → Chain next go a [] a
  | step {a l e} : go a → Chain next go (next a) l e → Chain next go a (a :: l) e

variable {α : Type*} {next next' : α → α} {go : α → Prop} {a e e' n z : α} {l l' : List α}

namespace Chain

theorem go_of_mem (h : Chain next go a l e) : ∀ x ∈ l, go x := by
  induction h with
  | stop => simp
  | step ha _ ih =>
      intro x hx
      rcases List.mem_cons.mp hx with rfl | hx
      · exact ha
      · exact ih x hx

/-- The table is a function, so the walk is determined by its start. -/
theorem unique (h : Chain next go a l e) (h' : Chain next go a l' e') : l = l' ∧ e = e' := by
  induction h generalizing l' with
  | stop ha =>
      cases h' with
      | stop => exact ⟨rfl, rfl⟩
      | step ha' _ => exact (ha ha').elim
  | step ha _ ih =>
      cases h' with
      | stop ha' => exact (ha' ha).elim
      | step _ h' =>
          obtain ⟨rfl, rfl⟩ := ih h'
          exact ⟨rfl, rfl⟩

theorem nil_iff (h : Chain next go a l e) : l = [] ↔ ¬ go a := by
  cases h with
  | stop ha => simp [ha]
  | step ha _ => simp [ha]

theorem head_eq (h : Chain next go a (z :: l) e) : a = z := by
  cases h with
  | step => rfl

/-- Every visited node starts a walk of its own, no longer than the whole. -/
theorem suffix_of_mem (h : Chain next go a l e) (hz : z ∈ l) :
    ∃ l', Chain next go z l' e ∧ l'.length ≤ l.length ∧ ∀ x ∈ l', x ∈ l := by
  induction h with
  | stop => simp at hz
  | @step a l e ha hl ih =>
      rcases List.mem_cons.mp hz with rfl | hz
      · exact ⟨z :: l, .step ha hl, le_rfl, fun x hx => hx⟩
      · obtain ⟨l', hl', hlen, hsub⟩ := ih hz
        exact ⟨l', hl', hlen.trans (Nat.le_succ _), fun x hx => List.mem_cons_of_mem _ (hsub x hx)⟩

/-- A walk that ends repeats no node. -/
theorem nodup (h : Chain next go a l e) : l.Nodup := by
  induction h with
  | stop => simp
  | @step a l e ha hl ih =>
      refine List.nodup_cons.mpr ⟨?_, ih⟩
      intro hmem
      obtain ⟨l', hl', hlen, _⟩ := hl.suffix_of_mem hmem
      have heq := (hl'.unique (.step ha hl)).1
      rw [heq, List.length_cons] at hlen
      exact (Nat.not_succ_le_self _ hlen).elim

/-- A table that agrees on the visited nodes has the same walk. -/
theorem congr (h : Chain next go a l e) (hn : ∀ x ∈ l, next' x = next x) :
    Chain next' go a l e := by
  induction h with
  | stop ha => exact .stop ha
  | step ha _ ih =>
      refine .step ha ?_
      rw [hn _ (by simp)]
      exact ih (fun x hx => hn x (List.mem_cons_of_mem _ hx))

/-- The table value at a visited node is visited next or is the end. -/
theorem next_mem_or_end (h : Chain next go a l e) (hz : z ∈ l) : next z ∈ l ∨ next z = e := by
  induction h with
  | stop => simp at hz
  | @step a l e ha hl ih =>
      rcases List.mem_cons.mp hz with rfl | hz
      · cases hl with
        | stop => exact .inr rfl
        | step => exact .inl (by simp)
      · rcases ih hz with h | h
        · exact .inl (List.mem_cons_of_mem _ h)
        · exact .inr h

/-- Redirecting the last node of a walk to a fresh node extends the walk by it. -/
theorem extend (h : Chain next go a (l ++ [z]) e) (hn : go n) (he' : ¬ go e')
    (hl : ∀ x ∈ l, next' x = next x) (hz : next' z = n) (hend : next' n = e') :
    Chain next' go a (l ++ [z] ++ [n]) e' := by
  induction l generalizing a with
  | nil =>
      have ha := h.head_eq
      subst ha
      have hgo := h.go_of_mem a (by simp)
      refine .step hgo ?_
      rw [hz]
      refine .step hn ?_
      rw [hend]
      exact .stop he'
  | cons y l ih =>
      cases h with
      | step ha h =>
          refine .step ha ?_
          rw [hl _ (by simp)]
          exact ih h (fun x hx => hl x (List.mem_cons_of_mem _ hx))

end Chain

/-! ## Walks that need not end -/

/-- The walk from a node visits the node `x`, whether or not it ends. -/
inductive Visits {α : Type*} (next : α → α) (go : α → Prop) : α → α → Prop where
  | here {a : α} : go a → Visits next go a a
  | there {a x : α} : go a → Visits next go (next a) x → Visits next go a x

namespace Visits

variable {x : α}

theorem go_target (h : Visits next go a x) : go x := by
  induction h with
  | here ha => exact ha
  | there _ _ ih => exact ih

/-- Every walk in a table in which `a` leads out of the guarded set is one of the old table. -/
theorem of_cut (h : Visits next' go z x)
    (hsame : ∀ y, Visits next go z y → y ≠ a → next' y = next y) (hend : ¬ go (next' a)) :
    Visits next go z x := by
  induction h with
  | here hz => exact .here hz
  | @there z x hz hx ih =>
      by_cases hza : z = a
      · subst hza
        cases hx with
        | here hgo => exact (hend hgo).elim
        | there hgo => exact (hend hgo).elim
      · have hnext := hsame z (.here hz) hza
        rw [hnext] at ih
        exact .there hz (ih fun y hy => hsame y (.there hz hy))

/-- A walk that passes `a` begins anew behind its last visit to `a`. -/
theorem cut (h : Visits next go z x)
    (hsame : ∀ y, Visits next go z y → y ≠ a → next' y = next y) :
    Visits next' go z x ∨ x = a ∨ Visits next' go (next a) x := by
  induction h with
  | here hz => exact .inl (.here hz)
  | @there z x hz hx ih =>
      rcases ih fun y hy => hsame y (.there hz hy) with hx' | hx'
      · by_cases hza : z = a
        · subst hza
          exact .inr (.inr hx')
        · rw [← hsame z (.here hz) hza] at hx'
          exact .inl (.there hz hx')
      · exact .inr hx'

/-- The nodes that a walk visits are its first node and those that the rest visits after the
first node is cut off. -/
theorem cut_iff (ha : go a) (hsame : ∀ y, Visits next go a y → y ≠ a → next' y = next y)
    (hend : ¬ go (next' a)) : Visits next go a x ↔ x = a ∨ Visits next' go (next a) x := by
  have htail : ∀ y, Visits next go (next a) y → y ≠ a → next' y = next y :=
    fun y hy => hsame y (.there ha hy)
  constructor
  · intro h
    cases h with
    | here => exact .inl rfl
    | there _ hx =>
        rcases hx.cut htail with hx | rfl | hx
        · exact .inr hx
        · exact .inl rfl
        · exact .inr hx
  · rintro (rfl | hx)
    · exact .here ha
    · exact .there ha (hx.of_cut htail hend)

end Visits

end LispDos.Foundation
