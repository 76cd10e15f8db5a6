import LispDos.Verification.Memory.Placement
import LispDos.Verification.Process.Plan

/-! # How far memory reaches

Each page of a plan takes one page of memory and the tables that are missing on the way
to it. The number of free pages decides which pages of the plan are mapped. -/

namespace LispDos.Process

open Memory Foundation

/-! ## Accounting -/

/-- The number of tables missing for page `v` when the pages `seen` are mapped. A table of
level `k` covers `512 ^ k` pages. -/
def tablesFor (seen : List ℕ) (v : ℕ) : ℕ :=
  ([3, 2, 1].filter fun k => ∀ u ∈ seen, u / 512 ^ k ≠ v / 512 ^ k).length

/-- The page is not one of the lower half, or its copy does not end. -/
def SegPage.astray (s : SegPage) : Bool := s.faults || decide (2 ^ 47 ≤ s.vaddr.toNat)

/-- The pages that are mapped with `free` pages of memory left, after those of `done`. The
last one may lack a table or go astray. -/
def reached : ℕ → List SegPage → List SegPage → List SegPage
  | _, done, [] => done
  | free, done, s :: rest =>
      let tables := tablesFor (done.map SegPage.number) s.number
      if free = 0 then done
      else if free < 1 + tables ∨ s.astray then done ++ [s]
      else reached (free - 1 - tables) (done ++ [s]) rest

/-- The allocation of a table fails. -/
def starves : ℕ → List SegPage → List SegPage → Bool
  | _, _, [] => false
  | free, done, s :: rest =>
      let tables := tablesFor (done.map SegPage.number) s.number
      if free = 0 ∨ s.astray then false
      else if free < 1 + tables then true
      else starves (free - 1 - tables) (done ++ [s]) rest

/-- The number of pages left after a plan for which there is memory. -/
def remaining : ℕ → List SegPage → List SegPage → ℕ
  | free, _, [] => free
  | free, done, s :: rest =>
      remaining (free - 1 - tablesFor (done.map SegPage.number) s.number) (done ++ [s]) rest

section Steps

variable {free : ℕ} {done rest : List SegPage} {s : SegPage}

theorem SegPage.astray_eq_false : s.astray = false ↔ s.faults = false ∧ s.vaddr.toNat < 2 ^ 47 := by
  simp [SegPage.astray]

theorem reached_full (h : free = 0) : reached free done rest = done := by
  cases rest with
  | nil => rfl
  | cons s rest => rw [reached, if_pos h]

theorem starves_full (h : free = 0) : starves free done rest = false := by
  cases rest with
  | nil => rfl
  | cons s rest => rw [starves, if_pos (.inl h)]

theorem reached_astray (hpos : 0 < free) (h : s.astray = true) :
    reached free done (s :: rest) = done ++ [s] := by
  rw [reached, if_neg (by omega), if_pos (.inr h)]

section InPlace

variable (h : s.astray = false)

include h

theorem reached_short (hpos : 0 < free)
    (hshort : free < 1 + tablesFor (done.map SegPage.number) s.number) :
    reached free done (s :: rest) = done ++ [s] ∧ starves free done (s :: rest) = true := by
  have hzero : free ≠ 0 := by omega
  constructor
  · rw [reached, if_neg hzero, if_pos (.inl hshort)]
  · rw [starves, if_neg (by simp [h, hzero]), if_pos hshort]

theorem reached_next (hroom : 1 + tablesFor (done.map SegPage.number) s.number ≤ free) :
    reached free done (s :: rest) =
        reached (free - 1 - tablesFor (done.map SegPage.number) s.number) (done ++ [s]) rest ∧
      starves free done (s :: rest) =
        starves (free - 1 - tablesFor (done.map SegPage.number) s.number) (done ++ [s]) rest := by
  have hzero : free ≠ 0 := by omega
  have hshort : ¬ free < 1 + tablesFor (done.map SegPage.number) s.number := by omega
  constructor
  · rw [reached, if_neg hzero, if_neg (by simp [h, hshort])]
  · rw [starves, if_neg (by simp [h, hzero]), if_neg hshort]

end InPlace

/-- Only pages of the plan are reached. -/
theorem mem_of_reached (h : s ∈ reached free done rest) : s ∈ done ∨ s ∈ rest := by
  induction rest generalizing free done with
  | nil => exact .inl h
  | cons t rest ih =>
      have hsnoc : s ∈ done ++ [t] → s ∈ done ∨ s ∈ t :: rest := by
        intro hs
        rcases List.mem_append.mp hs with hs | hs
        · exact .inl hs
        · exact .inr (List.mem_singleton.mp hs ▸ List.mem_cons_self ..)
      rw [reached] at h
      split_ifs at h
      · exact .inl h
      · exact hsnoc h
      · rcases ih h with htail | htail
        · exact hsnoc htail
        · exact .inr (List.mem_cons_of_mem _ htail)

end Steps

/-! ## Tables of a tree -/

theorem tableIndex_of_number {v : Word} {k : ℕ} :
    tableIndex v (12 + 9 * k) = v.toNat / 4096 / 512 ^ k % 512 := by
  rw [tableIndex_eq, Nat.pow_add, ← Nat.div_div_eq_div_mul, Nat.pow_mul]

/-- Two addresses lead to the same table of a level when the numbers of their pages agree
there. -/
theorem prefix_tablePath_iff {u v : Word} (hu : u.toNat < 2 ^ 47) (hv : v.toNat < 2 ^ 47) {k : ℕ}
    (hk : k < 3) :
    (tablePath v).take (k + 1) <+: tablePath u ↔
      u.toNat / 4096 / 512 ^ (3 - k) = v.toNat / 4096 / 512 ^ (3 - k) := by
  have h3 : ∀ w : Word, tableIndex w 39 = w.toNat / 4096 / 512 ^ 3 % 512 :=
    fun w => tableIndex_of_number (k := 3)
  have h2 : ∀ w : Word, tableIndex w 30 = w.toNat / 4096 / 512 ^ 2 % 512 :=
    fun w => tableIndex_of_number (k := 2)
  have h1 : ∀ w : Word, tableIndex w 21 = w.toNat / 4096 / 512 ^ 1 % 512 :=
    fun w => tableIndex_of_number (k := 1)
  simp only [tablePath, h1, h2, h3]
  obtain rfl | rfl | rfl : k = 0 ∨ k = 1 ∨ k = 2 := by omega
  · simp
    omega
  · simp
    omega
  · simp
    omega

/-- When exactly the tables above the pages `seen` are there, the missing ones are
counted by the numbers of the pages. -/
theorem missingTables_eq {mem : PhysMem} {root : ℕ} {done : List SegPage} {v : Word}
    (hlow : ∀ s ∈ done, s.vaddr.toNat < 2 ^ 47) (hv : v.toNat < 2 ^ 47)
    (htables : ∀ q, LowerPath 3 q → q ≠ [] →
      ((descend codeNext mem root q).isSome = true ↔ ∃ s ∈ done, q <+: tablePath s.vaddr)) :
    missingTables mem root [] (tablePath v) =
      tablesFor (done.map SegPage.number) (v.toNat / 4096) := by
  have hpath : LowerPath 3 (tablePath v) := by
    have hindices := lowerPath_indices hv
    rw [indices_eq] at hindices
    exact hindices.of_append.of_le (by simp [tablePath])
  have hlevel : ∀ k < 3, ((descend codeNext mem root ((tablePath v).take (k + 1))).isSome = true ↔
      ¬ ∀ u ∈ done.map SegPage.number,
        u / 512 ^ (3 - k) ≠ v.toNat / 4096 / 512 ^ (3 - k)) := by
    intro k hk
    have hpre : LowerPath 3 ((tablePath v).take (k + 1)) := by
      rw [← List.take_append_drop (k + 1) (tablePath v)] at hpath
      exact hpath.of_append
    rw [htables _ hpre (by simp [tablePath])]
    simp only [List.forall_mem_map, not_forall, not_not, exists_prop]
    constructor
    · rintro ⟨s, hs, hq⟩
      exact ⟨s, hs, (prefix_tablePath_iff (hlow s hs) hv hk).mp hq⟩
    · rintro ⟨s, hs, hq⟩
      exact ⟨s, hs, (prefix_tablePath_iff (hlow s hs) hv hk).mpr hq⟩
  have h0 := hlevel 0 (by decide)
  have h1 := hlevel 1 (by decide)
  have h2 := hlevel 2 (by decide)
  simp only [tablePath, List.take_succ_cons, List.take_zero, Nat.reduceSub] at h0 h1 h2
  rw [tablesFor, ← List.countP_eq_length_filter]
  simp only [tablePath, missingTables, List.nil_append, List.cons_append, h0, h1, h2, ite_not,
    List.countP_cons, List.countP_nil, decide_eq_true_eq]
  omega

end LispDos.Process
