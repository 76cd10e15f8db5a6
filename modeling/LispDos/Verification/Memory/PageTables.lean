import LispDos.Foundation.Radix
import LispDos.Verification.Memory.Entries

/-! # The four-level walk

How the processor translates an address, and the invariant of the tables that
`vmm_map_page` builds: the lower half is a tree whose tables occur nowhere else. -/

namespace LispDos.Memory

open Foundation

/-! ## Hardware -/

/-- Bit 7 of an entry makes it a large page. -/
def large (e : Word) : Bool := e.getLsbD 7

/-- The frame number in bits 12 to 51. -/
def frame (e : Word) : ℕ := (e &&& 0x000FFFFFFFFFF000#64).toNat / 4096

/-- The table an entry above the last level refers to. -/
def hwTable (e : Word) : Option ℕ := if present e && !large e then some (frame e) else none

/-- The entry at which a walk with `k` levels left ends, if it maps a page: any present
entry of the last level, and large pages of the two levels above. In a PML4 entry the
bit for large pages is reserved. -/
def hwLeaf (k : ℕ) (e : Word) : Option (ℕ × Word) :=
  if present e && (k == 0 || (large e && decide (k < 3))) then some (k, e) else none

/-- The four indices of an address. -/
def indices (v : Word) : List ℕ :=
  [tableIndex v 39, tableIndex v 30, tableIndex v 21, tableIndex v 12]

/-- The translation of an address: the size of its page and the leaf entry. -/
def walk (mem : PhysMem) (root : ℕ) (v : Word) : Option (ℕ × Word) :=
  resolve hwTable hwLeaf mem root (indices v)

/-- The two halves of the address space; other addresses fault. -/
def Canonical (v : Word) : Prop := v.toNat < 2 ^ 47 ∨ 2 ^ 64 - 2 ^ 47 ≤ v.toNat

/-- The addresses lie in the same page. -/
def SamePage (u v : Word) : Prop := u.toNat / 4096 = v.toNat / 4096

theorem frame_eq (e : Word) : frame e = e.toNat / 4096 % 2 ^ 40 := by
  have hmask : (0x000FFFFFFFFFF000#64 : Word).toNat = 0x000FFFFFFFFFF000 := by decide
  have hones : 0x000FFFFFFFFFF000 / 2 ^ 12 = 2 ^ 40 - 1 := by decide
  have hdiv : (e.toNat &&& 0x000FFFFFFFFFF000) / 2 ^ 12 = e.toNat / 2 ^ 12 % 2 ^ 40 := by
    rw [Nat.and_div_two_pow, hones, Nat.and_two_pow_sub_one_eq_mod]
  rw [frame, BitVec.toNat_and, hmask]
  exact hdiv

theorem hwTable_tableEntry {n : ℕ} (hn : n < 2 ^ 40) : hwTable (tableEntry n) = some n := by
  have hlt : n < 2 ^ 52 := hn.trans (by decide)
  have hlarge : large (tableEntry n) = false := by
    rw [large, BitVec.getLsbD, toNat_tableEntry hlt, Nat.testBit_eq_decide_div_mod_eq,
      decide_eq_false_iff_not]
    omega
  have hframe : frame (tableEntry n) = n := by
    rw [frame_eq, toNat_tableEntry hlt]
    omega
  simp [hwTable, present_tableEntry hlt, hlarge, hframe]

theorem hwTable_of_not_present {e : Word} (h : present e = false) : hwTable e = none := by
  simp [hwTable, h]

theorem hwLeaf_of_not_present {e : Word} (h : present e = false) (k : ℕ) :
    hwLeaf k e = none := by
  simp [hwLeaf, h]

theorem not_present_zero : present 0#64 = false := by decide

/-! ## Indices -/

theorem indices_of_samePage {u v : Word} (h : SamePage u v) : indices u = indices v := by
  have hindex : ∀ k, tableIndex u (12 + k) = tableIndex v (12 + k) := by
    intro k
    rw [tableIndex_eq, tableIndex_eq, Nat.pow_add, ← Nat.div_div_eq_div_mul,
      ← Nat.div_div_eq_div_mul]
    exact congrArg (fun x => x / 2 ^ k % 512) h
  simp only [indices]
  rw [hindex 0, hindex 9, hindex 18, hindex 27]

theorem samePage_of_indices {u v : Word} (hu : Canonical u) (hv : v.toNat < 2 ^ 47)
    (h : indices u = indices v) : SamePage u v := by
  simp only [indices, List.cons.injEq, tableIndex_eq, and_true] at h
  obtain ⟨h₁, h₂, h₃, h₄⟩ := h
  have hlt := u.isLt
  simp only [SamePage]
  rcases hu with hu | hu <;> omega

/-! ## Paths -/

/-- A path to a table: at most `d` indices, each below 512. -/
def Path (d : ℕ) (q : List ℕ) : Prop := q.length ≤ d ∧ ∀ i ∈ q, i < 512

/-- A path through the lower half of the PML4. -/
def LowerPath (d : ℕ) (q : List ℕ) : Prop := Path d q ∧ ∀ i ∈ q.head?, i < 256

theorem Path.init {d : ℕ} (q : List ℕ) (j : ℕ) (h : Path d (q ++ [j])) : Path d q := by
  obtain ⟨hlen, hall⟩ := h
  refine ⟨?_, fun i hi => hall i (by simp [hi])⟩
  simp at hlen
  omega

theorem LowerPath.init {d : ℕ} (q : List ℕ) (j : ℕ) (h : LowerPath d (q ++ [j])) :
    LowerPath d q := by
  refine ⟨Path.init q j h.1, ?_⟩
  intro i hi
  cases q with
  | nil => simp at hi
  | cons k q => exact h.2 i (by simpa using hi)

theorem lowerPath_nil (d : ℕ) : LowerPath d [] := ⟨⟨by simp, by simp⟩, by simp⟩

/-- Every proper prefix of the indices of an address is a path to a table. -/
theorem path_of_indices {v : Word} {q r : List ℕ} {j : ℕ} (h : indices v = q ++ j :: r) :
    Path 3 q := by
  have hlen : (indices v).length = 4 := rfl
  have hall : ∀ i ∈ indices v, i < 512 := by
    simp only [indices, List.forall_mem_cons]
    exact ⟨tableIndex_lt v 39, tableIndex_lt v 30, tableIndex_lt v 21, tableIndex_lt v 12,
      by simp⟩
  rw [h] at hlen hall
  refine ⟨?_, fun i hi => hall i (by simp [hi])⟩
  simp at hlen
  omega

theorem lowerPath_indices {v : Word} (hv : v.toNat < 2 ^ 47) : LowerPath 4 (indices v) := by
  refine ⟨⟨le_rfl, ?_⟩, ?_⟩
  · simp only [indices, List.forall_mem_cons]
    exact ⟨tableIndex_lt v 39, tableIndex_lt v 30, tableIndex_lt v 21, tableIndex_lt v 12,
      by simp⟩
  · simp only [indices, List.head?_cons, Option.mem_def, Option.some.injEq, forall_eq']
    rw [tableIndex_eq]
    omega

end LispDos.Memory
