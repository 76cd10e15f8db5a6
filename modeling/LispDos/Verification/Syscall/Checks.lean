import LispDos.Kernel.UserMemory
import LispDos.Verification.Memory.AddressSpaces

/-! # What the checks guarantee

A pointer or a string that passes its check lies in pages that are present and open to
user mode at all four levels, with all of its bytes. -/

namespace LispDos.Memory

open Foundation

variable {mem : PhysMem} {root : ℕ} {v page size : Word} {writeRequired : Bool}

/-! ## Pages -/

/-- The entries of an address at the four levels. -/
def levelEntries (mem : PhysMem) (root : ℕ) (v : Word) : List Word :=
  let pml4e := mem root (tableIndex v 39)
  let pdpte := mem (tableOf pml4e) (tableIndex v 30)
  let pde := mem (tableOf pdpte) (tableIndex v 21)
  [pml4e, pdpte, pde, mem (tableOf pde) (tableIndex v 12)]

/-- The address lies in the lower half, in a page that is present and open to user mode at
all four levels. -/
structure UserPage (mem : PhysMem) (root : ℕ) (v : Word) : Prop where
  low : v.toNat < 2 ^ 47
  entries : ∀ e ∈ levelEntries mem root v, present e = true ∧ user e = true

/-- The entry of the last level has `PAGE_WRITE`. -/
def PageWritable (mem : PhysMem) (root : ℕ) (v : Word) : Prop :=
  ∀ e ∈ (levelEntries mem root v).getLast?, writable e = true

theorem lowerLimit_toNat : lowerLimit.toNat = 2 ^ 47 := by decide

theorem levelEntries_congr {u : Word} (h : SamePage u v) :
    levelEntries mem root u = levelEntries mem root v := by
  have hindices := indices_of_samePage h
  simp only [indices, List.cons.injEq, and_true] at hindices
  obtain ⟨h₁, h₂, h₃, h₄⟩ := hindices
  simp only [levelEntries, h₁, h₂, h₃, h₄]

/-- The check of a page is good for each of its addresses. -/
theorem checkPage_spec (hcheck : checkPage mem root page writeRequired = true)
    (hsame : SamePage page v) (hv : v.toNat < 2 ^ 47) :
    UserPage mem root v ∧ (writeRequired = true → PageWritable mem root v) := by
  have hentries : levelEntries mem root page = levelEntries mem root v := levelEntries_congr hsame
  dsimp only [checkPage] at hcheck
  split_ifs at hcheck with h₁ h₂ h₃
  simp only [userEntry, Bool.and_eq_true] at h₁ h₂ h₃ hcheck
  obtain ⟨h₄, hwrite⟩ := hcheck
  constructor
  · refine ⟨hv, ?_⟩
    rw [← hentries]
    intro e he
    simp only [levelEntries, List.mem_cons, List.not_mem_nil, or_false] at he
    rcases he with rfl | rfl | rfl | rfl
    · exact h₁
    · exact h₂
    · exact h₃
    · exact h₄
  · rintro rfl
    rw [PageWritable, ← hentries]
    intro e he
    simp only [levelEntries, List.getLast?_cons_cons, List.getLast?_singleton, Option.mem_def,
      Option.some_inj] at he
    rw [← he]
    simpa using hwrite

/-- In an address space of a program the processor finds the same page, and grants all that
the last level grants. -/
theorem UserPage.translates (h : UserPage mem root v) (hspace : AddressSpace mem root) :
    (∃ e, userWalk mem root v = some (0, e) ∧ walk mem root v = some (0, e)) ∧
      (PageWritable mem root v → ∀ e ∈ levelEntries mem root v, writable e = true) := by
  obtain ⟨hp₁, hp₂, hp₃⟩ := lowerPath_prefix (show 3 ≤ 3 by decide) h.low
  have hentries := h.entries
  simp only [levelEntries, List.forall_mem_cons, List.not_mem_nil, false_imp_iff, implies_true,
    and_true] at hentries
  obtain ⟨⟨h₁, hu₁⟩, ⟨h₂, hu₂⟩, ⟨h₃, hu₃⟩, ⟨h₄, hu₄⟩⟩ := hentries
  -- the entries above the last level are those of `vmm_map_page`
  obtain ⟨n₁, hn₁, he₁⟩ := hspace.entries [] root _ hp₁ rfl h₁
  have ht₁ : tableOf (tableEntry n₁) = n₁ := tableOf_tableEntry (hn₁.trans (by decide))
  have hw₁ := hwTable_tableEntry hn₁
  rw [he₁, ht₁] at h₂ h₃ h₄ hu₂ hu₃ hu₄
  obtain ⟨n₂, hn₂, he₂⟩ := hspace.entries [tableIndex v 39] n₁ _ hp₂
    (by rw [descend, he₁, hw₁]; rfl) h₂
  have ht₂ : tableOf (tableEntry n₂) = n₂ := tableOf_tableEntry (hn₂.trans (by decide))
  have hw₂ := hwTable_tableEntry hn₂
  rw [he₂, ht₂] at h₃ h₄ hu₃ hu₄
  obtain ⟨n₃, hn₃, he₃⟩ := hspace.entries [tableIndex v 39, tableIndex v 30] n₂ _ hp₃
    (by rw [descend, he₁, hw₁, Option.bind_some, descend, he₂, hw₂]; rfl) h₃
  have ht₃ : tableOf (tableEntry n₃) = n₃ := tableOf_tableEntry (hn₃.trans (by decide))
  rw [he₃, ht₃] at h₄ hu₄
  have hlevels : levelEntries mem root v =
      [tableEntry n₁, tableEntry n₂, tableEntry n₃, mem n₃ (tableIndex v 12)] := by
    simp only [levelEntries, he₁, ht₁, he₂, ht₂, he₃, ht₃]
  refine ⟨⟨mem n₃ (tableIndex v 12), ?_, ?_⟩, ?_⟩
  · simp only [userWalk, indices, resolve, he₁, he₂, he₃, userTable_tableEntry hn₁,
      userTable_tableEntry hn₂, userTable_tableEntry hn₃, userLeaf, hu₄, hwLeaf, h₄]
    rfl
  · simp only [walk, indices, resolve, he₁, he₂, he₃, hw₁, hw₂, hwTable_tableEntry hn₃, hwLeaf, h₄]
    rfl
  · intro hwrite
    rw [PageWritable, hlevels] at hwrite
    rw [hlevels]
    simp only [List.forall_mem_cons, List.not_mem_nil, false_imp_iff, implies_true, and_true]
    exact ⟨writable_tableEntry hn₁, writable_tableEntry hn₂, writable_tableEntry hn₃,
      hwrite _ rfl⟩

/-! ## Pointers -/

theorem pageStart_toNat (v : Word) : (pageStart v).toNat = 4096 * (v.toNat / 4096) := toNat_pageMask v

theorem vmmCheckUserPtr_spec (hcheck : vmmCheckUserPtr mem root v size writeRequired = true) {i : ℕ}
    (hi : i < size.toNat) : UserPage mem root (v + BitVec.ofNat 64 i) ∧
      (writeRequired = true → PageWritable mem root (v + BitVec.ofNat 64 i)) := by
  have hone : (1#64 : Word).toNat = 1 := rfl
  unfold vmmCheckUserPtr at hcheck
  split_ifs at hcheck with hzero hlow hwrap hend
  · rw [hzero] at hi
    simp at hi
  · rw [BitVec.not_le, BitVec.lt_def, lowerLimit_toNat] at hlow hend
    rw [BitVec.not_lt, BitVec.le_def] at hwrap
    have hsum : (v + size).toNat = v.toNat + size.toNat := by
      have hlt := size.isLt
      rw [BitVec.toNat_add] at hwrap hend ⊢
      omega
    have hlast : (v + size - 1#64).toNat = v.toNat + size.toNat - 1 := by
      rw [BitVec.toNat_sub_of_le (by rw [BitVec.le_def, hsum, hone]; omega), hsum, hone]
    have haddr : (v + BitVec.ofNat 64 i).toNat = v.toNat + i := toNat_add_ofNat (by omega)
    rw [List.all_eq_true] at hcheck
    -- the round of the loop for the page of the address
    have hround := hcheck ((v.toNat + i) / 4096 - v.toNat / 4096) (by
      rw [List.mem_range, pageStart_toNat, pageStart_toNat, hlast]
      omega)
    refine checkPage_spec hround ?_ (by omega)
    rw [SamePage, haddr, toNat_add_ofNat (by rw [pageStart_toNat]; omega), pageStart_toNat]
    omega

/-! ## Strings -/

/-- The string at an address: all bytes but the last are not zero, and all of them lie in
pages of the program. -/
structure UserString (mem : PhysMem) (root : ℕ) (v : Word) (n : ℕ) : Prop where
  low : v.toNat + n < 2 ^ 47
  chars : ∀ i < n, loadVirt mem root (v + BitVec.ofNat 64 i) ≠ 0
  terminator : loadVirt mem root (v + BitVec.ofNat 64 n) = 0
  pages : ∀ i ≤ n, UserPage mem root (v + BitVec.ofNat 64 i)

theorem cString_length {n : ℕ} (hlow : v.toNat + n < 2 ^ 47)
    (hchars : ∀ i < n, loadVirt mem root (v + BitVec.ofNat 64 i) ≠ 0)
    (hend : loadVirt mem root (v + BitVec.ofNat 64 n) = 0) : (cString mem root v).length = n := by
  induction n generalizing v with
  | zero =>
      have hv : v < lowerLimit := by
        rw [BitVec.lt_def, lowerLimit_toNat]
        omega
      rw [BitVec.add_zero] at hend
      rw [cString, dif_pos hv]
      simp only [hend, if_true, List.length_nil]
  | succ n ih =>
      have hv : v < lowerLimit := by
        rw [BitVec.lt_def, lowerLimit_toNat]
        omega
      have hfirst := hchars 0 (by omega)
      rw [BitVec.add_zero] at hfirst
      have hshift : ∀ i, v + 1#64 + BitVec.ofNat 64 i = v + BitVec.ofNat 64 (i + 1) := by
        intro i
        rw [BitVec.add_assoc, Nat.add_comm i 1, BitVec.ofNat_add]
      have hnext : (v + 1#64).toNat = v.toNat + 1 := toNat_add_ofNat (by omega)
      have hrest := ih (v := v + 1#64) (by omega)
        (fun i hi => by rw [hshift]; exact hchars (i + 1) (by omega)) (by rw [hshift]; exact hend)
      rw [cString, dif_pos hv]
      simp only [hfirst, if_false, List.length_cons, hrest]

theorem mem_addresses {a : Word} {n : ℕ} (h : a ∈ addresses v n) :
    ∃ i < n, a = v + BitVec.ofNat 64 i := by
  obtain ⟨i, hi, rfl⟩ := List.mem_map.mp h
  exact ⟨i, List.mem_range.mp hi, rfl⟩

theorem restOfPage_eq (hv : v < lowerLimit) : restOfPage v = 4096 - v.toNat % 4096 := by
  have hnext := nextPage_toNat hv
  have hle : v ≤ nextPage v := by
    rw [BitVec.le_def, hnext]
    omega
  rw [restOfPage, BitVec.toNat_sub_of_le hle, hnext]
  omega

/-- The bytes of the rest of a page that has been checked. -/
theorem userPage_rest (hv : v < lowerLimit) (hcheck : checkPage mem root (pageStart v) false = true)
    {i : ℕ} (hi : i < restOfPage v) :
    (v + BitVec.ofNat 64 i).toNat = v.toNat + i ∧ UserPage mem root (v + BitVec.ofNat 64 i) := by
  rw [restOfPage_eq hv] at hi
  rw [BitVec.lt_def, lowerLimit_toNat] at hv
  have haddr : (v + BitVec.ofNat 64 i).toNat = v.toNat + i := toNat_add_ofNat (by omega)
  refine ⟨haddr, (checkPage_spec hcheck ?_ (by omega)).1⟩
  rw [SamePage, pageStart_toNat, haddr]
  omega

theorem UserString.length_eq {n : ℕ} (h : UserString mem root v n) :
    (cString mem root v).length = n := cString_length h.low h.chars h.terminator

theorem UserString.of_found {i : ℕ} (hv : v < lowerLimit)
    (hcheck : checkPage mem root (pageStart v) false = true)
    (hfound : findTerminator mem root v = some i) : UserString mem root v i := by
  obtain ⟨hzero, hi, hchars⟩ := List.find?_range_eq_some.mp hfound
  rw [List.mem_range] at hi
  have hpage := userPage_rest hv hcheck hi
  refine ⟨by rw [← hpage.1]; exact hpage.2.low, ?_, of_decide_eq_true hzero, ?_⟩
  · intro j hj
    simpa using hchars j hj
  · intro j hj
    exact (userPage_rest hv hcheck (by omega)).2

/-- The addresses of the next page, seen from an address of a page. -/
theorem nextPage_add (hv : v < lowerLimit) (j : ℕ) :
    (nextPage v).toNat = v.toNat + restOfPage v ∧
      v + BitVec.ofNat 64 (restOfPage v + j) = nextPage v + BitVec.ofNat 64 j := by
  have hnext : (nextPage v).toNat = v.toNat + restOfPage v := by
    rw [nextPage_toNat hv, restOfPage_eq hv]
    omega
  have hrest : v + BitVec.ofNat 64 (restOfPage v) = nextPage v := by
    apply BitVec.eq_of_toNat_eq
    rw [toNat_add_ofNat (by rw [← hnext]; exact (nextPage v).isLt), hnext]
  rw [BitVec.ofNat_add, ← BitVec.add_assoc, hrest]
  exact ⟨hnext, rfl⟩

/-- A page without a terminator before the string of the next page. -/
theorem UserString.prepend {n : ℕ} (hv : v < lowerLimit)
    (hcheck : checkPage mem root (pageStart v) false = true)
    (hfound : findTerminator mem root v = none) (h : UserString mem root (nextPage v) n) :
    UserString mem root v (restOfPage v + n) := by
  have hnext := (nextPage_add hv 0).1
  have hshift := fun j => (nextPage_add hv j).2
  have hlow := h.low
  refine ⟨by omega, ?_, by rw [hshift]; exact h.terminator, ?_⟩
  · intro i hi
    by_cases hin : i < restOfPage v
    · simpa using List.find?_range_eq_none.mp hfound i hin
    · obtain ⟨j, rfl⟩ := Nat.exists_eq_add_of_le (not_lt.mp hin)
      rw [hshift]
      exact h.chars j (by omega)
  · intro i hi
    by_cases hin : i < restOfPage v
    · exact (userPage_rest hv hcheck hin).2
    · obtain ⟨j, rfl⟩ := Nat.exists_eq_add_of_le (not_lt.mp hin)
      rw [hshift]
      exact h.pages j (by omega)

/-- The check of a string reads only pages of the program, and a string that passes it
ends in them. -/
theorem vmmCheckUserString_spec (v : Word) :
    (∀ a ∈ (vmmCheckUserString mem root v).2, UserPage mem root a) ∧
      ((vmmCheckUserString mem root v).1 = true → ∃ n, UserString mem root v n) := by
  fun_induction vmmCheckUserString mem root v with
  | case1 v hv hcheck found hsome =>
      obtain ⟨i, hi⟩ := Option.isSome_iff_exists.mp hsome
      have hstring := UserString.of_found hv hcheck hi
      refine ⟨?_, fun _ => ⟨i, hstring⟩⟩
      intro a ha
      rw [hi, Option.getD_some] at ha
      obtain ⟨j, hj, rfl⟩ := mem_addresses ha
      exact hstring.pages j (by omega)
  | case2 v hv hcheck found hnone rest ih =>
      have hfound : findTerminator mem root v = none := Option.not_isSome_iff_eq_none.mp hnone
      constructor
      · intro a ha
        rcases List.mem_append.mp ha with ha | ha
        · obtain ⟨j, hj, rfl⟩ := mem_addresses ha
          exact (userPage_rest hv hcheck hj).2
        · exact ih.1 a ha
      · intro htrue
        obtain ⟨n, hn⟩ := ih.2 htrue
        exact ⟨_, hn.prepend hv hcheck hfound⟩
  | case3 v hv hcheck => simp
  | case4 v hv => simp

end LispDos.Memory
