import LispDos.Verification.Syscall.PointerCheck
import Mathlib.Logic.Relation

/-! # The string check is exact

`vmm_check_user_string` checks a page and then looks for a terminator in the rest of it, page
by page. It accepts exactly the strings that end below the limit, with all of their bytes in
pages of the program, and reads nothing before it has checked the page. -/

namespace LispDos.Memory

open Foundation Relation

variable {mem : PhysMem} {root : ℕ} {v current : Word} {r : Bool}

/-! ## The two loops -/

/-- Where the loops are: before the checks of a page, or at byte `i` of its rest. -/
inductive StringState where
  | page (current : Word)
  | byte (current i : Word)

/-- One round of the loop over the pages or of the loop over the bytes of a page. -/
def stringRound (mem : PhysMem) (root : ℕ) : StringState → LoopStep StringState Bool
  | .page current =>
      if lowerLimit ≤ current then .leave false
      else if checkPage mem root (pageStart current) false then .next (.byte current 0#64)
      else .leave false
  | .byte current i =>
      if i < nextPage current - current then
        if loadVirt mem root (current + i) = 0 then .leave true
        else .next (.byte current (i + 1#64))
      else .next (.page (nextPage current))

/-- The loops that start at `v` come to the byte at `current + i`. -/
def StringReads (mem : PhysMem) (root : ℕ) (v current i : Word) : Prop :=
  ReflTransGen (fun s t => stringRound mem root s = .next t) (.page v) (.byte current i) ∧
    i < nextPage current - current

theorem toNat_byteIndex (hv : current < lowerLimit) {m : ℕ} (hm : m ≤ restOfPage current) :
    (BitVec.ofNat 64 m).toNat = m := by
  rw [restOfPage_eq hv] at hm
  rw [BitVec.toNat_ofNat]
  omega

/-- The loop over the bytes passes those that are not zero. -/
theorem skip_bytes (hv : current < lowerLimit) {m : ℕ} (hm : m ≤ restOfPage current)
    (hchars : ∀ j < m, loadVirt mem root (current + BitVec.ofNat 64 j) ≠ 0)
    (h : LoopReturns (stringRound mem root) (.byte current (BitVec.ofNat 64 m)) r) :
    LoopReturns (stringRound mem root) (.byte current 0#64) r := by
  induction m with
  | zero => exact h
  | succ m ih =>
      refine ih (by omega) (fun j hj => hchars j (by omega)) (.next ?_ h)
      have hin : BitVec.ofNat 64 m < nextPage current - current := by
        rw [BitVec.lt_def, toNat_byteIndex hv (by omega)]
        exact hm
      rw [stringRound, if_pos hin, if_neg (hchars m (Nat.lt_succ_self m)), BitVec.ofNat_add]

/-- The loops end, and return what the check returns. -/
theorem stringRound_returns (mem : PhysMem) (root : ℕ) (v : Word) :
    LoopReturns (stringRound mem root) (.page v) (vmmCheckUserString mem root v).1 := by
  fun_induction vmmCheckUserString mem root v with
  | case1 v hv hcheck found hsome =>
      obtain ⟨i, hi⟩ := Option.isSome_iff_exists.mp hsome
      obtain ⟨hzero, hmem, hchars⟩ := List.find?_range_eq_some.mp hi
      have hlt := List.mem_range.mp hmem
      have hround : stringRound mem root (.page v) = .next (.byte v 0#64) := by
        rw [stringRound, if_neg (BitVec.not_le.mpr hv), if_pos hcheck]
      refine .next hround (skip_bytes hv hlt.le (by simpa using hchars) (.leave ?_))
      have hin : BitVec.ofNat 64 i < nextPage v - v := by
        rw [BitVec.lt_def, toNat_byteIndex hv hlt.le]
        exact hlt
      rw [stringRound, if_pos hin, if_pos (of_decide_eq_true hzero)]
  | case2 v hv hcheck found hnone rest ih =>
      have hfound : findTerminator mem root v = none := Option.not_isSome_iff_eq_none.mp hnone
      have hchars := List.find?_range_eq_none.mp hfound
      have hround : stringRound mem root (.page v) = .next (.byte v 0#64) := by
        rw [stringRound, if_neg (BitVec.not_le.mpr hv), if_pos hcheck]
      refine .next hround (skip_bytes hv le_rfl (by simpa using hchars) (.next ?_ ih))
      have hout : ¬ BitVec.ofNat 64 (restOfPage v) < nextPage v - v := by
        rw [BitVec.lt_def, toNat_byteIndex hv le_rfl]
        exact lt_irrefl _
      rw [stringRound, if_neg hout]
  | case3 v hv hcheck =>
      refine .leave ?_
      rw [stringRound, if_neg (BitVec.not_le.mpr hv), if_neg hcheck]
  | case4 v hv =>
      refine .leave ?_
      rw [stringRound, if_pos (BitVec.not_lt.mp hv)]

/-! ## What is read -/

/-- The page has been checked before its bytes are looked at. -/
def StringState.Checked (mem : PhysMem) (root : ℕ) : StringState → Prop
  | .page _ => True
  | .byte current _ =>
      current < lowerLimit ∧ checkPage mem root (pageStart current) false = true

theorem stringRound_checked {s t : StringState} (hs : s.Checked mem root)
    (h : stringRound mem root s = .next t) : t.Checked mem root := by
  cases s with
  | page current =>
      rw [stringRound] at h
      split_ifs at h with hlimit hcheck
      obtain rfl := LoopStep.next.inj h
      exact ⟨BitVec.not_le.mp hlimit, hcheck⟩
  | byte current i =>
      rw [stringRound] at h
      split_ifs at h
      · obtain rfl := LoopStep.next.inj h
        exact hs
      · obtain rfl := LoopStep.next.inj h
        trivial

theorem checked_of_reaches {s : StringState}
    (h : ReflTransGen (fun s t => stringRound mem root s = .next t) (.page v) s) :
    s.Checked mem root := by
  induction h with
  | refl => trivial
  | tail _ hstep ih => exact stringRound_checked ih hstep

theorem StringReads.userPage {i : Word} (h : StringReads mem root v current i) :
    UserPage mem root (current + i) := by
  obtain ⟨hreach, hi⟩ := h
  obtain ⟨hv, hcheck⟩ := checked_of_reaches hreach
  have hpage := (userPage_rest hv hcheck (BitVec.lt_def.mp hi)).2
  rwa [BitVec.ofNat_toNat, BitVec.setWidth_eq] at hpage

/-! ## What is accepted -/

/-- The part of a string behind a page without a terminator. -/
theorem UserString.rest {n : ℕ} (hv : v < lowerLimit) (hfound : findTerminator mem root v = none)
    (h : UserString mem root v n) : ∃ m, UserString mem root (nextPage v) m := by
  have hnext := (nextPage_add hv 0).1
  have hshift := fun j => (nextPage_add hv j).2
  have hle : restOfPage v ≤ n := by
    by_contra hlt
    have hchar := List.find?_range_eq_none.mp hfound n (not_le.mp hlt)
    simp [h.terminator] at hchar
  obtain ⟨m, rfl⟩ := Nat.exists_eq_add_of_le hle
  have hlow := h.low
  refine ⟨m, by omega, ?_, ?_, ?_⟩
  · intro i hi
    rw [← hshift]
    exact h.chars _ (by omega)
  · rw [← hshift]
    exact h.terminator
  · intro i hi
    rw [← hshift]
    exact h.pages _ (by omega)

theorem vmmCheckUserString_of_userString (v : Word) :
    (∃ n, UserString mem root v n) → (vmmCheckUserString mem root v).1 = true := by
  fun_induction vmmCheckUserString mem root v with
  | case1 v hv hcheck found hsome => exact fun _ => rfl
  | case2 v hv hcheck found hnone rest ih =>
      intro hstring
      obtain ⟨n, hn⟩ := hstring
      exact ih (hn.rest hv (Option.not_isSome_iff_eq_none.mp hnone))
  | case3 v hv hcheck =>
      intro hstring
      obtain ⟨n, hn⟩ := hstring
      have hfirst := hn.pages 0 (Nat.zero_le n)
      rw [BitVec.add_zero] at hfirst
      have hsame : SamePage (pageStart v) v := by
        rw [SamePage, pageStart_toNat]
        omega
      exact (hcheck (checkPage_of_byteOk ⟨hfirst, by simp⟩ hsame)).elim
  | case4 v hv =>
      intro hstring
      obtain ⟨n, hn⟩ := hstring
      have hlow := hn.low
      rw [BitVec.lt_def, lowerLimit_toNat] at hv
      omega

/-- The check accepts exactly the strings of the program, its loops end, and it reads bytes of
the program's pages only. -/
theorem check_user_string_exact (mem : PhysMem) (root : ℕ) (v : Word) :
    ((vmmCheckUserString mem root v).1 = true ↔ ∃ n, UserString mem root v n) ∧
      LoopReturns (stringRound mem root) (.page v) (vmmCheckUserString mem root v).1 ∧
      (∀ current i, StringReads mem root v current i → UserPage mem root (current + i)) ∧
      ∀ a ∈ (vmmCheckUserString mem root v).2, UserPage mem root a := by
  obtain ⟨hreads, hstring⟩ : (∀ a ∈ (vmmCheckUserString mem root v).2, UserPage mem root a) ∧ _ :=
    vmmCheckUserString_spec v
  exact ⟨⟨hstring, vmmCheckUserString_of_userString v⟩, stringRound_returns mem root v,
    fun _ _ h => h.userPage, hreads⟩

end LispDos.Memory
