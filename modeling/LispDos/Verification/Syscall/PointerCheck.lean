import LispDos.Foundation.Loop
import LispDos.Verification.Syscall.Checks

/-! # The pointer check is exact

`vmm_check_user_ptr` looks at one address for each page. It accepts exactly the ranges of which
every byte is in a page of the program, because the entries of an address are those of the
start of its page, and the pages of the loop are those of the bytes. -/

namespace LispDos.Memory

open Foundation

variable {mem : PhysMem} {root : ℕ} {v page endPage size : Word} {writeRequired : Bool}

/-- The byte at an address is what the check promises. -/
def ByteOk (mem : PhysMem) (root : ℕ) (writeRequired : Bool) (a : Word) : Prop :=
  UserPage mem root a ∧ (writeRequired = true → PageWritable mem root a)

/-- A page with a good byte passes its check. -/
theorem checkPage_of_byteOk (h : ByteOk mem root writeRequired v) (hsame : SamePage page v) :
    checkPage mem root page writeRequired = true := by
  obtain ⟨huser, hwrite⟩ := h
  have hentries := huser.entries
  rw [PageWritable, ← levelEntries_congr hsame] at hwrite
  rw [← levelEntries_congr hsame] at hentries
  simp only [levelEntries, List.forall_mem_cons, List.not_mem_nil, false_imp_iff, implies_true,
    and_true] at hentries
  simp only [levelEntries, List.getLast?_cons_cons, List.getLast?_singleton, Option.mem_def,
    Option.some_inj, forall_eq'] at hwrite
  obtain ⟨h₁, h₂, h₃, h₄⟩ := hentries
  have hlast : (!(writeRequired &&
      !writable (mem (tableOf (mem (tableOf (mem (tableOf (mem root (tableIndex page 39)))
        (tableIndex page 30))) (tableIndex page 21))) (tableIndex page 12)))) = true := by
    cases hw : writeRequired with
    | false => rfl
    | true => simp [hwrite hw]
  simp only [checkPage, userEntry, h₁, h₂, h₃, h₄, hlast, Bool.and_self, if_true]

/-! ## The loop over the pages -/

/-- One round of the loop `for (page = start_page; page <= end_page; page += 4096)`. -/
def checkRound (mem : PhysMem) (root : ℕ) (endPage : Word) (writeRequired : Bool) (page : Word) :
    LoopStep Word Bool :=
  if page ≤ endPage then
    if checkPage mem root page writeRequired then .next (page + 4096#64) else .leave false
  else .leave true

/-- The address of page `k` of the loop. -/
def loopPage (startPage : Word) (k : ℕ) : Word := startPage + BitVec.ofNat 64 (k * 4096)

theorem loopPage_succ (startPage : Word) (k : ℕ) :
    loopPage startPage k + 4096#64 = loopPage startPage (k + 1) := by
  have hsum : BitVec.ofNat 64 ((k + 1) * 4096) = BitVec.ofNat 64 (k * 4096) + 4096#64 := by
    rw [Nat.succ_mul, BitVec.ofNat_add]
  rw [loopPage, loopPage, hsum, BitVec.add_assoc]

/-- From page `k` on the loop returns what the checks of the remaining pages give. -/
theorem checkRound_returns (mem : PhysMem) (root : ℕ) (writeRequired : Bool)
    {startPage endPage : Word} (m k : ℕ)
    (h : startPage.toNat + 4096 * (k + m) = endPage.toNat + 4096) (hend : endPage.toNat < 2 ^ 47) :
    LoopReturns (checkRound mem root endPage writeRequired) (loopPage startPage k)
      ((List.range' k m).all fun i => checkPage mem root (loopPage startPage i) writeRequired) := by
  have hpage : (loopPage startPage k).toNat = startPage.toNat + k * 4096 :=
    toNat_add_ofNat (by omega)
  induction m generalizing k with
  | zero =>
      refine .leave (if_neg ?_)
      rw [BitVec.le_def]
      omega
  | succ m ih =>
      have hin : loopPage startPage k ≤ endPage := by
        rw [BitVec.le_def]
        omega
      rw [List.range'_succ, List.all_cons]
      by_cases hcheck : checkPage mem root (loopPage startPage k) writeRequired = true
      · rw [hcheck, Bool.true_and]
        have hrest := ih (k + 1) (by omega) (toNat_add_ofNat (by omega))
        refine .next ?_ hrest
        rw [checkRound, if_pos hin, if_pos hcheck, loopPage_succ]
      · have hfalse : checkPage mem root (loopPage startPage k) writeRequired = false := by
          simpa using hcheck
        rw [hfalse, Bool.false_and]
        refine .leave ?_
        rw [checkRound, if_pos hin, if_neg hcheck]

/-! ## The bytes of the range -/

/-- The tests before the loop. -/
structure ReachesLoop (v size : Word) : Prop where
  nonzero : size ≠ 0#64
  low : ¬ lowerLimit ≤ v
  nowrap : ¬ v + size < v
  last : ¬ lowerLimit ≤ v + size

theorem reachesLoop_iff :
    ReachesLoop v size ↔ size ≠ 0#64 ∧ v.toNat + size.toNat < 2 ^ 47 := by
  have hsize := size.isLt
  have hv := v.isLt
  have hlow : ¬ lowerLimit ≤ v ↔ v.toNat < 2 ^ 47 := by
    rw [BitVec.not_le, BitVec.lt_def, lowerLimit_toNat]
  have hnowrap : ¬ v + size < v ↔ v.toNat ≤ (v.toNat + size.toNat) % 2 ^ 64 := by
    rw [BitVec.not_lt, BitVec.le_def, BitVec.toNat_add]
  have hlast : ¬ lowerLimit ≤ v + size ↔ (v.toNat + size.toNat) % 2 ^ 64 < 2 ^ 47 := by
    rw [BitVec.not_le, BitVec.lt_def, lowerLimit_toNat, BitVec.toNat_add]
  constructor
  · intro h
    rcases h with ⟨h₁, h₂, h₃, h₄⟩
    rw [hlow] at h₂
    rw [hnowrap] at h₃
    rw [hlast] at h₄
    exact ⟨h₁, by omega⟩
  · intro h
    rcases h with ⟨h₁, h₂⟩
    exact ⟨h₁, hlow.mpr (by omega), hnowrap.mpr (by omega), hlast.mpr (by omega)⟩

theorem ReachesLoop.size_pos (h : ReachesLoop v size) : 1 ≤ size.toNat := by
  rw [Nat.one_le_iff_ne_zero]
  intro hz
  exact h.nonzero (BitVec.eq_of_toNat_eq hz)

/-- The last page of the loop. -/
def lastPage (v size : Word) : Word := pageStart (v + size - 1#64)

/-- The number of the pages of the loop. -/
def pageCount (v size : Word) : ℕ := ((lastPage v size).toNat - (pageStart v).toNat) / 4096 + 1

theorem ReachesLoop.lastPage_toNat (h : ReachesLoop v size) :
    (lastPage v size).toNat = 4096 * ((v.toNat + size.toNat - 1) / 4096) := by
  have hsum := (reachesLoop_iff.mp h).2
  have hpos := h.size_pos
  have hone : (1#64 : Word).toNat = 1 := rfl
  have hend : (v + size).toNat = v.toNat + size.toNat := by
    rw [BitVec.toNat_add]
    omega
  rw [lastPage, pageStart_toNat,
    BitVec.toNat_sub_of_le (by rw [BitVec.le_def, hend, hone]; omega), hend, hone]

theorem ReachesLoop.vmmCheckUserPtr_eq (h : ReachesLoop v size) :
    vmmCheckUserPtr mem root v size writeRequired =
      (List.range' 0 (pageCount v size)).all fun k =>
        checkPage mem root (loopPage (pageStart v) k) writeRequired := by
  rw [vmmCheckUserPtr, if_neg h.nonzero, if_neg h.low, if_neg h.nowrap, if_neg h.last,
    ← List.range_eq_range']
  rfl

/-- The loop ends, and the check returns its result. -/
theorem ReachesLoop.loop_returns (h : ReachesLoop v size) :
    LoopReturns (checkRound mem root (lastPage v size) writeRequired) (pageStart v)
      (vmmCheckUserPtr mem root v size writeRequired) := by
  have hsum := (reachesLoop_iff.mp h).2
  have hpos := h.size_pos
  have hend := h.lastPage_toNat
  have hstart := pageStart_toNat v
  have hzero : loopPage (pageStart v) 0 = pageStart v := by simp [loopPage]
  have hcount : (pageStart v).toNat + 4096 * (0 + pageCount v size) =
      (lastPage v size).toNat + 4096 := by
    rw [pageCount]
    omega
  have hloop := checkRound_returns mem root writeRequired _ _ hcount (by omega)
  rwa [hzero, ← h.vmmCheckUserPtr_eq] at hloop

/-- Every page of the loop holds a byte of the range. -/
theorem ReachesLoop.exists_byte (h : ReachesLoop v size) {k : ℕ} (hk : k < pageCount v size) :
    ∃ i < size.toNat, SamePage (loopPage (pageStart v) k) (v + BitVec.ofNat 64 i) := by
  have hsum := (reachesLoop_iff.mp h).2
  have hpos := h.size_pos
  have hend := h.lastPage_toNat
  have hstart := pageStart_toNat v
  rw [pageCount] at hk
  have hpage : (loopPage (pageStart v) k).toNat = (pageStart v).toNat + k * 4096 :=
    toNat_add_ofNat (by omega)
  -- the first byte of the page, or the first of the range
  refine ⟨max v.toNat ((pageStart v).toNat + k * 4096) - v.toNat, by omega, ?_⟩
  rw [SamePage, toNat_add_ofNat (by omega), hpage]
  omega

/-- The bytes of the range, by their addresses or by their offsets. -/
theorem ReachesLoop.forall_byte_iff (h : ReachesLoop v size) {P : Word → Prop} :
    (∀ a : Word, v.toNat ≤ a.toNat → a.toNat < v.toNat + size.toNat → P a) ↔
      ∀ i < size.toNat, P (v + BitVec.ofNat 64 i) := by
  have hsum := (reachesLoop_iff.mp h).2
  constructor
  · intro hP i hi
    have haddr : (v + BitVec.ofNat 64 i).toNat = v.toNat + i := toNat_add_ofNat (by omega)
    exact hP _ (by omega) (by omega)
  · intro hP a h₁ h₂
    have haddr : v + BitVec.ofNat 64 (a.toNat - v.toNat) = a := by
      apply BitVec.eq_of_toNat_eq
      rw [toNat_add_ofNat (by omega)]
      omega
    rw [← haddr]
    exact hP _ (by omega)

/-- The check accepts exactly the empty range and the ranges below the limit whose every byte
the program may access, and its loop ends. -/
theorem check_user_ptr_exact (mem : PhysMem) (root : ℕ) (v size : Word) (writeRequired : Bool) :
    (vmmCheckUserPtr mem root v size writeRequired = true ↔
      size = 0#64 ∨ (v.toNat + size.toNat < 2 ^ 47 ∧
        ∀ a : Word, v.toNat ≤ a.toNat → a.toNat < v.toNat + size.toNat →
          ByteOk mem root writeRequired a)) ∧
    (ReachesLoop v size →
      LoopReturns (checkRound mem root (lastPage v size) writeRequired) (pageStart v)
        (vmmCheckUserPtr mem root v size writeRequired)) := by
  refine ⟨?_, fun h => h.loop_returns⟩
  by_cases hzero : size = 0#64
  · simp [vmmCheckUserPtr, hzero]
  by_cases hreach : ReachesLoop v size
  · have hsum := (reachesLoop_iff.mp hreach).2
    rw [or_iff_right hzero, and_iff_right hsum, hreach.forall_byte_iff]
    constructor
    · intro hcheck i hi
      exact vmmCheckUserPtr_spec hcheck hi
    · intro hbytes
      rw [hreach.vmmCheckUserPtr_eq, List.all_eq_true]
      intro k hk
      have hlt : k < pageCount v size := by
        have := (List.mem_range'_1.mp hk).2
        omega
      obtain ⟨i, hi, hsame⟩ := hreach.exists_byte hlt
      exact checkPage_of_byteOk (hbytes i hi) hsame
  · have hlimits : ¬ v.toNat + size.toNat < 2 ^ 47 :=
      fun hsum => hreach (reachesLoop_iff.mpr ⟨hzero, hsum⟩)
    have hreject : vmmCheckUserPtr mem root v size writeRequired ≠ true := by
      intro hcheck
      unfold vmmCheckUserPtr at hcheck
      split_ifs at hcheck with h₁ h₂ h₃
      exact hreach ⟨hzero, h₁, h₂, h₃⟩
    refine iff_of_false hreject ?_
    intro h
    rcases h with hz | ⟨hsum, _⟩
    · exact hzero hz
    · exact hlimits hsum

end LispDos.Memory
