import LispDos.Foundation.Reserve
import LispDos.Verification.Heap.Kmalloc

/-! # The blocks of the kernel heap

The blocks that calls of `kmalloc` return are disjoint and zeroed, in every run in which no
requested size wraps around when it is rounded. -/

namespace LispDos.Memory

open Foundation

/-! ## Runs -/

/-- A call of `kmalloc` and the state that it is made in. -/
structure Call where
  before : Heap
  size : Word

namespace Call

def pointer (c : Call) : Word := (kmalloc c.before c.size).1

def after (c : Call) : Heap := (kmalloc c.before c.size).2

/-- The page allocator hands out the page in the call. -/
def Obtains (c : Call) (i : ℕ) : Prop :=
  bitmapTest c.before.pmm.bitmap i = false ∧ bitmapTest c.after.pmm.bitmap i = true

/-- The bytes that the caller has asked for, from the result on. -/
def block (c : Call) : Set Word :=
  {address | c.pointer ≠ 0#64 ∧ address ∈ span c.pointer c.size.toNat}

end Call

/-- The rest of the kernel runs. It may use the page allocator and write to memory, but it does not
free the pages of the heap, and writes to them only in the blocks that it has got. -/
structure Others (calls : List Call) (h h' : Heap) : Prop where
  hhdmOffset : h'.hhdmOffset = h.hhdmOffset
  currentPage : h'.currentPage = h.currentPage
  currentPageOffset : h'.currentPageOffset = h.currentPageOffset
  kept : ∀ c ∈ calls, ∀ i, c.Obtains i → bitmapTest h'.pmm.bitmap i = true
  unwritten : ∀ address, (∃ c ∈ calls, c.Obtains (h.pageOf address)) →
    (∀ c ∈ calls, address ∉ c.block) → h'.memory address = h.memory address

/-- The states of a run, with the calls so far, the last one first. -/
inductive HeapRun : List Call → Heap → Prop where
  | boot (h : Heap) (hpage : h.currentPage = 0#64) (hoffset : h.currentPageOffset = 0#64) :
      HeapRun [] h
  | call {calls : List Call} {h : Heap} (size : Word) :
      HeapRun calls h → HeapRun (⟨h, size⟩ :: calls) (kmalloc h size).2
  | others {calls : List Call} {h h' : Heap} :
      HeapRun calls h → Others calls h h' → HeapRun calls h'

/-- A result is aligned, and its bytes are in pages of the heap, zero, and in no earlier block. -/
structure CallSound (earlier : List Call) (c : Call) : Prop where
  aligned : c.pointer.toNat % 8 = 0
  inside : ∀ address ∈ c.block, ∃ c' ∈ c :: earlier, c'.Obtains (c.before.pageOf address)
  zeroed : ∀ address ∈ c.block, c.after.memory address = 0
  apart : ∀ c' ∈ earlier, Disjoint c.block c'.block

/-- All the results of a run are sound. -/
def Sound : List Call → Prop
  | [] => True
  | c :: earlier => CallSound earlier c ∧ Sound earlier

variable {calls : List Call} {c : Call} {h h' : Heap} {address : Word} {i n : ℕ}

/-! ## Invariant -/

/-- The pages of the heap are marked. Its blocks are in them, and so is what is left of the current
page, which is zero. -/
structure HeapInv (calls : List Call) (h : Heap) : Prop where
  marked : ∀ c ∈ calls, ∀ i, c.Obtains i → bitmapTest h.pmm.bitmap i = true
  offset_le : h.currentPageOffset.toNat ≤ 4096
  offset_mod : h.currentPageOffset.toNat % 8 = 0
  page : h.currentPage ≠ 0#64 → ∃ i, h.hhdmOffset.toNat + (i + 1) * 4096 < 2 ^ 64 ∧
    h.currentPage = h.phystokv (pageAddr i)
  zero : ∀ address ∈ h.spare, h.memory address = 0
  spare : ∀ address ∈ h.spare, ∃ c ∈ calls, c.Obtains (h.pageOf address)
  block : ∀ c ∈ calls, ∀ address ∈ c.block, ∃ c' ∈ calls, c'.Obtains (h.pageOf address)
  reserve : ∃ r : Reserve Word, r.blocks = calls.map Call.block ∧ r.spare = h.spare

/-- What a call does with the reserve: it takes its block from what is left of the current page or
from new pages. -/
structure CallSpec (calls : List Call) (c : Call) : Prop where
  hhdm : c.after.hhdmOffset = c.before.hhdmOffset
  bits : ∀ i, bitmapTest c.before.pmm.bitmap i = true → bitmapTest c.after.pmm.bitmap i = true
  offset_le : c.after.currentPageOffset.toNat ≤ 4096
  offset_mod : c.after.currentPageOffset.toNat % 8 = 0
  page : c.after.currentPage ≠ 0#64 → ∃ i, c.before.hhdmOffset.toNat + (i + 1) * 4096 < 2 ^ 64 ∧
    c.after.currentPage = c.before.phystokv (pageAddr i)
  aligned : c.pointer.toNat % 8 = 0
  zero : ∀ address, address ∈ c.after.spare ∨ address ∈ c.block → c.after.memory address = 0
  source : ∀ address, address ∈ c.after.spare ∨ address ∈ c.block →
    address ∈ c.before.spare ∨ c.Obtains (c.before.pageOf address)
  reserve : ∃ r : Reserve Word, r.blocks = (c :: calls).map Call.block ∧ r.spare = c.after.spare

/-- The bytes of a call are in pages of the heap. -/
theorem CallSpec.obtained (hspec : CallSpec calls c) (hinv : HeapInv calls c.before)
    (haddress : address ∈ c.after.spare ∨ address ∈ c.block) :
    ∃ c' ∈ c :: calls, c'.Obtains (c.before.pageOf address) := by
  rcases hspec.source address haddress with hold | hnew
  · obtain ⟨c', hmem, hobtains⟩ := hinv.spare address hold
    exact ⟨c', List.mem_cons_of_mem c hmem, hobtains⟩
  · exact ⟨c, List.mem_cons_self, hnew⟩

theorem CallSpec.sound (hspec : CallSpec calls c) (hinv : HeapInv calls c.before) :
    CallSound calls c := by
  refine ⟨hspec.aligned, ?_, fun address hblock => hspec.zero address (.inr hblock), ?_⟩
  · intro address hblock
    exact hspec.obtained hinv (.inr hblock)
  · obtain ⟨r, hblocks, _⟩ := hspec.reserve
    have hdisjoint := r.disjoint
    rw [hblocks, List.map_cons, List.pairwise_cons] at hdisjoint
    intro c' hmem
    exact hdisjoint.1 _ (List.mem_map_of_mem hmem)

theorem CallSpec.invariant (hspec : CallSpec calls c) (hinv : HeapInv calls c.before) :
    HeapInv (c :: calls) c.after := by
  have hpage : ∀ address, c.after.pageOf address = c.before.pageOf address := by
    intro address
    rw [Heap.pageOf, hspec.hhdm, Heap.pageOf]
  refine ⟨?_, hspec.offset_le, hspec.offset_mod, ?_,
    fun address hspare => hspec.zero address (.inl hspare), ?_, ?_, hspec.reserve⟩
  · intro c' hmem i hobtains
    rcases List.mem_cons.mp hmem with rfl | hmem
    · exact hobtains.2
    · exact hspec.bits i (hinv.marked c' hmem i hobtains)
  · intro hne
    obtain ⟨i, hi, hcurrent⟩ := hspec.page hne
    refine ⟨i, by rw [hspec.hhdm]; exact hi, ?_⟩
    rw [hcurrent, Heap.phystokv, Heap.phystokv, hspec.hhdm]
  · intro address hspare
    rw [hpage]
    exact hspec.obtained hinv (.inl hspare)
  · intro c' hmem address hblock
    rw [hpage]
    rcases List.mem_cons.mp hmem with rfl | hmem
    · exact hspec.obtained hinv (.inr hblock)
    · obtain ⟨c'', hmem'', hobtains⟩ := hinv.block c' hmem address hblock
      exact ⟨c'', List.mem_cons_of_mem c hmem'', hobtains⟩

/-! ## The cases of a call -/

theorem zeroBytes_of_mem {memory : Word → UInt8} {ptr : Word} (h : address ∈ span ptr n) :
    zeroBytes memory ptr n address = 0 := if_pos h

theorem zeroBytes_of_not_mem {memory : Word → UInt8} {ptr : Word} (h : address ∉ span ptr n) :
    zeroBytes memory ptr n address = memory address := if_neg h

theorem Heap.spare_congr (hpage : h'.currentPage = h.currentPage)
    (hoffset : h'.currentPageOffset = h.currentPageOffset) : h'.spare = h.spare := by
  rw [Heap.spare, hpage, hoffset, Heap.spare]

theorem Heap.phystokv_mod (h : Heap) (i : ℕ) : (h.phystokv (pageAddr i)).toNat % 8 = 0 := by
  have haligned := h.aligned
  rw [Heap.phystokv, BitVec.toNat_add, pageAddr, BitVec.toNat_ofNat]
  omega

/-- A page that the allocator may hand out is none of the heap's. -/
theorem HeapInv.apart_of_clear (hinv : HeapInv calls h)
    (hclear : bitmapTest h.pmm.bitmap (h.pageOf address) = false) :
    address ∉ h.spare ∧ ∀ c ∈ calls, address ∉ c.block := by
  have hnone : ∀ c ∈ calls, ¬ c.Obtains (h.pageOf address) := by
    intro c hmem hobtains
    rw [hinv.marked c hmem _ hobtains] at hclear
    cases hclear
  constructor
  · intro hspare
    obtain ⟨c, hmem, hobtains⟩ := hinv.spare address hspare
    exact hnone c hmem hobtains
  · intro c hmem hblock
    obtain ⟨c', hmem', hobtains⟩ := hinv.block c hmem address hblock
    exact hnone c' hmem' hobtains

/-- A row of pages that the allocator has handed out. -/
theorem Takes.row_le {p p' : Pmm} (takes : Takes p p' (Finset.Ico i (i + n))) (hn : 0 < n) :
    i + n ≤ p.highestPage := by
  have hlast := takes.lt (i := i + n - 1) (Finset.mem_Ico.mpr ⟨by omega, by omega⟩)
  omega

theorem Takes.mapped (takes : Takes h.pmm h'.pmm (Finset.Ico i (i + n))) (hn : 0 < n) :
    h.hhdmOffset.toNat + (i + n) * 4096 < 2 ^ 64 :=
  (Nat.add_le_add_left (Nat.mul_le_mul_right 4096 (takes.row_le hn)) _).trans_lt h.mapped

theorem Takes.of_mem_span (takes : Takes h.pmm h'.pmm (Finset.Ico i (i + n))) (hn : 0 < n)
    (haddress : address ∈ span (h.phystokv (pageAddr i)) (n * 4096)) :
    bitmapTest h.pmm.bitmap (h.pageOf address) = false ∧
      bitmapTest h'.pmm.bitmap (h.pageOf address) = true := by
  have hrow := takes.row_le hn
  have hhighest := h.pmm.highest_lt
  have hmem : h.pageOf address ∈ Finset.Ico i (i + n) :=
    Finset.mem_Ico.mpr ((mem_span_pages h (by omega)).mp haddress)
  refine ⟨takes.test_eq_false hmem, ?_⟩
  rw [takes.bits, decide_eq_true hmem, Bool.true_or]

/-- A row of pages that the allocator hands out is apart from all that the heap has. -/
theorem HeapInv.row_apart (hinv : HeapInv calls h) (hn : 0 < n)
    (takes : Takes h.pmm h'.pmm (Finset.Ico i (i + n))) :
    Disjoint (span (h.phystokv (pageAddr i)) (n * 4096)) h.spare ∧
      ∀ block ∈ calls.map Call.block,
        Disjoint (span (h.phystokv (pageAddr i)) (n * 4096)) block := by
  have hapart : ∀ address ∈ span (h.phystokv (pageAddr i)) (n * 4096),
      address ∉ h.spare ∧ ∀ c ∈ calls, address ∉ c.block :=
    fun address haddress => hinv.apart_of_clear (takes.of_mem_span hn haddress).1
  constructor
  · exact Set.disjoint_left.mpr fun address haddress => (hapart address haddress).1
  · intro block hmem
    obtain ⟨c, hcall, rfl⟩ := List.mem_map.mp hmem
    exact Set.disjoint_left.mpr fun address haddress => (hapart address haddress).2 c hcall

theorem Takes.keeps_bits (takes : Takes h.pmm h'.pmm (Finset.Ico i (i + n))) {j : ℕ}
    (hj : bitmapTest h.pmm.bitmap j = true) : bitmapTest h'.pmm.bitmap j = true := by
  rw [takes.bits, hj, Bool.or_true]

theorem CallSpec.of_null (hinv : HeapInv calls c.before) (hptr : c.pointer = 0#64)
    (hhdm : c.after.hhdmOffset = c.before.hhdmOffset)
    (hbits : ∀ i, bitmapTest c.before.pmm.bitmap i = true → bitmapTest c.after.pmm.bitmap i = true)
    (hmemory : c.after.memory = c.before.memory)
    (hpage : c.after.currentPage = c.before.currentPage)
    (hoffset : c.after.currentPageOffset = c.before.currentPageOffset) : CallSpec calls c := by
  have hblock : c.block = ∅ := Set.eq_empty_of_forall_notMem fun _ h => h.1 hptr
  have hspare : c.after.spare = c.before.spare := Heap.spare_congr hpage hoffset
  refine ⟨hhdm, hbits, ?_, ?_, ?_, ?_, ?_, ?_, ?_⟩
  · rw [hoffset]
    exact hinv.offset_le
  · rw [hoffset]
    exact hinv.offset_mod
  · rw [hpage]
    exact hinv.page
  · rw [hptr]
    rfl
  · intro address haddress
    rw [hspare, hblock] at haddress
    rw [hmemory]
    exact hinv.zero address (haddress.resolve_right (Set.notMem_empty address))
  · intro address haddress
    rw [hspare, hblock] at haddress
    exact .inl (haddress.resolve_right (Set.notMem_empty address))
  · obtain ⟨r, hblocks, hreserve⟩ := hinv.reserve
    have hempty : ∅ :: r.blocks = (c :: calls).map Call.block := by
      rw [List.map_cons, hblock, hblocks]
    exact ⟨r.place (fun _ _ => Set.empty_disjoint _) (Set.empty_disjoint _), hempty,
      hreserve.trans hspare.symm⟩

/-- The block is cut from the current page. -/
theorem CallSpec.of_current (hinv : HeapInv calls c.before) (hpage : c.before.currentPage ≠ 0#64)
    (hroom : c.before.currentPageOffset + roundSize c.size ≤ 4096#64)
    (hrounded : roundSize c.size ≤ 4096#64) (hsize : c.size.toNat ≤ (roundSize c.size).toNat)
    (hcall : kmalloc c.before c.size = c.before.bump (roundSize c.size)) : CallSpec calls c := by
  have hptr : c.pointer = c.before.currentPage + c.before.currentPageOffset := by
    rw [Call.pointer, hcall]
    rfl
  have hafter : c.after = (c.before.bump (roundSize c.size)).2 := by
    rw [Call.after, hcall]
  have hoffset : c.after.currentPageOffset = c.before.currentPageOffset + roundSize c.size := by
    rw [hafter]
    rfl
  have hcurrent : c.after.currentPage = c.before.currentPage := by
    rw [hafter]
    rfl
  have hle := hinv.offset_le
  have hmod := hinv.offset_mod
  have hmultiple := toNat_roundSize c.size
  have hrounded' : (roundSize c.size).toNat ≤ 4096 := BitVec.le_def.mp hrounded
  have hsum : (c.before.currentPageOffset + roundSize c.size).toNat =
      c.before.currentPageOffset.toNat + (roundSize c.size).toNat := by
    rw [BitVec.toNat_add, Nat.mod_eq_of_lt (by omega)]
  have hroom' : (c.before.currentPageOffset + roundSize c.size).toNat ≤ 4096 :=
    BitVec.le_def.mp hroom
  rw [hsum] at hroom'
  -- addresses are compared by their place in the page
  have hblock : ∀ address ∈ c.block,
      c.before.currentPageOffset.toNat ≤ (address - c.before.currentPage).toNat ∧
        (address - c.before.currentPage).toNat <
          c.before.currentPageOffset.toNat + (roundSize c.size).toNat := by
    intro address haddress
    have hspan : (address - c.pointer).toNat < c.size.toNat := haddress.2
    have hsub : address - c.pointer =
        address - c.before.currentPage - c.before.currentPageOffset := by
      rw [hptr]
      apply BitVec.eq_of_toNat_eq
      simp only [BitVec.toNat_sub, BitVec.toNat_add]
      omega
    rw [hsub, BitVec.toNat_sub] at hspan
    omega
  have hspare : ∀ address ∈ c.after.spare, c.before.currentPageOffset.toNat +
      (roundSize c.size).toNat ≤ (address - c.before.currentPage).toNat ∧
        (address - c.before.currentPage).toNat < 4096 := by
    intro address haddress
    have hin := haddress.2
    rw [hcurrent, hoffset, hsum] at hin
    exact hin
  have hsource : ∀ address, address ∈ c.after.spare ∨ address ∈ c.block →
      address ∈ c.before.spare := by
    intro address haddress
    refine ⟨hpage, ?_⟩
    rcases haddress with haddress | haddress
    · have hin := hspare address haddress
      omega
    · have hin := hblock address haddress
      omega
  refine ⟨?_, ?_, ?_, ?_, ?_, ?_, ?_, ?_, ?_⟩
  · rw [hafter]
    rfl
  · rw [hafter]
    exact fun _ => id
  · rw [hoffset, hsum]
    exact hroom'
  · rw [hoffset, hsum]
    omega
  · rw [hcurrent]
    exact hinv.page
  · obtain ⟨i, _, hi⟩ := hinv.page hpage
    have haligned := c.before.phystokv_mod i
    rw [← hi] at haligned
    rw [hptr, BitVec.toNat_add]
    omega
  · intro address haddress
    rw [hafter]
    exact hinv.zero address (hsource address haddress)
  · intro address haddress
    exact .inl (hsource address haddress)
  · obtain ⟨r, hblocks, hreserve⟩ := hinv.reserve
    have hdisjoint : Disjoint c.block c.after.spare := by
      rw [Set.disjoint_left]
      intro address hmem hmem'
      have hin := hblock address hmem
      have hout := hspare address hmem'
      omega
    rw [← hreserve] at hsource
    exact ⟨r.cut (fun address h => hsource address (.inr h))
      (fun address h => hsource address (.inl h)) hdisjoint, congrArg (c.block :: ·) hblocks, rfl⟩

/-- The block and the reserve are cut from a new page. -/
theorem CallSpec.of_fresh (hinv : HeapInv calls c.before)
    (takes : Takes c.before.pmm c.after.pmm (Finset.Ico i (i + 1)))
    (hptr : c.pointer = c.before.phystokv (pageAddr i))
    (hhdm : c.after.hhdmOffset = c.before.hhdmOffset) (hrounded : roundSize c.size ≤ 4096#64)
    (hsize : c.size.toNat ≤ (roundSize c.size).toNat)
    (hmemory : c.after.memory =
      zeroBytes c.before.memory (c.before.phystokv (pageAddr i)) (1 * 4096))
    (hpage : c.after.currentPage = c.before.phystokv (pageAddr i))
    (hoffset : c.after.currentPageOffset = roundSize c.size) : CallSpec calls c := by
  have hrounded' : (roundSize c.size).toNat ≤ 4096 := BitVec.le_def.mp hrounded
  have hmultiple := toNat_roundSize c.size
  have hblock : ∀ address ∈ c.block,
      (address - c.before.phystokv (pageAddr i)).toNat < (roundSize c.size).toNat := by
    intro address haddress
    have hspan : (address - c.pointer).toNat < c.size.toNat := haddress.2
    rw [hptr] at hspan
    omega
  have hspare : ∀ address ∈ c.after.spare,
      (roundSize c.size).toNat ≤ (address - c.before.phystokv (pageAddr i)).toNat ∧
        (address - c.before.phystokv (pageAddr i)).toNat < 4096 := by
    intro address haddress
    have hin := haddress.2
    rw [hpage, hoffset] at hin
    exact hin
  have hsource : ∀ address, address ∈ c.after.spare ∨ address ∈ c.block →
      address ∈ span (c.before.phystokv (pageAddr i)) (1 * 4096) := by
    intro address haddress
    show (address - c.before.phystokv (pageAddr i)).toNat < 1 * 4096
    rcases haddress with haddress | haddress
    · have hin := hspare address haddress
      omega
    · have hin := hblock address haddress
      omega
  refine ⟨hhdm, fun _ => takes.keeps_bits, ?_, ?_, ?_, ?_, ?_, ?_, ?_⟩
  · rw [hoffset]
    exact hrounded'
  · rw [hoffset]
    omega
  · intro _
    exact ⟨i, takes.mapped Nat.one_pos, hpage⟩
  · rw [hptr]
    exact c.before.phystokv_mod i
  · intro address haddress
    rw [hmemory]
    exact zeroBytes_of_mem (hsource address haddress)
  · intro address haddress
    exact .inr (takes.of_mem_span Nat.one_pos (hsource address haddress))
  · obtain ⟨r, hblocks, _⟩ := hinv.reserve
    have hfresh : ∀ block ∈ r.blocks,
        Disjoint block (span (c.before.phystokv (pageAddr i)) (1 * 4096)) := by
      rw [hblocks]
      exact fun block hmem => ((hinv.row_apart Nat.one_pos takes).2 block hmem).symm
    have hdisjoint : Disjoint c.block c.after.spare := by
      rw [Set.disjoint_left]
      intro address hmem hmem'
      have hin := hblock address hmem
      have hout := hspare address hmem'
      omega
    exact ⟨(r.renew hfresh).cut (fun address h => hsource address (.inr h))
      (fun address h => hsource address (.inl h)) hdisjoint, congrArg (c.block :: ·) hblocks, rfl⟩

/-- The block is placed on new pages. -/
theorem CallSpec.of_large (hinv : HeapInv calls c.before) (hn : 0 < n)
    (takes : Takes c.before.pmm c.after.pmm (Finset.Ico i (i + n)))
    (hptr : c.pointer = c.before.phystokv (pageAddr i))
    (hhdm : c.after.hhdmOffset = c.before.hhdmOffset) (hsize : c.size.toNat ≤ n * 4096)
    (hmemory : c.after.memory =
      zeroBytes c.before.memory (c.before.phystokv (pageAddr i)) (n * 4096))
    (hpage : c.after.currentPage = c.before.currentPage)
    (hoffset : c.after.currentPageOffset = c.before.currentPageOffset) : CallSpec calls c := by
  have hspare : c.after.spare = c.before.spare := Heap.spare_congr hpage hoffset
  have hblock : c.block ⊆ span (c.before.phystokv (pageAddr i)) (n * 4096) := by
    intro address haddress
    have hspan : (address - c.pointer).toNat < c.size.toNat := haddress.2
    rw [hptr] at hspan
    exact hspan.trans_le hsize
  obtain ⟨hapart, hearlier⟩ := hinv.row_apart hn takes
  refine ⟨hhdm, fun _ => takes.keeps_bits, ?_, ?_, ?_, ?_, ?_, ?_, ?_⟩
  · rw [hoffset]
    exact hinv.offset_le
  · rw [hoffset]
    exact hinv.offset_mod
  · rw [hpage]
    exact hinv.page
  · rw [hptr]
    exact c.before.phystokv_mod i
  · intro address haddress
    rw [hmemory]
    rcases haddress with haddress | haddress
    · rw [hspare] at haddress
      rw [zeroBytes_of_not_mem (Set.disjoint_right.mp hapart haddress)]
      exact hinv.zero address haddress
    · exact zeroBytes_of_mem (hblock haddress)
  · intro address haddress
    rcases haddress with haddress | haddress
    · rw [hspare] at haddress
      exact .inl haddress
    · exact .inr (takes.of_mem_span hn (hblock haddress))
  · obtain ⟨r, hblocks, hreserve⟩ := hinv.reserve
    rw [← hblocks] at hearlier
    rw [← hreserve] at hapart
    exact ⟨r.place (fun block hmem => (hearlier block hmem).mono_left hblock)
      (hapart.mono_left hblock), congrArg (c.block :: ·) hblocks, hreserve.trans hspare.symm⟩

theorem Heap.phystokv_ne_zero (hi : i ≠ 0)
    (hmapped : h.hhdmOffset.toNat + i * 4096 < 2 ^ 64) : h.phystokv (pageAddr i) ≠ 0#64 := by
  intro hzero
  have hvalue := congrArg BitVec.toNat hzero
  rw [Heap.phystokv, BitVec.toNat_add, pageAddr_toNat (by omega), BitVec.toNat_ofNat] at hvalue
  omega

/-- A pointer into the current page is not null. -/
theorem HeapInv.current_ne_zero (hinv : HeapInv calls h) (hpage : h.currentPage ≠ 0#64) :
    h.currentPage + h.currentPageOffset ≠ 0#64 := by
  intro hzero
  obtain ⟨i, hmapped, hcurrent⟩ := hinv.page hpage
  have hoffset := hinv.offset_le
  have hpage' : h.currentPage.toNat ≠ 0 := fun hne => hpage (BitVec.eq_of_toNat_eq hne)
  have hcurrent' := congrArg BitVec.toNat hcurrent
  rw [Heap.phystokv, BitVec.toNat_add, pageAddr_toNat (by omega)] at hcurrent'
  have hvalue := congrArg BitVec.toNat hzero
  rw [BitVec.toNat_add, BitVec.toNat_ofNat] at hvalue
  omega

theorem Takes.phystokv_ne_zero (takes : Takes h.pmm h'.pmm (Finset.Ico i (i + n))) (hn : 0 < n)
    (hi : i ≠ 0) : h.phystokv (pageAddr i) ≠ 0#64 := by
  have hmapped := takes.mapped hn
  have hle : i * 4096 ≤ (i + n) * 4096 := Nat.mul_le_mul_right _ (Nat.le_add_right i n)
  exact Heap.phystokv_ne_zero hi ((Nat.add_le_add_left hle _).trans_lt hmapped)

/-! ## Sizes that wrap around -/

/-- The size is not one of the last seven, unless there is no current page and no page for a new
one. -/
def Fits (c : Call) : Prop :=
  c.size.toNat ≤ 2 ^ 64 - 8 ∨
    (c.before.currentPage = 0#64 ∧ (pmmAllocPage c.before.pmm).1 = 0#64)

/-- A size that wraps around is rounded to zero, and the pointer does not move. -/
theorem pointer_eq_zero_iff (hinv : HeapInv calls c.before) (hsize : 2 ^ 64 - 8 < c.size.toNat) :
    c.pointer = 0#64 ↔ c.before.currentPage = 0#64 ∧ (pmmAllocPage c.before.pmm).1 = 0#64 := by
  have hzero : c.size ≠ 0#64 := by
    intro hzero
    rw [hzero] at hsize
    exact absurd hsize (by decide)
  have hoffset : ¬ 4096#64 < c.before.currentPageOffset + 0#64 := by
    rw [BitVec.add_zero]
    exact BitVec.not_lt.mpr (BitVec.le_def.mpr hinv.offset_le)
  have hsmall : ¬ 4096#64 < 0#64 := by decide
  simp only [Call.pointer, kmalloc, roundSize_of_gt hsize, if_neg hzero, if_neg hsmall, hoffset,
    or_false]
  by_cases hpage : c.before.currentPage = 0#64
  · rw [if_pos hpage, and_iff_right hpage]
    by_cases hnone : (pmmAllocPage c.before.pmm).1 = 0#64
    · exact iff_of_true (congrArg Prod.fst (if_pos hnone)) hnone
    · obtain ⟨i, hn, hi, haddr, takes⟩ := (pmmAllocPage_cases c.before.cursor).row hnone
      refine iff_of_false ?_ hnone
      have htakes : Takes c.before.pmm c.before.allocPage.2.pmm (Finset.Ico i (i + 1)) := takes
      have hptr : c.before.phystokv (pmmAllocPage c.before.pmm).1 + 0#64 ≠ 0#64 := by
        rw [BitVec.add_zero, haddr]
        exact htakes.phystokv_ne_zero hn hi
      have hnone' : ¬ c.before.allocPage.1 = 0#64 := hnone
      rw [if_neg hnone']
      exact hptr
  · rw [if_neg hpage]
    exact iff_of_false (hinv.current_ne_zero hpage) fun h => hpage h.1

theorem Fits.size_le (hfits : Fits c) (hinv : HeapInv calls c.before) (hptr : c.pointer ≠ 0#64) :
    c.size.toNat ≤ 2 ^ 64 - 8 := by
  rcases hfits with hsize | hnone
  · exact hsize
  · by_contra hsize
    exact hptr ((pointer_eq_zero_iff hinv (Nat.lt_of_not_le hsize)).mpr hnone)

theorem Call.Obtains.lt (hobtains : c.Obtains i) : i < c.before.pmm.highestPage := by
  have hcase := kmalloc_cases c.before c.size
  obtain ⟨hclear, hset⟩ := hobtains
  rw [Call.after] at hset
  generalize kmalloc c.before c.size = r at hcase hset
  have htaken : ∀ {j n : ℕ} {h' : Heap}, Takes c.before.pmm h'.pmm (Finset.Ico j (j + n)) →
      bitmapTest h'.pmm.bitmap i = true → i < c.before.pmm.highestPage := by
    intro j n h' takes hset
    rw [takes.bits, hclear, Bool.or_false, decide_eq_true_eq] at hset
    exact takes.lt hset
  cases hcase with
  | null h' _ _ hnew =>
      refine (hnew i hset).resolve_left ?_
      rw [hclear]
      exact Bool.false_ne_true
  | current =>
      rw [Heap.bump, hclear] at hset
      cases hset
  | fresh _ _ _ takes => exact htaken takes hset
  | large _ _ _ _ takes => exact htaken takes hset

/-- A result for a size that wraps around would have to be almost the whole address space. -/
theorem HeapInv.not_callSound (hinv : HeapInv calls c.before) (hfits : ¬ Fits c) :
    ¬ CallSound calls c := by
  intro hsound
  rw [Fits, not_or, not_le] at hfits
  obtain ⟨hsize, hpage⟩ := hfits
  have hptr : c.pointer ≠ 0#64 := fun hzero => hpage ((pointer_eq_zero_iff hinv hsize).mp hzero)
  -- the last page of the address space is not in physical memory
  have hlast : ∀ address ∈ c.block, c.before.pageOf address ≠ 2 ^ 52 - 1 := by
    intro address haddress hlast
    obtain ⟨c', _, hobtains⟩ := hsound.inside address haddress
    have hlt := hobtains.lt
    have hhighest := c'.before.pmm.highest_lt
    omega
  have hone := fun h => hlast (c.before.hhdmOffset - 1#64) ⟨hptr, h⟩
  have hnine := fun h => hlast (c.before.hhdmOffset - 9#64) ⟨hptr, h⟩
  simp only [Heap.pageOf, span, Set.mem_ofPred_eq, BitVec.toNat_sub, BitVec.toNat_ofNat]
    at hone hnine
  have hptr' := c.pointer.isLt
  have hhdm := c.before.hhdmOffset.isLt
  omega

/-! ## Runs of the heap -/

theorem callSpec (hinv : HeapInv calls c.before) (hfits : Fits c) : CallSpec calls c := by
  have hcase := kmalloc_cases c.before c.size
  generalize hcall : kmalloc c.before c.size = r at hcase
  have hptr : c.pointer = r.1 := congrArg Prod.fst hcall
  have hafter : c.after = r.2 := congrArg Prod.snd hcall
  cases hcase with
  | null h' hhdm hbits hnew hmemory hpage hoffset =>
      subst hafter
      exact .of_null hinv hptr hhdm hbits hmemory hpage hoffset
  | current hpage hroom hrounded =>
      have hne : c.pointer ≠ 0#64 := by
        rw [hptr]
        exact hinv.current_ne_zero hpage
      exact .of_current hinv hpage hroom hrounded (le_toNat_roundSize (hfits.size_le hinv hne))
        hcall
  | fresh i h' hi takes hhdm hrounded hmemory hpage hoffset =>
      subst hafter
      have hne : c.pointer ≠ 0#64 := by
        rw [hptr]
        exact takes.phystokv_ne_zero Nat.one_pos hi
      exact .of_fresh hinv takes hptr hhdm hrounded (le_toNat_roundSize (hfits.size_le hinv hne))
        hmemory hpage hoffset
  | large i n h' hi takes hhdm hsize hlarge hmemory hpage hoffset =>
      subst hafter
      have hn : 0 < n := by
        have hgt := BitVec.lt_def.mp hlarge
        omega
      have hne : c.pointer ≠ 0#64 := by
        rw [hptr]
        exact takes.phystokv_ne_zero hn hi
      exact .of_large hinv hn takes hptr hhdm
        ((le_toNat_roundSize (hfits.size_le hinv hne)).trans hsize) hmemory hpage hoffset

theorem HeapInv.of_boot (hpage : h.currentPage = 0#64) (hoffset : h.currentPageOffset = 0#64) :
    HeapInv [] h := by
  have hspare : h.spare = ∅ := Set.eq_empty_of_forall_notMem fun _ hmem => hmem.1 hpage
  refine ⟨nofun, ?_, ?_, fun hne => absurd hpage hne, ?_, ?_, nofun,
    ⟨.empty, rfl, hspare.symm⟩⟩
  · rw [hoffset]
    exact Nat.zero_le _
  · rw [hoffset]
    rfl
  · intro address hmem
    rw [hspare] at hmem
    exact hmem.elim
  · intro address hmem
    rw [hspare] at hmem
    exact hmem.elim

theorem HeapInv.of_others (hinv : HeapInv calls h) (hothers : Others calls h h') :
    HeapInv calls h' := by
  have hpage : ∀ address, h'.pageOf address = h.pageOf address := by
    intro address
    rw [Heap.pageOf, hothers.hhdmOffset, Heap.pageOf]
  have hspare : h'.spare = h.spare :=
    Heap.spare_congr hothers.currentPage hothers.currentPageOffset
  refine ⟨hothers.kept, ?_, ?_, ?_, ?_, ?_, ?_, ?_⟩
  · rw [hothers.currentPageOffset]
    exact hinv.offset_le
  · rw [hothers.currentPageOffset]
    exact hinv.offset_mod
  · simp only [Heap.phystokv, hothers.currentPage, hothers.hhdmOffset]
    exact hinv.page
  · intro address hmem
    rw [hspare] at hmem
    -- what is left of the page is in no block
    obtain ⟨r, hblocks, hreserve⟩ := hinv.reserve
    have hapart : ∀ c ∈ calls, address ∉ c.block := by
      intro c hcall hblock
      have hdisjoint := r.apart c.block (by rw [hblocks]; exact List.mem_map_of_mem hcall)
      rw [hreserve] at hdisjoint
      exact Set.disjoint_left.mp hdisjoint hblock hmem
    rw [hothers.unwritten address (hinv.spare address hmem) hapart]
    exact hinv.zero address hmem
  · simp only [hspare, hpage]
    exact hinv.spare
  · simp only [hpage]
    exact hinv.block
  · rw [hspare]
    exact hinv.reserve

/-- As long as the sizes fit, the invariant holds and the results are sound. -/
theorem HeapRun.invariant (hrun : HeapRun calls h) (hfits : ∀ c ∈ calls, Fits c) :
    HeapInv calls h ∧ Sound calls := by
  induction hrun with
  | boot h hpage hoffset => exact ⟨.of_boot hpage hoffset, trivial⟩
  | @call calls h size _ ih =>
      obtain ⟨hinv, hsound⟩ := ih fun c hmem => hfits c (List.mem_cons_of_mem _ hmem)
      have hspec : CallSpec calls ⟨h, size⟩ := callSpec hinv (hfits _ List.mem_cons_self)
      exact ⟨hspec.invariant hinv, hspec.sound hinv, hsound⟩
  | others _ hothers ih =>
      obtain ⟨hinv, hsound⟩ := ih hfits
      exact ⟨hinv.of_others hothers, hsound⟩

/-- The results of a run are aligned, zeroed and disjoint blocks of the requested sizes exactly if
every size fits. -/
theorem heap_sound_iff (hrun : HeapRun calls h) : Sound calls ↔ ∀ c ∈ calls, Fits c := by
  refine ⟨?_, fun hfits => (hrun.invariant hfits).2⟩
  induction hrun with
  | boot => exact fun _ => nofun
  | @call calls h size hrun ih =>
      intro ⟨hcall, hsound⟩
      have hinv := (hrun.invariant (ih hsound)).1
      have hfits : Fits ⟨h, size⟩ := by
        by_contra hfits
        exact hinv.not_callSound hfits hcall
      exact List.forall_mem_cons.mpr ⟨hfits, ih hsound⟩
  | others _ _ ih => exact ih

theorem eightPages_cursor_le : eightPages.lastAllocatedIndex ≤ eightPages.highestPage :=
  Nat.zero_le 8

/-- A heap over seven free pages that are not zero. -/
def bootHeap : Heap where
  pmm := eightPages
  hhdmOffset := 0xFFFF800000000000#64
  memory := fun _ => 0xAA
  currentPage := 0#64
  currentPageOffset := 0#64
  cursor := eightPages_cursor_le
  aligned := by decide
  mapped := by decide

theorem heap_sound_twoCalls :
    Sound [⟨(kmalloc bootHeap 100#64).2, 5000#64⟩, ⟨bootHeap, 100#64⟩] := by
  refine (heap_sound_iff (.call 5000#64 (.call 100#64 (.boot bootHeap rfl rfl)))).mpr ?_
  intro c hmem
  rcases List.mem_cons.mp hmem with rfl | hmem
  · exact .inl (by decide)
  · obtain rfl := List.mem_singleton.mp hmem
    exact .inl (by decide)

/-- The largest size gets a pointer to no bytes at all. -/
theorem not_sound_largestSize :
    HeapRun [⟨bootHeap, BitVec.allOnes 64⟩] (kmalloc bootHeap (BitVec.allOnes 64)).2 ∧
      ¬ Sound [⟨bootHeap, BitVec.allOnes 64⟩] := by
  have hfits : ¬ Fits ⟨bootHeap, BitVec.allOnes 64⟩ := by
    rw [Fits, not_or]
    exact ⟨by decide, fun h => absurd h.2 (by decide)⟩
  have hinv : HeapInv [] bootHeap := .of_boot rfl rfl
  exact ⟨.call _ (.boot bootHeap rfl rfl), fun h => hinv.not_callSound hfits h.1⟩

end LispDos.Memory
