import LispDos.Verification.Process.Loading

/-! # Segments and pages

The arithmetic of the page loop for a segment that lies in the lower half and whose
contents lie in the file: which pages it has, and which bytes are copied where. -/

namespace LispDos.Process

open Memory

variable {seg : Segment} {size j : ℕ} {buf : ℕ → UInt8}

/-- A segment lies below the limit of the lower half, and its contents lie in the file. -/
structure Segment.Regular (size : ℕ) (seg : Segment) : Prop where
  start : seg.vaddr.toNat < 2 ^ 47
  low : seg.vaddr.toNat + seg.memsz.toNat ≤ 2 ^ 47
  contents : seg.filesz.toNat ≤ seg.memsz.toNat
  inFile : seg.offset.toNat + seg.filesz.toNat ≤ size

/-- The pages of a segment, from that of its first address up to its end. -/
def Segment.Occupies (seg : Segment) (p : ℕ) : Prop :=
  seg.vaddr.toNat / 4096 ≤ p ∧ p < (seg.vaddr.toNat + seg.memsz.toNat + 4095) / 4096

/-- The contents of the address `a` when the segment alone is loaded. -/
def Segment.contentsAt (buf : ℕ → UInt8) (seg : Segment) (a : ℕ) : UInt8 :=
  if seg.vaddr.toNat ≤ a ∧ a < seg.vaddr.toNat + seg.filesz.toNat then
    buf (seg.offset.toNat + (a - seg.vaddr.toNat))
  else 0

theorem toNat_pageOffset (v : Word) : (v &&& 0xFFF#64).toNat = v.toNat % 4096 := by
  have hones : (0xFFF#64 : Word).toNat = 2 ^ 12 - 1 := by decide
  rw [BitVec.toNat_and, hones, Nat.and_two_pow_sub_one_eq_mod]

section Regular

variable (h : seg.Regular size)

include h

theorem Segment.Regular.pageCount_eq :
    seg.pageCount = (seg.memsz.toNat + seg.vaddr.toNat % 4096 + 4095) / 4096 := by
  have hlow := h.low
  rw [Segment.pageCount, BitVec.toNat_add, BitVec.toNat_add, toNat_pageOffset]
  have hconst : (4095#64 : Word).toNat = 4095 := rfl
  rw [hconst]
  omega

theorem Segment.Regular.occupies_iff {p : ℕ} :
    seg.Occupies p ↔ ∃ j < seg.pageCount, p = seg.vaddr.toNat / 4096 + j := by
  rw [h.pageCount_eq, Segment.Occupies]
  constructor
  · rintro ⟨hle, hlt⟩
    exact ⟨p - seg.vaddr.toNat / 4096, by omega, by omega⟩
  · rintro ⟨j, hj, rfl⟩
    omega

variable (hj : j < seg.pageCount)

include hj

theorem Segment.Regular.page_toNat :
    (seg.page j).toNat = (seg.vaddr.toNat / 4096 + j) * 4096 := by
  have hlow := h.low
  have hcount := h.pageCount_eq
  have hconst : (4096#64 : Word).toNat = 4096 := rfl
  rw [Segment.page, BitVec.toNat_add, toNat_pageMask, BitVec.toNat_mul, BitVec.toNat_ofNat, hconst]
  omega

theorem Segment.Regular.number_eq : (SegPage.mk seg j).number = seg.vaddr.toNat / 4096 + j := by
  rw [SegPage.number, SegPage.vaddr, h.page_toNat hj]
  omega

/-- The page lies in the lower half. -/
theorem Segment.Regular.page_low : (seg.page j).toNat < 2 ^ 47 := by
  have hlow := h.low
  have hstart := h.start
  have hcount := h.pageCount_eq
  rw [h.page_toNat hj]
  omega

/-- The copy into a page: from where the contents and the page have begun to where one of
them ends. -/
theorem Segment.Regular.copy_cases (hsize : size < 2 ^ 32) :
    let a := (seg.vaddr.toNat / 4096 + j) * 4096
    let v := seg.vaddr.toNat
    let e := seg.vaddr.toNat + seg.filesz.toNat
    (seg.copy j = none ∧ e ≤ a) ∨ ∃ start src n, seg.copy j = some (start, src, n) ∧
      a + start.toNat = max v a ∧ src.toNat + v = seg.offset.toNat + max v a ∧
      max v a + n.toNat = min e (a + 4096) := by
  intro a v e
  have hlow := h.low
  have hcontents := h.contents
  have hfile := h.inFile
  have hpage := h.page_toNat hj
  have hbound := h.page_low hj
  have hnext : (seg.page j + 4096#64).toNat = a + 4096 := by
    rw [toNat_add_ofNat (by omega), hpage]
  have hend : (seg.vaddr + seg.filesz).toNat = e := by
    rw [BitVec.toNat_add]
    omega
  have hguard : seg.vaddr < seg.page j + 4096#64 := by
    rw [BitVec.lt_def, hnext]
    omega
  by_cases hafter : e ≤ a
  · left
    refine ⟨?_, hafter⟩
    have hnot : ¬ seg.page j < seg.vaddr + seg.filesz := by
      rw [BitVec.lt_def, hpage, hend]
      omega
    simp only [Segment.copy, hguard, hnot, and_false, if_false]
  · right
    have hbefore : seg.page j < seg.vaddr + seg.filesz := by
      rw [BitVec.lt_def, hpage, hend]
      omega
    simp only [Segment.copy, hguard, hbefore, and_self, if_true]
    -- the contents begin in this page, or they have begun before it
    obtain ⟨start, hstart, hcond⟩ : ∃ start : Word, a + start.toNat = max v a ∧
        (if seg.page j < seg.vaddr then seg.vaddr &&& 0xFFF#64 else 0#64) = start := by
      by_cases hfirst : seg.page j < seg.vaddr
      · refine ⟨_, ?_, rfl⟩
        rw [if_pos hfirst, toNat_pageOffset]
        rw [BitVec.lt_def, hpage] at hfirst
        omega
      · refine ⟨_, ?_, rfl⟩
        rw [if_neg hfirst]
        rw [BitVec.lt_def, hpage] at hfirst
        simp only [BitVec.toNat_ofNat, Nat.zero_mod]
        omega
    rw [hcond]
    have hfrom : (seg.page j + start).toNat = max v a := by
      rw [BitVec.toNat_add, hpage]
      omega
    have hsrc : (seg.offset + (seg.page j + start - seg.vaddr)).toNat + v =
        seg.offset.toNat + max v a := by
      rw [BitVec.toNat_add, BitVec.toNat_sub_of_le (by rw [BitVec.le_def, hfrom]; omega), hfrom]
      omega
    have hroom : (4096#64 - start).toNat = 4096 - start.toNat := by
      rw [BitVec.toNat_sub_of_le (by rw [BitVec.le_def]; simp only [BitVec.toNat_ofNat]; omega)]
      rfl
    have hto : (seg.page j + start + (4096#64 - start)).toNat = a + 4096 := by
      rw [BitVec.toNat_add, hfrom, hroom]
      omega
    by_cases hclip : seg.vaddr + seg.filesz < seg.page j + start + (4096#64 - start)
    · rw [if_pos hclip]
      rw [BitVec.lt_def, hend, hto] at hclip
      refine ⟨_, _, _, rfl, hstart, hsrc, ?_⟩
      rw [BitVec.toNat_sub_of_le (by rw [BitVec.le_def, hfrom, hend]; omega), hend, hfrom]
      omega
    · rw [if_neg hclip]
      rw [BitVec.lt_def, hend, hto] at hclip
      refine ⟨_, _, _, rfl, hstart, hsrc, ?_⟩
      rw [hroom]
      omega

theorem Segment.Regular.faults_eq (hsize : size < 2 ^ 32) : (SegPage.mk seg j).faults = false := by
  obtain ⟨hcopy, _⟩ | ⟨start, src, n, hcopy, hstart, _, hn⟩ := h.copy_cases hj hsize
  · simp [SegPage.faults, SegPage.copy, hcopy]
  · simp only [SegPage.faults, SegPage.copy, hcopy, Option.any_some, decide_eq_false_iff_not]
    omega

theorem Segment.Regular.within (hsize : size < 2 ^ 32) : (SegPage.mk seg j).within size := by
  have hfile := h.inFile
  intro start src n hsome
  obtain ⟨hcopy, _⟩ | ⟨start', src', n', hcopy, _, hsrc, hn⟩ := h.copy_cases hj hsize
  · simp only [SegPage.copy, hcopy] at hsome
    cases hsome
  · simp only [SegPage.copy, hcopy, Option.some_inj, Prod.mk.injEq] at hsome
    obtain ⟨rfl, rfl, rfl⟩ := hsome
    omega

/-- The byte of a page at an address. -/
theorem Segment.Regular.byte_eq (hsize : size < 2 ^ 32) {i : ℕ} (hi : i < 4096) :
    (SegPage.mk seg j).byte buf i =
      seg.contentsAt buf ((seg.vaddr.toNat / 4096 + j) * 4096 + i) := by
  rw [Segment.contentsAt]
  obtain ⟨hcopy, hafter⟩ | ⟨start, src, n, hcopy, hstart, hsrc, hn⟩ := h.copy_cases hj hsize
  · have hnone : (SegPage.mk seg j).copy = none := hcopy
    rw [SegPage.byte_none hnone, if_neg (by omega)]
  · have hsome : (SegPage.mk seg j).copy = some (start, src, n) := hcopy
    rw [SegPage.byte_some hsome]
    by_cases hin : start.toNat ≤ i ∧ i < start.toNat + n.toNat
    · rw [if_pos hin, if_pos (by omega)]
      refine congrArg buf ?_
      omega
    · rw [if_neg hin, if_neg (by omega)]

end Regular

end LispDos.Process
