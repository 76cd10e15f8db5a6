import LispDos.Kernel.Process
import LispDos.Verification.Memory.Bytes

/-! # What a program file asks for

The headers of a file determine the pages that the loader goes through, in order. The
loops of `process_exec` follow this plan as long as the file buffer keeps its contents. -/

namespace LispDos.Process

open Memory

/-! ## Headers of a file -/

section Headers

variable (buf : ℕ → UInt8)

/-- A little-endian field of a file. -/
def field (offset n : ℕ) : Word := leField (fun i => buf (offset + i)) n

/-- The file begins with the magic bytes. -/
def Magic : Prop := ∀ e ∈ elfMagic, field buf e.1.toNat 1 = e.2

instance : Decidable (Magic buf) :=
  List.decidableBAll (fun e : Word × Word => field buf e.1.toNat 1 = e.2) elfMagic

def phoff : Word := field buf 32 8

def phnum : Word := field buf 56 2

def entryPoint : Word := field buf 24 8

/-- The program header at an offset, if it is one to load. -/
def segmentAt (h : ℕ) : Option Segment :=
  if field buf h 4 = 1#64 then
    some ⟨field buf (h + 16) 8, field buf (h + 40) 8, field buf (h + 32) 8, field buf (h + 8) 8⟩
  else none

/-- The segments to load, in the order of the headers. -/
def segments : List Segment :=
  (List.range (phnum buf).toNat).filterMap fun i => segmentAt buf ((phoff buf).toNat + 56 * i)

end Headers

/-- A page of a segment. -/
structure SegPage where
  seg : Segment
  index : ℕ
  deriving DecidableEq

def SegPage.vaddr (s : SegPage) : Word := s.seg.page s.index

/-- The number of the page. -/
def SegPage.number (s : SegPage) : ℕ := s.vaddr.toNat / 4096

def SegPage.copy (s : SegPage) : Option (Word × Word × Word) := s.seg.copy s.index

/-- The copy does not fit into its page. -/
def SegPage.faults (s : SegPage) : Bool :=
  s.copy.any fun c => 4096 < c.1.toNat + c.2.2.toNat

def Segment.pages (seg : Segment) : List SegPage :=
  (List.range seg.pageCount).map fun j => ⟨seg, j⟩

def Segment.allowed (seg : Segment) : Bool := seg.vaddr < userLimit

/-- The pages up to the first segment that is refused. -/
def pagesOf (segs : List Segment) : List SegPage :=
  (segs.takeWhile Segment.allowed).flatMap Segment.pages

def refused (segs : List Segment) : Bool := segs.any fun seg => !seg.allowed

theorem pagesOf_allowed {seg : Segment} {segs : List Segment} (h : seg.allowed = true) :
    pagesOf (seg :: segs) = seg.pages ++ pagesOf segs := by
  simp [pagesOf, h]

theorem pagesOf_refused {seg : Segment} {segs : List Segment} (h : seg.allowed = false) :
    pagesOf (seg :: segs) = [] := by
  simp [pagesOf, h]

/-! ## Steps -/

/-- What a part of the loading leaves, when it goes on and when it ends the call. -/
def Step.Yields (s : Step) (P : Loader → Prop) (Q : ExecExit → Loader → Prop) : Prop :=
  match s with
  | .go l => P l
  | .stop exit l => Q exit l

variable {P P' : Loader → Prop} {Q : ExecExit → Loader → Prop}

theorem Step.Yields.imp {Q' : ExecExit → Loader → Prop} {s : Step} (h : s.Yields P Q)
    (hP : ∀ l, P l → P' l) (hQ : ∀ exit l, Q exit l → Q' exit l) : s.Yields P' Q' := by
  cases s with
  | go l => exact hP l h
  | stop exit l => exact hQ exit l h

theorem Step.Yields.andThen {s : Step} {f : Loader → Step} (h : s.Yields P Q)
    (hf : ∀ l, P l → (f l).Yields P' Q) : (s.andThen f).Yields P' Q := by
  cases s with
  | go l => exact hf l h
  | stop exit l => exact h

/-! ## The loops -/

theorem elfMagic_lt : ∀ e ∈ elfMagic, e.1.toNat < 4 := by
  simp [elfMagic]

theorem byteAt_add (mem : PhysMem) (phys offset : Word) (i : ℕ) :
    byteAt mem (phys + offset) i = byteAt mem phys (offset.toNat + i) := by
  rw [byteAt, byteAt, BitVec.ofNat_add, BitVec.ofNat_toNat, BitVec.setWidth_eq, BitVec.add_assoc]

/-- A field that lies in the file buffer has the value it has in the file. -/
theorem field_fst {buf : ℕ → UInt8} {limit : ℕ} {phys : Word} {l : Loader}
    (hbuf : ∀ k < limit, byteAt l.machine.mem phys k = buf k) (offset : Word) (n : ℕ)
    (h : offset.toNat + n ≤ limit) :
    (l.field phys offset n).1 = field buf offset.toNat n := by
  simp only [Loader.field, loadField, field]
  apply leField_congr
  intro i hi
  rw [byteAt_add, hbuf _ (by omega)]

section Rule

variable {phys map : Word}

/-! What each round keeps is kept by all of them, whatever the file buffer holds. -/

section Kept

variable {J : Loader → Prop} (hJfield : ∀ l offset n, J l → J (l.field phys offset n).2)
  (hJpage : ∀ seg j l, J l → (loadPage phys map seg j l).Yields J Q)
  (hJstop : ∀ l, J l → Q .kernelSegment l)

section Pages

include hJpage

theorem loadPages_keeps (seg : Segment) (n j : ℕ) (l : Loader) (h : J l) :
    (loadPages phys map seg n j l).Yields J Q := by
  induction n generalizing j l with
  | zero => exact h
  | succ n ih => exact (hJpage seg j l h).andThen (fun l' h' => ih (j + 1) l' h')

end Pages

include hJfield hJpage hJstop

theorem loadHeader_keeps (h : Word) (l : Loader) (hJ : J l) :
    (loadHeader phys map h l).Yields J Q := by
  have hJ₀ := hJfield l h 4 hJ
  simp only [loadHeader]
  split
  · have hJ₁ : J (readSegment phys h (l.field phys h 4).2).2 :=
      hJfield _ _ 8 (hJfield _ _ 8 (hJfield _ _ 8 (hJfield _ _ 8 hJ₀)))
    split
    · exact hJstop _ hJ₁
    · exact loadPages_keeps hJpage _ _ _ _ hJ₁
  · exact hJ₀

theorem loadHeaders_keeps (phoff : Word) (n i : ℕ) (l : Loader) (hJ : J l) :
    (loadHeaders phys map phoff n i l).Yields J Q := by
  induction n generalizing i l with
  | zero => exact hJ
  | succ n ih =>
      have hJ₀ := hJfield l 56#64 2 hJ
      simp only [loadHeaders]
      split
      · exact (loadHeader_keeps hJfield hJpage hJstop _ _ hJ₀).andThen
          (fun l' h' => ih (i + 1) l' h')
      · exact hJ₀

end Kept

/-! While the buffer keeps its contents the rounds follow the plan. The invariant `I` may
be left for a property `J` that is kept by every round. -/

variable {I : List SegPage → Loader → Prop} {J : Loader → Prop}
  (hJpage : ∀ seg j l, J l → (loadPage phys map seg j l).Yields J Q)
  (hpage : ∀ s rest l, I (s :: rest) l →
    (loadPage phys map s.seg s.index l).Yields (fun l => I rest l ∨ J l) Q)

section Pages

include hJpage hpage

theorem loadPages_yields (seg : Segment) (rest : List SegPage) (n j : ℕ) (l : Loader)
    (h : I ((List.range' j n).map (SegPage.mk seg) ++ rest) l) :
    (loadPages phys map seg n j l).Yields (fun l => I rest l ∨ J l) Q := by
  induction n generalizing j l with
  | zero => exact .inl h
  | succ n ih =>
      rw [List.range'_succ, List.map_cons, List.cons_append] at h
      refine (hpage _ _ _ h).andThen ?_
      rintro l' (h' | h')
      · exact ih (j + 1) l' h'
      · exact (loadPages_keeps hJpage seg n (j + 1) l' h').imp (fun _ h => .inr h) (fun _ _ h => h)

end Pages

variable {buf : ℕ → UInt8} {size limit : ℕ} {l : Loader}
  (hbuf : ∀ rest l, I rest l → ∀ k < limit, byteAt l.machine.mem phys k = buf k)
  (hfield : ∀ rest l offset n, I rest l →
    (offset.toNat + n ≤ size ∨ offset = 56#64 ∧ n = 2) → I rest (l.field phys offset n).2)
  (hsize : size ≤ limit) (hword : size < 2 ^ 64)

section Segments

include hbuf hfield hsize hword

theorem readSegment_spec {h : Word} (hin : h.toNat + 56 ≤ size) {rest : List SegPage}
    (hload : field buf h.toNat 4 = 1#64) (hI : I rest l) :
    segmentAt buf h.toNat = some (readSegment phys h l).1 ∧ I rest (readSegment phys h l).2 := by
  have hoffset : ∀ k ≤ 48, (h + BitVec.ofNat 64 k).toNat = h.toNat + k := by
    intro k hk
    exact toNat_add_ofNat (by omega)
  have h16 := hoffset 16 (by decide)
  have h40 := hoffset 40 (by decide)
  have h32 := hoffset 32 (by decide)
  have h8 := hoffset 8 (by decide)
  have hv := field_fst (hbuf _ _ hI) (h + 16#64) 8 (by omega)
  have hI₁ := hfield _ _ (h + 16#64) 8 hI (.inl (by omega))
  have hm := field_fst (hbuf _ _ hI₁) (h + 40#64) 8 (by omega)
  have hI₂ := hfield _ _ (h + 40#64) 8 hI₁ (.inl (by omega))
  have hf := field_fst (hbuf _ _ hI₂) (h + 32#64) 8 (by omega)
  have hI₃ := hfield _ _ (h + 32#64) 8 hI₂ (.inl (by omega))
  have ho := field_fst (hbuf _ _ hI₃) (h + 8#64) 8 (by omega)
  refine ⟨?_, hfield _ _ (h + 8#64) 8 hI₃ (.inl (by omega))⟩
  simp only [segmentAt, readSegment, if_pos hload, hv, hm, hf, ho, h16, h40, h32, h8]

include hJpage hpage

theorem loadHeader_yields {h : Word} (hin : h.toNat + 56 ≤ size) (segs : List Segment)
    (hI : I (pagesOf ((segmentAt buf h.toNat).toList ++ segs)) l)
    (hrefused : ∀ l seg, segmentAt buf h.toNat = some seg → seg.allowed = false → I [] l →
      Q .kernelSegment l) :
    (loadHeader phys map h l).Yields
      (fun l => (∀ seg, segmentAt buf h.toNat = some seg → seg.allowed = true) ∧
        I (pagesOf segs) l ∨ J l) Q := by
  have htype := field_fst (hbuf _ _ hI) h 4 (by omega)
  have hI₀ := hfield _ _ h 4 hI (.inl (by omega))
  simp only [loadHeader]
  rw [htype]
  by_cases hload : field buf h.toNat 4 = 1#64
  · rw [if_pos hload]
    obtain ⟨hseg, hI₁⟩ := readSegment_spec hbuf hfield hsize hword hin hload hI₀
    generalize readSegment phys h (l.field phys h 4).2 = r at hseg hI₁ ⊢
    obtain ⟨seg, l'⟩ := r
    rw [hseg, Option.toList_some, List.singleton_append] at hI₁
    by_cases hallow : seg.allowed = true
    · have hnot : ¬ userLimit ≤ seg.vaddr := by
        rw [Segment.allowed, decide_eq_true_eq] at hallow
        exact BitVec.not_le.mpr hallow
      rw [if_neg hnot]
      rw [pagesOf_allowed hallow, Segment.pages, List.range_eq_range'] at hI₁
      have hpages := loadPages_yields hJpage hpage seg _ _ 0 l' hI₁
      refine hpages.imp (fun l'' h => h.imp_left fun hI₂ => ⟨?_, hI₂⟩) (fun _ _ hQ => hQ)
      intro seg' hseg'
      rw [hseg] at hseg'
      rwa [← Option.some_inj.mp hseg']
    · have hallow : seg.allowed = false := by simpa using hallow
      have hlimit : userLimit ≤ seg.vaddr := by
        rw [Segment.allowed, decide_eq_false_iff_not] at hallow
        exact BitVec.not_lt.mp hallow
      rw [if_pos hlimit]
      rw [pagesOf_refused hallow] at hI₁
      exact hrefused l' seg hseg hallow hI₁
  · rw [if_neg hload]
    have hnone : segmentAt buf h.toNat = none := if_neg hload
    rw [hnone] at hI₀
    refine .inl ⟨?_, hI₀⟩
    rw [hnone]
    rintro seg ⟨⟩

end Segments

/-- The segments of the headers from the given one on. -/
def segmentsFrom (buf : ℕ → UInt8) (i : ℕ) : List Segment :=
  (List.range' i ((phnum buf).toNat - i)).filterMap fun i =>
    segmentAt buf ((phoff buf).toNat + 56 * i)

theorem segmentsFrom_zero (buf : ℕ → UInt8) : segmentsFrom buf 0 = segments buf := by
  rw [segmentsFrom, segments, Nat.sub_zero, List.range_eq_range']

theorem segmentsFrom_ge {i : ℕ} (hi : (phnum buf).toNat ≤ i) : segmentsFrom buf i = [] := by
  rw [segmentsFrom, Nat.sub_eq_zero_of_le hi]
  rfl

theorem segmentsFrom_lt {i : ℕ} (hi : i < (phnum buf).toNat) :
    segmentsFrom buf i =
      (segmentAt buf ((phoff buf).toNat + 56 * i)).toList ++ segmentsFrom buf (i + 1) := by
  have hcount : (phnum buf).toNat - i = (phnum buf).toNat - (i + 1) + 1 := by omega
  rw [segmentsFrom, hcount, List.range'_succ, List.filterMap_cons, segmentsFrom]
  cases segmentAt buf ((phoff buf).toNat + 56 * i) with
  | none => rfl
  | some seg => rfl

variable (hlimit : 58 ≤ limit) (htable : (phoff buf).toNat + 56 * (phnum buf).toNat ≤ size)
  (hJfield : ∀ l offset n, J l → J (l.field phys offset n).2)
  (hJstop : ∀ l, J l → Q .kernelSegment l)
  (hrefused : ∀ l, refused (segments buf) = true → I [] l → Q .kernelSegment l)

include hbuf hfield hsize hword hpage hlimit htable hJpage hJfield hJstop hrefused

/-- The loop over the program headers follows the plan. -/
theorem loadHeaders_yields (hI : I (pagesOf (segments buf)) l) :
    (loadHeaders phys map (phoff buf) 65536 0 l).Yields
      (fun l => refused (segments buf) = false ∧ I [] l ∨ J l) Q := by
  have hloop : ∀ n i l, (phnum buf).toNat < i + n →
      refused (segmentsFrom buf i) = refused (segments buf) → I (pagesOf (segmentsFrom buf i)) l →
      (loadHeaders phys map (phoff buf) n i l).Yields
        (fun l => refused (segments buf) = false ∧ I [] l ∨ J l) Q := by
    intro n
    induction n with
    | zero =>
        intro i l hn hrest hI
        rw [segmentsFrom_ge (by omega)] at hrest hI
        exact .inl ⟨hrest.symm, hI⟩
    | succ n ih =>
        intro i l hn hrest hI
        have hphnum : (l.field phys 56#64 2).1 = phnum buf :=
          field_fst (hbuf _ _ hI) 56#64 2 hlimit
        have hI₀ := hfield _ _ 56#64 2 hI (.inr ⟨rfl, rfl⟩)
        simp only [loadHeaders]
        rw [hphnum]
        by_cases hi : i < (phnum buf).toNat
        · rw [if_pos hi]
          have haddr : (phoff buf + BitVec.ofNat 64 i * 56#64).toNat =
              (phoff buf).toNat + 56 * i := by
            rw [BitVec.toNat_add, BitVec.toNat_mul, BitVec.toNat_ofNat, BitVec.toNat_ofNat]
            omega
          rw [segmentsFrom_lt hi, ← haddr] at hI₀ hrest
          refine (loadHeader_yields hJpage hpage hbuf hfield hsize hword (by omega) _ hI₀
            ?_).andThen ?_
          · intro l' seg hseg hallow hI'
            refine hrefused l' ?_ hI'
            rw [← hrest, hseg]
            simp [refused, hallow]
          · rintro l' (⟨hallow, hI'⟩ | hJ')
            · refine ih (i + 1) l' (by omega) ?_ hI'
              rw [← hrest]
              cases hseg : segmentAt buf (phoff buf + BitVec.ofNat 64 i * 56#64).toNat with
              | none => rfl
              | some seg => simp [refused, hallow seg hseg]
            · exact (loadHeaders_keeps hJfield hJpage hJstop _ _ _ l' hJ').imp
                (fun _ h => .inr h) (fun _ _ h => h)
        · rw [if_neg hi]
          rw [segmentsFrom_ge (by omega)] at hrest hI₀
          exact .inl ⟨hrest.symm, hI₀⟩
  have hphnum : (phnum buf).toNat < 2 ^ (8 * 2) := leField_lt _ (by decide)
  exact hloop 65536 0 l (by omega) (by rw [segmentsFrom_zero]) (by rwa [segmentsFrom_zero])

end Rule

end LispDos.Process
