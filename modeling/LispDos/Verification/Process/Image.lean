import LispDos.Verification.Memory.UserAccess
import LispDos.Verification.Process.Completion

/-! # The image of a program

What a program sees on entry to user mode: the contents of its segments, zeros around
them, the arguments at the end of the stack page, and nothing else. -/

namespace LispDos.Process

open Memory Foundation

variable {fs : Files} {filename file : List UInt8} {m m' : Machine} {args : Option (List UInt8)}
  {c : Context} {l : Loader} {pages S pages' S' : List ℕ} {n : ℕ} {v : Word}

/-! ## Bytes of the file -/

theorem SegPage.byte_congr {s : SegPage} {buf buf' : ℕ → UInt8} {size : ℕ}
    (hin : s.within size) (h : ∀ k < size, buf k = buf' k) (i : ℕ) : s.byte buf i = s.byte buf' i := by
  cases hcopy : s.copy with
  | none => rw [SegPage.byte_none hcopy, SegPage.byte_none hcopy]
  | some x =>
      obtain ⟨start, src, n⟩ := x
      rw [SegPage.byte_some hcopy, SegPage.byte_some hcopy]
      by_cases hi : start.toNat ≤ i ∧ i < start.toNat + n.toNat
      · have hle := hin start src n hcopy
        rw [if_pos hi, if_pos hi, h _ (by omega)]
      · rw [if_neg hi, if_neg hi]

/-- The byte that the pages of a file leave at an address. -/
def planByte (file : List UInt8) (a : ℕ) : Option UInt8 :=
  (lastWith (filePlan file) (a / 4096)).map fun s => s.byte (fileByte file) (a % 4096)

section Stacked

variable (hfile : RegularElf file) (hdone : Completes fs filename file args m c l pages S)
  (hstacked : Stacked c.machine l.machine m' c.root pages' S' (filePlan file) args n)

include hfile hdone

theorem Completes.loadByte_eq {x : ℕ} {s : SegPage} (hv : v.toNat < 2 ^ 47)
    (hx : descend codeNext l.machine.mem c.root (indices v) = some x)
    (hs : lastWith (filePlan file) (v.toNat / 4096) = some s) {i : ℕ} (hi : i < 4096) :
    loadByte l.machine.mem (x * 4096 + i) = s.byte (fileByte file) i := by
  have hsize := hdone.holds.size
  have hlt : file.length < 2 ^ 32 := by
    rw [← hsize]
    exact hdone.accepted.size_lt
  have hle := hdone.accepted.size_le
  have hlimit : ∀ s ∈ c.reached, s.within c.limit := by
    rw [hdone.reached]
    intro s' hs' start src size hcopy
    have hwithin := hfile.within hs' hlt start src size hcopy
    omega
  have hbytes := hdone.holds.bytes
  rw [hsize] at hbytes
  rw [← hdone.reached] at hs
  rw [hdone.progress.holds hlimit v x s hv hx hs i hi]
  refine SegPage.byte_congr (hfile.within ?_ hlt) hbytes i
  rw [← hdone.reached]
  exact (mem_of_lastWith hs).1

include hstacked

/-- What user mode reads. Only the stack page holds bytes that are not of the file. -/
theorem Completes.userByte_eq (hv : v.toNat < 2 ^ 47) : userByte m'.mem c.root v =
    if v.toNat / 4096 = stackPage.number then
      some (stackByte args (fun k => loadByte c.machine.mem (n * 4096 + k)) (v.toNat % 4096))
    else planByte file v.toNat := by
  have hmod : v.toNat % 4096 < 4096 := Nat.mod_lt _ (by decide)
  rw [hstacked.placed.half.userByte_eq hv]
  by_cases hstack : v.toNat / 4096 = stackPage.number
  · have hindices : indices v = indices userStack := by
      rw [← stackPage_vaddr]
      exact (indices_eq_iff hv stackPage_low).mpr hstack
    rw [if_pos hstack, hindices, hstacked.leaf, Option.map_some, hstacked.bytes _ hmod]
  · obtain ⟨hsame, hmem⟩ := hstacked.others v hv hstack
    have hleaf := hdone.progress.leaves v hv
    rw [hdone.reached] at hleaf
    rw [if_neg hstack, hsame, planByte]
    cases hx : descend codeNext l.machine.mem c.root (indices v) with
    | none =>
        have hnone : lastWith (filePlan file) (v.toNat / 4096) = none := by
          cases hlast : lastWith (filePlan file) (v.toNat / 4096) with
          | none => rfl
          | some s =>
              obtain ⟨hs, hnumber⟩ := mem_of_lastWith hlast
              rw [hx] at hleaf
              exact absurd (hleaf.mpr (List.mem_map.mpr ⟨s, hs, hnumber⟩)) (by simp)
        rw [hnone, Option.map_none, Option.map_none]
    | some x =>
        have hmapped : v.toNat / 4096 ∈ (filePlan file).map SegPage.number := by
          rw [← hleaf, hx]
          rfl
        obtain ⟨s, hs⟩ := exists_lastWith hmapped
        rw [hs, Option.map_some, Option.map_some,
          loadByte_congr (hmem x hx) (show (x * 4096 + v.toNat % 4096) / 4096 = x by omega),
          hdone.loadByte_eq hfile hv hx hs hmod]

end Stacked

/-! ## Segments without common pages -/

/-- No page belongs to two segments, and none is the stack page. -/
structure Apart (segs : List Segment) : Prop where
  disjoint : segs.Pairwise fun a b => ∀ p, ¬ (a.Occupies p ∧ b.Occupies p)
  stack : ∀ seg ∈ segs, ¬ seg.Occupies stackPage.number

/-- A byte of a page in the plan is that of its segment. -/
theorem RegularElf.byte_eq (hfile : RegularElf file) (hlt : file.length < 2 ^ 32) {s : SegPage}
    (hs : s ∈ filePlan file) {a : ℕ} (hnumber : s.number = a / 4096) :
    s.byte (fileByte file) (a % 4096) = s.seg.contentsAt (fileByte file) a := by
  obtain ⟨hseg, hj⟩ := hfile.mem_plan_iff.mp hs
  have hregular := hfile.regular s.seg hseg
  have hindex : s.number = s.seg.vaddr.toNat / 4096 + s.index := hregular.number_eq hj
  have haddr : (s.seg.vaddr.toNat / 4096 + s.index) * 4096 + a % 4096 = a := by omega
  have hbyte : s.byte (fileByte file) (a % 4096) = s.seg.contentsAt (fileByte file)
      ((s.seg.vaddr.toNat / 4096 + s.index) * 4096 + a % 4096) :=
    hregular.byte_eq hj hlt (Nat.mod_lt a (by decide))
  rwa [haddr] at hbyte

section Apart

variable {seg : Segment} (hfile : RegularElf file) (hapart : Apart (segments (fileByte file)))
  (hseg : seg ∈ segments (fileByte file))

include hfile hapart hseg

/-- In a page of a segment there is nothing but the segment. -/
theorem Apart.planByte_eq (hlt : file.length < 2 ^ 32) {a : ℕ} (h : seg.Occupies (a / 4096)) :
    planByte file a = some (seg.contentsAt (fileByte file) a) := by
  have hregular := hfile.regular seg hseg
  obtain ⟨j, hj, hpage⟩ := hregular.occupies_iff.mp h
  have hmem : a / 4096 ∈ (filePlan file).map SegPage.number := by
    refine List.mem_map.mpr ⟨⟨seg, j⟩, hfile.mem_plan_iff.mpr ⟨hseg, hj⟩, ?_⟩
    rw [hregular.number_eq hj, hpage]
  obtain ⟨s, hs⟩ := exists_lastWith hmem
  obtain ⟨hplan, hnumber⟩ := mem_of_lastWith hs
  obtain ⟨hseg', hj'⟩ := hfile.mem_plan_iff.mp hplan
  have hregular' := hfile.regular s.seg hseg'
  have hnumber' : s.number = s.seg.vaddr.toNat / 4096 + s.index := hregular'.number_eq hj'
  have hsame : s.seg = seg := by
    by_contra hne
    have hsymm : Std.Symm fun a b : Segment => ∀ p, ¬ (a.Occupies p ∧ b.Occupies p) :=
      ⟨fun _ _ hab p hboth => hab p ⟨hboth.2, hboth.1⟩⟩
    exact hapart.disjoint.forall hseg' hseg hne (a / 4096)
      ⟨hregular'.occupies_iff.mpr ⟨s.index, hj', by omega⟩, h⟩
  rw [planByte, hs, Option.map_some, hfile.byte_eq hlt hplan hnumber, hsame]

end Apart

/-! ## The image -/

/-- The address space of a program on entry, with its stack pointer. -/
structure ImageOf (file : List UInt8) (args : Option (List UInt8)) (mem : PhysMem) (root : ℕ)
    (stack : Word) : Prop where
  contents : ∀ seg ∈ segments (fileByte file), ∀ k < seg.memsz.toNat,
    userByte mem root (seg.vaddr + BitVec.ofNat 64 k) =
      some (if k < seg.filesz.toNat then fileByte file (seg.offset.toNat + k) else 0)
  padding : ∀ seg ∈ segments (fileByte file), ∀ v : Word, seg.Occupies (v.toNat / 4096) →
    ¬ (seg.vaddr.toNat ≤ v.toNat ∧ v.toNat < seg.vaddr.toNat + seg.memsz.toNat) →
    userByte mem root v = some 0
  arguments : ∀ a ∈ args, stack + BitVec.ofNat 64 (a.length + 1) = userStack + 4096#64 ∧
    ∀ i ≤ a.length, userByte mem root (stack + BitVec.ofNat 64 i) = some ((a ++ [0]).getD i 0)
  others : ∀ v : Word, v.toNat < 2 ^ 47 → walk mem root v ≠ none →
    (∃ seg ∈ segments (fileByte file), seg.Occupies (v.toNat / 4096)) ∨
      v.toNat / 4096 = userStack.toNat / 4096

theorem stackPage_number : stackPage.number = userStack.toNat / 4096 := by
  rw [SegPage.number, stackPage_vaddr]

section Args

variable {a : List UInt8} (hlen : a.length < 4096)

include hlen

theorem stackPointer_toNat : (stackPointer (some a)).toNat = 0x700000001000 - (a.length + 1) := by
  have htop : (userStack + 4096#64).toNat = 0x700000001000 := by decide
  have hpointer : stackPointer (some a) = userStack + 4096#64 - BitVec.ofNat 64 (a.length + 1) := by
    rw [← argBytes_length]
    rfl
  have hle : BitVec.ofNat 64 (a.length + 1) ≤ userStack + 4096#64 := by
    rw [BitVec.le_def, htop, BitVec.toNat_ofNat]
    omega
  have hsub := BitVec.toNat_sub_of_le hle
  rw [htop, BitVec.toNat_ofNat, Nat.mod_eq_of_lt (by omega)] at hsub
  rw [hpointer, hsub]

theorem stackPointer_add_toNat {i : ℕ} (hi : i ≤ a.length + 1) :
    (stackPointer (some a) + BitVec.ofNat 64 i).toNat = 0x700000001000 - (a.length + 1) + i := by
  have hpointer := stackPointer_toNat hlen
  rw [toNat_add_ofNat (by omega), hpointer]

/-- The bytes of the arguments on the stack page. -/
theorem stackByte_args (old : ℕ → UInt8) (i : ℕ) :
    stackByte (some a) old (4096 - (a.length + 1) + i) = (a ++ [0]).getD i 0 := by
  have hbytes := argBytes_length a
  have hindex : 4096 - (a.length + 1) + i + (argBytes a).length - 4096 = i := by omega
  simp only [stackByte, Option.elim_some]
  rw [if_pos (by omega), hindex, argBytes]

end Args

section Image

variable (hfile : RegularElf file) (hapart : Apart (segments (fileByte file))) (hargs : ArgsFit args)
  (hdone : Completes fs filename file args m c l pages S)
  (hstacked : Stacked c.machine l.machine m' c.root pages' S' (filePlan file) args n)

include hfile hdone hstacked

theorem Completes.arguments (hargs : ArgsFit args) {a : List UInt8} (ha : args = some a) :
    stackPointer args + BitVec.ofNat 64 (a.length + 1) = userStack + 4096#64 ∧
      ∀ i ≤ a.length, userByte m'.mem c.root (stackPointer args + BitVec.ofNat 64 i) =
        some ((a ++ [0]).getD i 0) := by
  have hlen := hargs a ha
  subst ha
  constructor
  · apply BitVec.eq_of_toNat_eq
    have htop : (userStack + 4096#64).toNat = 0x700000001000 := by decide
    rw [stackPointer_add_toNat hlen le_rfl, htop]
    omega
  · intro i hi
    have hnumber : stackPage.number = 0x700000000 := by decide
    have haddr := stackPointer_add_toNat hlen (show i ≤ a.length + 1 by omega)
    rw [hdone.userByte_eq hfile hstacked (by omega), if_pos (by omega)]
    have hoffset : (stackPointer (some a) + BitVec.ofNat 64 i).toNat % 4096 =
        4096 - (a.length + 1) + i := by omega
    rw [hoffset, stackByte_args hlen]

include hapart hargs

theorem Completes.image : ImageOf file args m'.mem c.root (stackPointer args) := by
  have hlt : file.length < 2 ^ 32 := by
    rw [← hdone.holds.size]
    exact hdone.accepted.size_lt
  -- a page of a segment holds the contents of the segment
  have hpage : ∀ seg ∈ segments (fileByte file), ∀ v : Word, seg.Occupies (v.toNat / 4096) →
      userByte m'.mem c.root v = some (seg.contentsAt (fileByte file) v.toNat) := by
    intro seg hseg v hocc
    have hlow := (hfile.regular seg hseg).low
    have hend := hocc.2
    have hstack : v.toNat / 4096 ≠ stackPage.number := by
      intro heq
      rw [heq] at hocc
      exact hapart.stack seg hseg hocc
    rw [hdone.userByte_eq hfile hstacked (by omega), if_neg hstack,
      hapart.planByte_eq hfile hseg hlt hocc]
  refine ⟨?_, ?_, ?_, ?_⟩
  · intro seg hseg k hk
    have hregular := hfile.regular seg hseg
    have hlow := hregular.low
    have haddr : (seg.vaddr + BitVec.ofNat 64 k).toNat = seg.vaddr.toNat + k :=
      toNat_add_ofNat (by omega)
    rw [hpage seg hseg _ (by rw [Segment.Occupies, haddr]; omega), haddr, Segment.contentsAt]
    by_cases hin : k < seg.filesz.toNat
    · rw [if_pos (by omega), if_pos hin, Nat.add_sub_cancel_left]
    · rw [if_neg (by omega), if_neg hin]
  · intro seg hseg v hocc hout
    have hcontents := (hfile.regular seg hseg).contents
    rw [hpage seg hseg v hocc, Segment.contentsAt, if_neg (by omega)]
  · intro a ha
    exact hdone.arguments hfile hstacked hargs ha
  · intro v hv hwalk
    rw [hstacked.placed.half.walk_eq hv] at hwalk
    have hsome : (descend codeNext m'.mem c.root (indices v)).isSome = true := by
      rw [Option.isSome_iff_ne_none]
      intro hnone
      rw [hnone, Option.map_none] at hwalk
      exact hwalk rfl
    have hmem := (hstacked.placed.leaves v hv).mp hsome
    rw [List.map_append, List.mem_append] at hmem
    rcases hmem with hmem | hmem
    · obtain ⟨s, hs, hnumber⟩ := List.mem_map.mp hmem
      obtain ⟨hseg, hj⟩ := hfile.mem_plan_iff.mp hs
      have hregular := hfile.regular s.seg hseg
      refine .inl ⟨s.seg, hseg, hregular.occupies_iff.mpr ⟨s.index, hj, ?_⟩⟩
      rw [← hnumber]
      exact hregular.number_eq hj
    · right
      rw [← stackPage_number]
      simpa using hmem

end Image

/-- A call that no allocation fails in enters user mode at the entry point of the file, with
all pages of the file and the stack page mapped. -/
theorem RegularElf.enters (hfile : RegularElf file) (hdelivers : Delivers fs filename file)
    (hzero : bitmapTest m.pmm.bitmap 0 = true) (hargs : ArgsFit args)
    (hallocs : NoAllocFails (processExec fs filename args m)) :
    ∃ c l pages S m' pages' S' n, Completes fs filename file args m c l pages S ∧
      Stacked c.machine l.machine m' c.root pages' S' (filePlan file) args n ∧
      processExec fs filename args m =
        (.entered c.map (entryPoint (fileByte file)) (stackPointer args),
          ⟨freeFile c.phys (filePages c.size) m', stackLog l c.map ++ [.field 24#64 8]⟩) := by
  obtain ⟨c, l, pages, S, hdone⟩ := hfile.completes hdelivers hzero (.inr hallocs)
  have hcase := hdone.enter_case hargs
  generalize processExec fs filename args m = r at hallocs hcase
  cases hcase with
  | full hfull => exact (hallocs.exit.2.2.2 rfl).elim
  | starved m' pages' S' hpos hzero' hshort hstarved n hmisplaced =>
      refine (hallocs.tables l.machine.allocPage.2 c.map userStack ?_ _ hzero' rfl).elim
      simp [jump, stackLog]
  | stacked m' pages' S' n htables hroom hstacked =>
      refine ⟨c, l, pages, S, m', pages', S', n, hdone, hstacked, ?_⟩
      have hbuf := hdone.accepted.buffer.bytes_of_frame hstacked.placed.half.guarded.frame
      have hlimit := hdone.accepted.limit_pos
      have hentry : loadField m'.mem (c.phys + 24#64) 8 = entryPoint (fileByte file) := by
        rw [entryPoint, ← field_congr hdone.holds.bytes 24 8
          (le_trans (by decide) (hdone.holds.size ▸ hfile.long))]
        exact field_fst (l := ⟨m', []⟩) hbuf 24#64 8 (le_trans (by decide) hlimit)
      rw [jump, hentry]

/-- A program with one segment, whose contents are the first four bytes of the file. -/
def smallFile : List UInt8 := elfFile 0x400010 [⟨0x400010#64, 0x20#64, 4#64, 0#64⟩]

theorem smallFile_delivers : Delivers (sampleFiles smallFile) [0x61] smallFile :=
  sample_delivers (by decide +kernel) (by decide +kernel) (by decide +kernel)

theorem smallFile_segments :
    segments (fileByte smallFile) = [⟨0x400010#64, 0x20#64, 4#64, 0#64⟩] := by decide +kernel

theorem smallFile_accepted : HeaderAccepted (fileByte smallFile) smallFile.length :=
  ⟨by decide +kernel, by decide +kernel, by decide +kernel, by decide +kernel⟩

theorem smallFile_regular : RegularElf smallFile := by
  refine ⟨by decide +kernel, smallFile_accepted, ?_⟩
  rw [smallFile_segments]
  simp only [List.mem_singleton, forall_eq]
  exact ⟨by decide, by decide, by decide, by decide +kernel⟩

theorem smallFile_apart : Apart (segments (fileByte smallFile)) := by
  rw [smallFile_segments]
  refine ⟨List.pairwise_singleton .., ?_⟩
  simp only [List.mem_singleton, forall_eq, Segment.Occupies]
  decide

end LispDos.Process
