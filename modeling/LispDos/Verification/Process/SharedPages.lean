import LispDos.Verification.Process.Cleanup
import LispDos.Verification.Process.Image

/-! # Segments that share a page

Every segment gets pages of its own, and so does the stack. Where two of them fall into the
same page, the one that is mapped last replaces the other. -/

namespace LispDos.Process

open Memory Foundation

variable {fs : Files} {filename file : List UInt8} {m m' m₁ : Machine} {args : Option (List UInt8)}
  {c : Context} {l : Loader} {pages S pages' S' : List ℕ} {i n p x : ℕ} {seg : Segment}
  {segs pre post : List Segment}

/-! ## The numbers of the pages -/

/-- The numbers of the pages of a segment. -/
def Segment.numbers (seg : Segment) : List ℕ := seg.pages.map SegPage.number

section Numbers

variable {size : ℕ} (h : seg.Regular size)

include h

theorem Segment.Regular.mem_numbers : p ∈ seg.numbers ↔ seg.Occupies p := by
  rw [h.occupies_iff, Segment.numbers, Segment.pages, List.map_map, List.mem_map]
  constructor
  · rintro ⟨j, hj, rfl⟩
    have hj := List.mem_range.mp hj
    exact ⟨j, hj, h.number_eq hj⟩
  · rintro ⟨j, hj, rfl⟩
    exact ⟨j, List.mem_range.mpr hj, h.number_eq hj⟩

theorem Segment.Regular.nodup_numbers : seg.numbers.Nodup := by
  rw [Segment.numbers, Segment.pages, List.map_map]
  refine List.nodup_range.map_on ?_
  intro j hj k hk heq
  have hj := h.number_eq (List.mem_range.mp hj)
  have hk := h.number_eq (List.mem_range.mp hk)
  simp only [Function.comp_apply] at heq
  omega

end Numbers

section Plan

variable (hfile : RegularElf file)

include hfile

theorem RegularElf.plan_numbers :
    (filePlan file).map SegPage.number = (segments (fileByte file)).flatMap Segment.numbers := by
  rw [hfile.plan_eq, List.map_flatMap]
  rfl

/-- No page is mapped twice exactly if the segments and the stack lie in different pages. -/
theorem RegularElf.nodup_iff_apart :
    ((filePlan file ++ [stackPage]).map SegPage.number).Nodup ↔
      Apart (segments (fileByte file)) := by
  have hmem : ∀ seg ∈ segments (fileByte file), ∀ p, p ∈ seg.numbers ↔ seg.Occupies p :=
    fun seg hseg p => (hfile.regular seg hseg).mem_numbers
  rw [List.map_append, List.map_singleton, ← List.concat_eq_append, List.nodup_concat,
    hfile.plan_numbers, List.nodup_flatMap]
  constructor
  · rintro ⟨hstack, _, hdisjoint⟩
    refine ⟨?_, ?_⟩
    · refine hdisjoint.imp_of_mem ?_
      intro a b ha hb hab p hboth
      exact hab ((hmem a ha p).mpr hboth.1) ((hmem b hb p).mpr hboth.2)
    · intro seg hseg hocc
      exact hstack (List.mem_flatMap.mpr ⟨seg, hseg, (hmem seg hseg _).mpr hocc⟩)
  · rintro ⟨hdisjoint, hstack⟩
    refine ⟨?_, fun seg hseg => (hfile.regular seg hseg).nodup_numbers, ?_⟩
    · intro hin
      obtain ⟨seg, hseg, hnumber⟩ := List.mem_flatMap.mp hin
      exact hstack seg hseg ((hmem seg hseg _).mp hnumber)
    · refine hdisjoint.imp_of_mem ?_
      intro a b ha hb hab p hpa hpb
      exact hab p ⟨(hmem a ha p).mp hpa, (hmem b hb p).mp hpb⟩

end Plan

/-! ## The pages of a call -/

/-- The bits after the file buffer has been freed. -/
theorem freeFile_test (hn : i + n ≤ 2 ^ 40) (m : Machine) (x : ℕ) :
    bitmapTest (freeFile (pageAddr i) n m).pmm.bitmap x =
      (!decide (x ∈ List.range' i n) && bitmapTest m.pmm.bitmap x) := by
  have hpages : ((List.range' i n).map pageAddr).map (fun w => w.toNat / 4096) =
      List.range' i n := by
    rw [List.map_map]
    refine (List.map_congr_left ?_).trans (List.map_id _)
    intro j hj
    have hj := List.mem_range'_1.mp hj
    exact pageAddr_div (by omega)
  rw [freeFile_eq i n hn, foldl_freePage_test, hpages]

/-- The pages that a call has allocated and not freed are those of the address space. -/
theorem Fetched.allocated_iff {phys : Word} {size : ℕ} (h : Fetched m m₁ phys size i)
    (took : Took m₁.pmm m'.pmm pages) :
    bitmapTest m.pmm.bitmap x = false ∧
      bitmapTest (freeFile phys (filePages size) m').pmm.bitmap x = true ↔ x ∈ pages := by
  have hboth := h.took.trans took
  rw [h.addr, freeFile_test h.bound, hboth.bits]
  constructor
  · rintro ⟨hclear, hset⟩
    rw [hclear, Bool.or_false, Bool.and_eq_true, decide_eq_true_eq, Bool.not_eq_true',
      decide_eq_false_iff_not] at hset
    exact (List.mem_append.mp hset.2).resolve_left hset.1
  · intro hx
    have hbuffer : x ∉ List.range' i (filePages size) :=
      fun hin => (List.disjoint_of_nodup_append hboth.nodup) hin hx
    refine ⟨hboth.clear x (List.mem_append_right _ hx), ?_⟩
    rw [decide_eq_false hbuffer, decide_eq_true (List.mem_append_right _ hx)]
    rfl

/-- The segments are loaded with one physical page for each of their pages and for that of
the stack: their bytes are there, these pages and no others are mapped, and every page that
the call has allocated is at one place of the address space, as a table or as one of these
pages. -/
structure LoadedOnce (file : List UInt8) (m m' : Machine) (root : ℕ) : Prop where
  bytes : ∀ seg ∈ segments (fileByte file), ∀ k < seg.filesz.toNat,
    userByte m'.mem root (seg.vaddr + BitVec.ofNat 64 k) =
      some (fileByte file (seg.offset.toNat + k))
  mapped : ∀ v : Word, v.toNat < 2 ^ 47 → (walk m'.mem root v ≠ none ↔
    (∃ seg ∈ segments (fileByte file), seg.Occupies (v.toNat / 4096)) ∨
      v.toNat / 4096 = userStack.toNat / 4096)
  once : ∀ x, bitmapTest m.pmm.bitmap x = false → bitmapTest m'.pmm.bitmap x = true →
    ∃! q, LowerPath 4 q ∧ descend codeNext m'.mem root q = some x

section Loaded

variable (hfile : RegularElf file) (hdone : Completes fs filename file args m c l pages S)
  (hstacked : Stacked c.machine l.machine m' c.root pages' S' (filePlan file) args n)

include hfile hdone hstacked

omit hdone in
theorem Stacked.mapped_iff {v : Word} (hv : v.toNat < 2 ^ 47) : walk m'.mem c.root v ≠ none ↔
    (∃ seg ∈ segments (fileByte file), seg.Occupies (v.toNat / 4096)) ∨
      v.toNat / 4096 = userStack.toNat / 4096 := by
  have hleaf := hstacked.placed.leaves v hv
  rw [List.map_append, List.map_singleton, List.mem_append, List.mem_singleton, hfile.plan_numbers,
    List.mem_flatMap, stackPage_number] at hleaf
  rw [hstacked.placed.half.walk_eq hv, Ne, Option.map_eq_none_iff, ← Ne,
    ← Option.isSome_iff_ne_none, hleaf]
  refine or_congr_left (exists_congr fun seg => and_congr_right fun hseg => ?_)
  exact (hfile.regular seg hseg).mem_numbers

/-- No page of the call is lost exactly if none is mapped twice. -/
theorem Completes.once_iff : (∀ x, bitmapTest m.pmm.bitmap x = false →
    bitmapTest (freeFile c.phys (filePages c.size) m').pmm.bitmap x = true →
      ∃! q, LowerPath 4 q ∧ descend codeNext m'.mem c.root q = some x) ↔
    Apart (segments (fileByte file)) := by
  obtain ⟨i, hfetched⟩ := hdone.holds.fetched
  have hhalf := hstacked.placed.half
  have hallocated := fun {x : ℕ} => hfetched.allocated_iff (x := x) hhalf.took
  rw [← hfile.nodup_iff_apart, ← hstacked.placed.leaks]
  constructor
  · intro honce x hx
    obtain ⟨hclear, hset⟩ := hallocated.mpr hx
    obtain ⟨q, hq, _⟩ := honce x hclear hset
    exact (hhalf.tree.reach x).mp ⟨q, hq⟩
  · intro hall x hclear hset
    obtain ⟨q, hq, hx⟩ := (hhalf.tree.reach x).mpr (hall x (hallocated.mp ⟨hclear, hset⟩))
    refine ⟨q, ⟨hq, hx⟩, ?_⟩
    rintro r ⟨hr, hrx⟩
    exact hhalf.tree.unshared r q x hr hq hrx hx

theorem Completes.loadedOnce_iff (hargs : ArgsFit args) :
    LoadedOnce file m (freeFile c.phys (filePages c.size) m') c.root ↔
      Apart (segments (fileByte file)) := by
  have honce := hdone.once_iff hfile hstacked
  have hmem := freeFile_mem c.phys (filePages c.size) m'
  constructor
  · intro h
    refine honce.mp ?_
    have := h.once
    rwa [hmem] at this
  · intro hapart
    have himage := hdone.image hfile hapart hargs hstacked
    refine ⟨?_, ?_, ?_⟩
    · intro seg hseg k hk
      have hcontents := (hfile.regular seg hseg).contents
      rw [hmem, himage.contents seg hseg k (by omega), if_pos hk]
    · intro v hv
      rw [hmem]
      exact hstacked.mapped_iff hfile hv
    · rw [hmem]
      exact honce.mpr hapart

end Loaded

/-! ## The bytes of a shared page -/

def Segment.Covers (seg : Segment) (a : ℕ) : Prop :=
  seg.vaddr.toNat ≤ a ∧ a < seg.vaddr.toNat + seg.memsz.toNat

/-- No address belongs to two segments. -/
def DisjointRanges (segs : List Segment) : Prop :=
  segs.Pairwise fun a b => ∀ x, ¬ (a.Covers x ∧ b.Covers x)

theorem lastWith_append (done done' : List SegPage) (p : ℕ) :
    lastWith (done ++ done') p = (lastWith done' p).or (lastWith done p) := by
  rw [lastWith, List.reverse_append, List.find?_append]
  rfl

theorem lastWith_eq_none {done : List SegPage} (h : p ∉ done.map SegPage.number) :
    lastWith done p = none := by
  rw [lastWith, List.find?_eq_none]
  intro s hs
  rw [decide_eq_true_eq]
  exact fun hp => h (List.mem_map.mpr ⟨s, List.mem_reverse.mp hs, hp⟩)

section Shared

variable (hfile : RegularElf file) (hlt : file.length < 2 ^ 32)
  (hsplit : segments (fileByte file) = pre ++ seg :: post)

include hfile hsplit

/-- The page of a segment that is mapped last is one of the segment or of a later one. -/
theorem RegularElf.last_page (hocc : seg.Occupies p) :
    ∃ s, lastWith (filePlan file) p = some s ∧
      (s.seg ∈ post ∨ s.seg = seg ∧ ∀ seg' ∈ post, ¬ seg'.Occupies p) := by
  have hregular : ∀ seg' ∈ seg :: post, seg'.Regular file.length := by
    intro seg' hseg'
    refine hfile.regular seg' ?_
    rw [hsplit]
    exact List.mem_append_right _ hseg'
  have hplan : filePlan file = pre.flatMap Segment.pages ++ seg.pages ++
      post.flatMap Segment.pages := by
    rw [hfile.plan_eq, hsplit, List.flatMap_append, List.flatMap_cons, List.append_assoc]
  rw [hplan, lastWith_append, lastWith_append]
  by_cases hlater : ∃ seg' ∈ post, seg'.Occupies p
  · obtain ⟨seg', hseg', hocc'⟩ := hlater
    have hin : p ∈ (post.flatMap Segment.pages).map SegPage.number := by
      rw [List.map_flatMap]
      exact List.mem_flatMap.mpr ⟨seg', hseg',
        (hregular seg' (List.mem_cons_of_mem _ hseg')).mem_numbers.mpr hocc'⟩
    obtain ⟨s, hs⟩ := exists_lastWith hin
    obtain ⟨t, ht, hpage⟩ := List.mem_flatMap.mp (mem_of_lastWith hs).1
    obtain ⟨j, _, rfl⟩ := List.mem_map.mp hpage
    exact ⟨_, by rw [hs, Option.some_or], .inl ht⟩
  · have hnone : ∀ seg' ∈ post, ¬ seg'.Occupies p := fun seg' hseg' hocc' =>
      hlater ⟨seg', hseg', hocc'⟩
    have hout : p ∉ (post.flatMap Segment.pages).map SegPage.number := by
      rw [List.map_flatMap]
      intro hin
      obtain ⟨seg', hseg', hnumber⟩ := List.mem_flatMap.mp hin
      exact hnone seg' hseg'
        ((hregular seg' (List.mem_cons_of_mem _ hseg')).mem_numbers.mp hnumber)
    obtain ⟨s, hs⟩ := exists_lastWith ((hregular seg List.mem_cons_self).mem_numbers.mpr hocc)
    obtain ⟨j, _, rfl⟩ := List.mem_map.mp (mem_of_lastWith hs).1
    exact ⟨_, by rw [lastWith_eq_none hout, Option.none_or, hs, Option.some_or], .inr ⟨rfl, hnone⟩⟩

include hlt

/-- A byte of a segment is there unless a later segment has its page, which holds zero at the
address. -/
theorem RegularElf.planByte_iff (hdisjoint : DisjointRanges (segments (fileByte file))) {k : ℕ}
    (hk : k < seg.filesz.toNat) :
    planByte file (seg.vaddr.toNat + k) = some (fileByte file (seg.offset.toNat + k)) ↔
      fileByte file (seg.offset.toNat + k) = 0 ∨
        ∀ seg' ∈ post, ¬ seg'.Occupies ((seg.vaddr.toNat + k) / 4096) := by
  have hseg : seg ∈ segments (fileByte file) := by simp [hsplit]
  have hcontents := (hfile.regular seg hseg).contents
  have hcovers : seg.Covers (seg.vaddr.toNat + k) := ⟨by omega, by omega⟩
  have hocc : seg.Occupies ((seg.vaddr.toNat + k) / 4096) := by
    rw [Segment.Occupies]
    omega
  obtain ⟨s, hs, hcase⟩ := hfile.last_page hsplit hocc
  obtain ⟨hplan, hnumber⟩ := mem_of_lastWith hs
  rw [planByte, hs, Option.map_some, hfile.byte_eq hlt hplan hnumber, Option.some_inj]
  rcases hcase with hlater | ⟨hsame, hnone⟩
  · obtain ⟨hseg', hj⟩ := hfile.mem_plan_iff.mp hplan
    have hregular := hfile.regular s.seg hseg'
    have hocc' : s.seg.Occupies ((seg.vaddr.toNat + k) / 4096) :=
      hregular.occupies_iff.mpr ⟨s.index, hj, by rw [← hnumber]; exact hregular.number_eq hj⟩
    have hout : ¬ s.seg.Covers (seg.vaddr.toNat + k) := by
      intro hboth
      have hpair : (pre ++ seg :: post).Pairwise fun a b => ∀ x, ¬ (a.Covers x ∧ b.Covers x) := by
        rw [← hsplit]
        exact hdisjoint
      have hafter := (List.pairwise_cons.mp (List.pairwise_append.mp hpair).2.1).1
      exact hafter s.seg hlater _ ⟨hcovers, hboth⟩
    have hzero : s.seg.contentsAt (fileByte file) (seg.vaddr.toNat + k) = 0 := by
      have hfilesz := hregular.contents
      rw [Segment.contentsAt, if_neg]
      intro hin
      exact hout ⟨hin.1, by omega⟩
    rw [hzero, eq_comm, or_iff_left]
    exact fun hnone => hnone s.seg hlater hocc'
  · have hbyte : s.seg.contentsAt (fileByte file) (seg.vaddr.toNat + k) =
        fileByte file (seg.offset.toNat + k) := by
      rw [hsame, Segment.contentsAt, if_pos ⟨by omega, by omega⟩, Nat.add_sub_cancel_left]
    exact iff_of_true hbyte (.inr hnone)

end Shared

/-! ## Two segments on one page -/

/-- A program with two segments of four bytes on one page. -/
def commonPageFile : List UInt8 :=
  elfFile 0x400000 [⟨0x400000#64, 4#64, 4#64, 0#64⟩, ⟨0x400800#64, 4#64, 4#64, 0#64⟩]

theorem commonPageFile_delivers :
    Delivers (sampleFiles commonPageFile) [0x61] commonPageFile :=
  sample_delivers (by decide +kernel) (by decide +kernel) (by decide +kernel)

theorem commonPageFile_segments : segments (fileByte commonPageFile) =
    [⟨0x400000#64, 4#64, 4#64, 0#64⟩, ⟨0x400800#64, 4#64, 4#64, 0#64⟩] := by decide +kernel

theorem commonPageFile_accepted :
    HeaderAccepted (fileByte commonPageFile) commonPageFile.length :=
  ⟨by decide +kernel, by decide +kernel, by decide +kernel, by decide +kernel⟩

theorem commonPageFile_regular : RegularElf commonPageFile := by
  refine ⟨by decide +kernel, commonPageFile_accepted, ?_⟩
  rw [commonPageFile_segments]
  simp only [List.mem_cons, List.not_mem_nil, or_false, forall_eq_or_imp, forall_eq]
  exact ⟨⟨by decide, by decide, by decide, by decide +kernel⟩,
    ⟨by decide, by decide, by decide, by decide +kernel⟩⟩

theorem commonPageFile_disjoint : DisjointRanges (segments (fileByte commonPageFile)) := by
  rw [commonPageFile_segments]
  refine List.pairwise_pair.mpr ?_
  rintro x ⟨⟨_, ha⟩, ⟨hb, _⟩⟩
  have h₁ : (0x400000#64 : Word).toNat + (4#64 : Word).toNat = 0x400004 := by decide
  have h₂ : (0x400800#64 : Word).toNat = 0x400800 := by decide
  simp only at ha hb
  omega

theorem commonPageFile_shared : ¬ Apart (segments (fileByte commonPageFile)) := by
  rintro ⟨hpages, _⟩
  rw [commonPageFile_segments, List.pairwise_pair] at hpages
  exact hpages 0x400 ⟨by simp only [Segment.Occupies]; decide, by simp only [Segment.Occupies]; decide⟩

end LispDos.Process
