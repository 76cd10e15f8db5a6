import LispDos.Verification.Raw.Image

/-! # Shared pages beside the bitmap

With the pages of the bitmap in use, segments are loaded with one physical page for each of their
pages exactly if no two of them have a page in common. -/

namespace LispDos.Raw

open Foundation Memory Process

variable {r : Machine} {m' : Memory.Machine} {c : Context} {n : ℕ} {pages S pages' S' : List ℕ}
  {l : Process.Loader} {fs : Files} {filename file : List UInt8} {args : Option (List UInt8)}

/-- The segments are loaded with one physical page for each of their pages and for that of
the stack: their bytes are there, these pages and no others are mapped, and every page that
the call has allocated is at one place of the address space, as a table or as one of these
pages. -/
structure LoadedOnce (file : List UInt8) (r r' : Machine) (root : ℕ) : Prop where
  bytes : ∀ seg ∈ segments (fileByte file), ∀ k < seg.filesz.toNat,
    userByte r'.mem root (seg.vaddr + BitVec.ofNat 64 k) =
      some (fileByte file (seg.offset.toNat + k))
  mapped : ∀ v : Word, v.toNat < 2 ^ 47 → (walk r'.mem root v ≠ none ↔
    (∃ seg ∈ segments (fileByte file), seg.Occupies (v.toNat / 4096)) ∨
      v.toNat / 4096 = userStack.toNat / 4096)
  once : ∀ x < r.pmmHighestPage, bitmapTest r.bitmap x = false → bitmapTest r'.bitmap x = true →
    ∃! q, LowerPath 4 q ∧ descend codeNext r'.mem root q = some x

section Loads

variable (h : Loads r fs filename file args c l m' pages S pages' S' n)

include h

theorem Loads.highest :
    (Process.freeFile c.phys (filePages c.size) m').pmm.highestPage = r.pmmHighestPage := by
  obtain ⟨i, hfetched⟩ := h.completes.holds.fetched
  rw [hfetched.addr, Process.freeFile_eq _ _ hfetched.bound, foldl_freePage_highest,
    h.stacked.placed.half.took.highest, hfetched.took.highest]
  rfl

/-- The pages that are new on the one machine are new on the other. -/
theorem Loads.new_iff (t : ℕ) :
    (t < r.pmmHighestPage ∧ bitmapTest r.bitmap t = false ∧
        bitmapTest (processExec fs filename args r).2.machine.bitmap t = true) ↔
      bitmapTest r.apart.pmm.bitmap t = false ∧
        bitmapTest (Process.freeFile c.phys (filePages c.size) m').pmm.bitmap t = true := by
  by_cases ht : t < r.pmmHighestPage
  · rw [h.sim.test_eq h.highest ht, (Alike.self r).bits t ht]
    exact and_iff_right ht
  · rw [r.test_apart, decide_eq_true (Nat.not_lt.mp ht), Bool.or_true]
    simp [ht]

theorem Loads.once_iff (hfile : RegularElf file) :
    LoadedOnce file r (processExec fs filename args r).2.machine c.root ↔
      Process.LoadedOnce file r.apart (Process.freeFile c.phys (filePages c.size) m') c.root := by
  have hmem := freeFile_mem c.phys (filePages c.size) m'
  have hplace : ∀ t q, (LowerPath 4 q ∧ descend codeNext
        (processExec fs filename args r).2.machine.mem c.root q = some t) ↔
      (LowerPath 4 q ∧ descend codeNext m'.mem c.root q = some t) := by
    refine fun t q => and_congr_right fun hq => ?_
    rw [h.descend_eq hq]
  have hbyte : ∀ seg ∈ segments (fileByte file), ∀ k < seg.filesz.toNat,
      userByte (processExec fs filename args r).2.machine.mem c.root (seg.vaddr + BitVec.ofNat 64 k) =
        userByte m'.mem c.root (seg.vaddr + BitVec.ofNat 64 k) := by
    intro seg hseg k hk
    obtain ⟨haddr, hlow⟩ := regular_low hfile hseg
      (hk.trans_le (hfile.regular seg hseg).contents)
    exact h.byte _ (haddr ▸ hlow)
  constructor
  · rintro ⟨hbytes, hmapped, honce⟩
    refine ⟨fun seg hseg k hk => ?_, fun v hv => ?_, fun t hclear hset => ?_⟩
    · rw [hmem, ← hbyte seg hseg k hk]
      exact hbytes seg hseg k hk
    · rw [hmem, ← h.walk_eq hv]
      exact hmapped v hv
    · obtain ⟨hlt, hclear, hset⟩ := (h.new_iff t).mpr ⟨hclear, hset⟩
      obtain ⟨q, hq, hunique⟩ := honce t hlt hclear hset
      rw [hmem]
      exact ⟨q, (hplace t q).mp hq, fun q' hq' => hunique q' ((hplace t q').mpr hq')⟩
  · rintro ⟨hbytes, hmapped, honce⟩
    rw [hmem] at hbytes hmapped honce
    refine ⟨fun seg hseg k hk => ?_, fun v hv => ?_, fun t hlt hclear hset => ?_⟩
    · rw [hbyte seg hseg k hk]
      exact hbytes seg hseg k hk
    · rw [h.walk_eq hv]
      exact hmapped v hv
    · obtain ⟨hclear, hset⟩ := (h.new_iff t).mp ⟨hlt, hclear, hset⟩
      obtain ⟨q, hq, hunique⟩ := honce t hclear hset
      exact ⟨q, (hplace t q).mpr hq, fun q' hq' => hunique q' ((hplace t q').mp hq')⟩

end Loads

/-- With the pages of the bitmap in use, a call that no allocation fails in loads its segments with
one physical page for each page exactly if no page belongs to two segments, or to a segment and the
stack. Where segments with disjoint ranges share a page, the bytes of the last one are there, and of
the others the zeros only. -/
theorem segments_kept_iff (fs : Files) (filename file : List UInt8) (args : Option (List UInt8))
    (r : Machine) (hsafe : BitmapSafe r) (hzero : bitmapTest r.bitmap 0 = true)
    (hfile : RegularElf file) (hdelivers : Delivers fs filename file) (hargs : ArgsFit args)
    (hallocs : NoAllocFails (processExec fs filename args r)) :
    ∃ map, (processExec fs filename args r).1 =
        .entered map (entryPoint (fileByte file)) (stackPointer args) ∧
      (LoadedOnce file r (processExec fs filename args r).2.machine (map.toNat / 4096) ↔
        Apart (segments (fileByte file))) ∧
      (DisjointRanges (segments (fileByte file)) →
        ∀ pre seg post, segments (fileByte file) = pre ++ seg :: post →
          ∀ k < seg.filesz.toNat, (seg.vaddr.toNat + k) / 4096 ≠ userStack.toNat / 4096 →
            (userByte (processExec fs filename args r).2.machine.mem (map.toNat / 4096)
                (seg.vaddr + BitVec.ofNat 64 k) = some (fileByte file (seg.offset.toNat + k)) ↔
              fileByte file (seg.offset.toNat + k) = 0 ∨
                ∀ seg' ∈ post, ¬ seg'.Occupies ((seg.vaddr.toNat + k) / 4096))) := by
  obtain ⟨c, l, m', pages, S, pages', S', n, h⟩ :=
    exec_loads hfile hdelivers hsafe hzero hargs hallocs
  refine ⟨c.map, h.exit, ?_, ?_⟩
  · rw [h.root, h.once_iff hfile]
    exact h.completes.loadedOnce_iff hfile h.stacked hargs
  · intro hdisjoint pre seg post hsplit k hk hstack
    have hseg : seg ∈ segments (fileByte file) := by simp [hsplit]
    obtain ⟨haddr, hlow⟩ := regular_low hfile hseg (hk.trans_le (hfile.regular seg hseg).contents)
    rw [h.root, h.byte _ (haddr ▸ hlow), h.completes.userByte_eq hfile h.stacked (haddr ▸ hlow),
      if_neg (by rwa [haddr, stackPage_number]), haddr]
    exact hfile.planByte_iff hdelivers.length_lt hsplit hdisjoint hk

/-! ## Two segments on one page -/

theorem commonPageFile_loadable : Loadable commonPageFile sampleMachine.apart where
  size := by decide +kernel
  accepted := commonPageFile_accepted
  room := by decide +kernel
  all := by decide +kernel
  starves := by decide +kernel
  place := by decide +kernel

theorem commonPageFile_stackRoom : StackRoom commonPageFile sampleMachine.apart := by
  unfold StackRoom
  decide +kernel

theorem commonPageFile_allocs :
    NoAllocFails (processExec (sampleFiles commonPageFile) [0x61] none sampleMachine) := by
  have hargs : ArgsFit none := by simp [ArgsFit]
  refine (noAllocFails_iff sampleMachine_safe (by decide) commonPageFile_delivers.storesFit
    hargs (commonPageFile_regular.loadsLow commonPageFile_delivers (by decide))).mpr ?_
  exact commonPageFile_loadable.noAllocFails commonPageFile_delivers (by decide) (by decide +kernel)
    commonPageFile_regular.not_refused commonPageFile_stackRoom hargs

theorem segments_kept_iff_commonPage : ∃ map,
    (processExec (sampleFiles commonPageFile) [0x61] none sampleMachine).1 =
        .entered map (entryPoint (fileByte commonPageFile)) (stackPointer none) ∧
      (LoadedOnce commonPageFile sampleMachine
          (processExec (sampleFiles commonPageFile) [0x61] none sampleMachine).2.machine
          (map.toNat / 4096) ↔ Apart (segments (fileByte commonPageFile))) := by
  obtain ⟨map, hentered, hiff, _⟩ := segments_kept_iff (sampleFiles commonPageFile) [0x61]
    commonPageFile none sampleMachine sampleMachine_safe (by decide) commonPageFile_regular
    commonPageFile_delivers (by simp [ArgsFit]) commonPageFile_allocs
  exact ⟨map, hentered, hiff⟩

/-- The pages of two segments with disjoint ranges are allocated twice. -/
theorem common_page_replaced : ¬ ∀ fs filename file args r, RegularElf file →
    Delivers fs filename file → BitmapSafe r → bitmapTest r.bitmap 0 = true → ArgsFit args →
    NoAllocFails (processExec fs filename args r) → DisjointRanges (segments (fileByte file)) →
    ¬ Apart (segments (fileByte file)) →
    ∀ map entry stack, (processExec fs filename args r).1 = .entered map entry stack →
      LoadedOnce file r (processExec fs filename args r).2.machine (map.toNat / 4096) := by
  intro h
  have hnone : ArgsFit none := by simp [ArgsFit]
  obtain ⟨c, l, m', pages, S, pages', S', n, hloads⟩ := exec_loads commonPageFile_regular
    commonPageFile_delivers sampleMachine_safe (by decide) hnone commonPageFile_allocs
  have honce := h _ _ _ none _ commonPageFile_regular commonPageFile_delivers
    sampleMachine_safe (by decide) hnone commonPageFile_allocs commonPageFile_disjoint
    commonPageFile_shared c.map _ _ hloads.exit
  rw [hloads.root, hloads.once_iff commonPageFile_regular,
    hloads.completes.loadedOnce_iff commonPageFile_regular hloads.stacked hnone] at honce
  exact commonPageFile_shared honce

end LispDos.Raw
