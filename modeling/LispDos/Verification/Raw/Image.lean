import LispDos.Verification.Raw.Entered

/-! # The image of a program beside the bitmap

With the pages of the bitmap in use, a regular file is loaded as it is on the machine that is taken
apart. -/

namespace LispDos.Raw

open Foundation Memory Process

variable {r : Machine} {m' : Memory.Machine} {c : Context} {n : ℕ} {pages S pages' S' : List ℕ}
  {map v : Word} {l l' : Process.Loader} {fs : Files} {filename file : List UInt8}
  {args : Option (List UInt8)} {x : ExecExit × Loader} {x' : ExecExit × Process.Loader}

/-! ## Allocations -/

/-- No allocation of a call has failed, neither one of its own nor one in `vmm_map_page`. -/
structure NoAllocFails (x : ExecExit × Loader) : Prop where
  exit : x.1 ≠ .noFileMemory ∧ x.1 ≠ .noPagemap ∧ x.1 ≠ .noMemory ∧ x.1 ≠ .noStack
  tables : ∀ before map v, .map before map v ∈ x.2.log → ∀ a ∈ mapAllocs before map v, a ≠ 0#64

theorem CallMaps.mapAllocs_eq {before : Machine} {before' : Memory.Machine}
    (h : CallMaps fs filename r map before before') (hv : v.toNat < 2 ^ 47) :
    mapAllocs before map v = Memory.mapAllocs before' map v := by
  obtain ⟨c, _, _, hground, pages, S, D, going⟩ := h
  exact going.sim.mapAllocs_eq (going.mapTables hground hv rfl)

/-- The allocations of the two calls fail together. -/
theorem noAllocFails_iff (hsafe : BitmapSafe r) (hzero : bitmapTest r.bitmap 0 = true)
    (hfits : StoresFit fs filename) (hargs : ArgsFit args) (hlow : LoadsLow fs filename r.apart) :
    NoAllocFails (processExec fs filename args r) ↔
      Process.NoAllocFails (Process.processExec fs filename args r.apart) := by
  have hmaps := maps_of_loadsLow (zero_apart hzero) hlow args
  have hexit := (processExec_alike hsafe hzero hfits args).exit_eq hargs hmaps
  have hlogs := exec_logs hsafe hzero hfits hargs hlow
  constructor
  · intro h
    refine ⟨hexit ▸ h.exit, fun before' map v hin => ?_⟩
    obtain ⟨e, he, halike⟩ := hlogs.right _ hin
    cases halike with
    | map before _ _ _ hbefore =>
        rw [← hbefore.mapAllocs_eq (hmaps before' map v hin)]
        exact h.tables before map v he
  · intro h
    refine ⟨hexit.symm ▸ h.exit, fun before map v hin => ?_⟩
    obtain ⟨e, he, halike⟩ := hlogs.left _ hin
    cases halike with
    | map _ before' _ _ hbefore =>
        rw [hbefore.mapAllocs_eq (hmaps before' map v he)]
        exact h.tables before' map v he

/-! ## Entering user mode -/

theorem loaded_logged {exit : Option ExecExit} (h : Loaded c exit l)
    (hlow : ∀ s ∈ c.reached, s.vaddr.toNat < 2 ^ 47) : Logged c c.reached l.log := by
  cases h with
  | high _ _ _ _ _ _ hreached _ => exact (not_high hlow hreached).elim
  | faults _ hlogged _ => exact hlogged
  | starved _ _ _ _ _ _ hlogged _ _ _ _ _ => exact hlogged
  | full _ _ _ _ _ hlogged _ _ => exact hlogged
  | complete _ _ _ _ _ _ hlogged _ => exact hlogged

/-- Copies stay in the buffer when those of the pages do. -/
theorem copiesIn_of_within {exit : Option ExecExit} (h : Loaded c exit l)
    (hlow : ∀ s ∈ c.reached, s.vaddr.toNat < 2 ^ 47) (hwithin : ∀ s ∈ c.reached, s.within c.limit) :
    CopiesIn c.limit l.log := by
  intro offset k hin
  obtain ⟨s, hs, hcopy⟩ := ((loaded_logged h hlow).copies offset k).mp hin
  cases hpage : s.copy with
  | none =>
      rw [s.copyEvents_none hpage] at hcopy
      cases hcopy
  | some y =>
      obtain ⟨start, src, size⟩ := y
      rw [s.copyEvents_some hpage, List.mem_singleton] at hcopy
      obtain ⟨rfl, rfl⟩ := Process.Event.copy.inj hcopy
      exact hwithin s hs start offset size hpage

/-- A regular file has been loaded on both machines, on which user mode finds the same. -/
structure Loads (r : Machine) (fs : Files) (filename file : List UInt8) (args : Option (List UInt8))
    (c : Context) (l : Process.Loader) (m' : Memory.Machine) (pages S pages' S' : List ℕ) (n : ℕ) :
    Prop where
  completes : Completes fs filename file args r.apart c l pages S
  stacked : Stacked c.machine l.machine m' c.root pages' S' (filePlan file) args n
  exit : (processExec fs filename args r).1 =
    .entered c.map (entryPoint (fileByte file)) (stackPointer args)
  sim : Sim {t | r.Stores t} (processExec fs filename args r).2.machine
    (Process.freeFile c.phys (filePages c.size) m')
  tables : SameTables m' (processExec fs filename args r).2.machine.mem c.root
  byte : ∀ v : Word, v.toNat < 2 ^ 47 →
    userByte (processExec fs filename args r).2.machine.mem c.root v = userByte m'.mem c.root v

/-- A call that no allocation fails in loads a regular file. -/
theorem exec_loads (hfile : RegularElf file) (hdelivers : Delivers fs filename file)
    (hsafe : BitmapSafe r) (hzero : bitmapTest r.bitmap 0 = true) (hargs : ArgsFit args)
    (hallocs : NoAllocFails (processExec fs filename args r)) :
    ∃ c l m' pages S pages' S' n, Loads r fs filename file args c l m' pages S pages' S' n := by
  have hused := zero_apart hzero
  have hlow := hfile.loadsLow hdelivers hused
  have hmaps := maps_of_loadsLow hused hlow args
  have halike := processExec_alike hsafe hzero hdelivers.storesFit args
  obtain ⟨c, l, pages, S, m', pages', S', n, hdone, hstacked, hcall⟩ :=
    hfile.enters hdelivers hused hargs
      ((noAllocFails_iff hsafe hzero hdelivers.storesFit hargs hlow).mp hallocs)
  have hexit := halike.exit_eq hargs hmaps
  rw [hcall] at hexit
  obtain ⟨c', l', D, hentry⟩ := halike.entry hargs hmaps hexit
  obtain rfl : c = c' := Option.some_inj.mp (hdone.context.symm.trans hentry.context)
  have hmachine := congrArg (fun y : ExecExit × Process.Loader => y.2.machine) hcall
  -- every copy stays in the file, which lies in its buffer
  have hclean : D = ∅ := by
    have hreached := hfile.reached_plan hdone.holds
    refine hentry.clean (copiesIn_of_within hentry.loaded (fun s hs => hfile.low (hreached s hs)) ?_)
    intro s hs start src size hcopy
    have hwithin := hfile.within (hreached s hs) hdelivers.length_lt start src size hcopy
    have hsize := hdone.holds.size
    have hle := hdone.accepted.size_le
    omega
  have hhalf := hstacked.placed.half
  refine ⟨c, l, m', pages, S, pages', S', n, hdone, hstacked, hexit, ?_,
    hentry.sameTables hmachine hhalf, fun v hv => hentry.userByte_eq hmachine hhalf hclean hv⟩
  have hsim := hentry.jumped.sim
  rwa [hclean, Set.union_empty, hcall] at hsim

section Loads

variable (h : Loads r fs filename file args c l m' pages S pages' S' n)

include h

theorem Loads.root : c.map.toNat / 4096 = c.root := Context.map_div h.completes.accepted

theorem Loads.walk_eq (hv : v.toNat < 2 ^ 47) :
    walk (processExec fs filename args r).2.machine.mem c.root v = walk m'.mem c.root v :=
  h.stacked.placed.half.walk_same h.tables hv

theorem Loads.descend_eq {q : List ℕ} (hq : LowerPath 4 q) :
    descend codeNext (processExec fs filename args r).2.machine.mem c.root q =
      descend codeNext m'.mem c.root q :=
  h.stacked.placed.half.descend_same h.tables followsTables_code hq

end Loads

/-! ## The image -/

theorem regular_low (hfile : RegularElf file) {seg : Segment}
    (hseg : seg ∈ segments (fileByte file)) {k : ℕ} (hk : k < seg.memsz.toNat) :
    (seg.vaddr + BitVec.ofNat 64 k).toNat = seg.vaddr.toNat + k ∧ seg.vaddr.toNat + k < 2 ^ 47 := by
  have hlow := (hfile.regular seg hseg).low
  exact ⟨toNat_add_ofNat (by omega), by omega⟩

/-- What user mode finds is the image of the file when it is so on the machine that is taken
apart. -/
theorem Loads.image (h : Loads r fs filename file args c l m' pages S pages' S' n)
    (hfile : RegularElf file) (hargs : ArgsFit args)
    (himage : ImageOf file args m'.mem c.root (stackPointer args)) :
    ImageOf file args (processExec fs filename args r).2.machine.mem c.root (stackPointer args) := by
  refine ⟨?_, ?_, ?_, ?_⟩
  · intro seg hseg k hk
    obtain ⟨haddr, hlow⟩ := regular_low hfile hseg hk
    rw [h.byte _ (haddr ▸ hlow)]
    exact himage.contents seg hseg k hk
  · intro seg hseg v hocc hout
    have hend := hocc.2
    have hlow := (hfile.regular seg hseg).low
    rw [h.byte v (by omega)]
    exact himage.padding seg hseg v hocc hout
  · intro a ha
    obtain ⟨htop, hbytes⟩ := himage.arguments a ha
    refine ⟨htop, fun i hi => ?_⟩
    subst ha
    have hlen := hargs a rfl
    have haddr := stackPointer_add_toNat hlen (show i ≤ a.length + 1 by omega)
    rw [h.byte _ (by omega)]
    exact hbytes i hi
  · intro v hv hwalk
    rw [h.walk_eq hv] at hwalk
    exact himage.others v hv hwalk

/-- With the pages of the bitmap in use, a call that no allocation fails in enters user mode at the
entry point of the file, and the program finds its image there. -/
theorem exec_loads_image (fs : Files) (filename file : List UInt8) (args : Option (List UInt8))
    (r : Machine) (hsafe : BitmapSafe r) (hzero : bitmapTest r.bitmap 0 = true)
    (hfile : RegularElf file) (hdelivers : Delivers fs filename file)
    (hapart : Apart (segments (fileByte file))) (hargs : ArgsFit args)
    (hallocs : NoAllocFails (processExec fs filename args r)) :
    ∃ map, (processExec fs filename args r).1 =
        .entered map (entryPoint (fileByte file)) (stackPointer args) ∧
      ImageOf file args (processExec fs filename args r).2.machine.mem (map.toNat / 4096)
        (stackPointer args) := by
  obtain ⟨c, l, m', pages, S, pages', S', n, h⟩ :=
    exec_loads hfile hdelivers hsafe hzero hargs hallocs
  refine ⟨c.map, h.exit, ?_⟩
  rw [h.root]
  exact h.image hfile hargs (h.completes.image hfile hapart hargs h.stacked)

/-! ## A program with one segment -/

theorem smallFile_loadable : Loadable smallFile sampleMachine.apart where
  size := by decide +kernel
  accepted := smallFile_accepted
  room := by decide +kernel
  all := by decide +kernel
  starves := by decide +kernel
  place := by decide +kernel

theorem smallFile_room :
    (sampleMachine.apart.allocPages (BitVec.ofNat 64 (filePages smallFile.length))).1 ≠ 0#64 := by
  decide +kernel

theorem smallFile_stackRoom : StackRoom smallFile sampleMachine.apart := by
  unfold StackRoom
  decide +kernel

theorem smallFile_allocs (hargs : ArgsFit args) :
    NoAllocFails (processExec (sampleFiles smallFile) [0x61] args sampleMachine) := by
  refine (noAllocFails_iff sampleMachine_safe (by decide) smallFile_delivers.storesFit hargs
    (smallFile_regular.loadsLow smallFile_delivers (by decide))).mpr ?_
  exact smallFile_loadable.noAllocFails smallFile_delivers (by decide) smallFile_room
    smallFile_regular.not_refused smallFile_stackRoom hargs

theorem exec_loads_image_smallFile :
    ∃ map, (processExec (sampleFiles smallFile) [0x61] (some [0x78]) sampleMachine).1 =
        .entered map (entryPoint (fileByte smallFile)) (stackPointer (some [0x78])) ∧
      ImageOf smallFile (some [0x78])
        (processExec (sampleFiles smallFile) [0x61] (some [0x78]) sampleMachine).2.machine.mem
        (map.toNat / 4096) (stackPointer (some [0x78])) :=
  exec_loads_image _ _ _ _ _ sampleMachine_safe (by decide) smallFile_regular
    smallFile_delivers smallFile_apart (by simp [ArgsFit]) (smallFile_allocs (by simp [ArgsFit]))

/-! ## A file on the page of the bitmap -/

theorem smallFile_length : smallFile.length = 120 := by decide +kernel

/-- Sixteen pages with the bitmap on page 7 and the kernel's PML4 on page 4. -/
def sixteenPages (mem : PhysMem) (last : ℕ) (freeMemory : Word) (hlast : last ≤ 16) : Machine where
  mem := mem
  pmmBitmap := 7 * 4096
  pmmFreeMemory := freeMemory
  pmmHighestPage := 16
  pmmLastAllocatedIndex := last
  kernelPml4 := 4
  cursor := hlast
  physical := by decide

/-- The pages 0 to 6 and page 15 are in use. The page of the bitmap is not, as `pmm_init` leaves
it. -/
def spoiledMachine : Machine :=
  sixteenPages (writeWord (fun _ _ => 0#64) 7 0 0x807F#64) 0 32768#64 (by decide)

/-- The machine once the bitmap has been cleared. -/
def wipedMachine : Machine := sixteenPages (fun _ _ => 0#64) 7 24576#64 (by decide)

section Sixteen

variable {mem : PhysMem} {last : ℕ} {free : Word} {hlast : last ≤ 16}

/-- Page 7 is handed out. -/
theorem sixteenPages_alloc (hfind : findPage (sixteenPages mem last free hlast).pmm = some 7) :
    ∃ x, pmmAllocPage (sixteenPages mem last free hlast) =
      (pageAddr 7, sixteenPages (storeByte mem (7 * 4096) x) 7 (free - 4096#64) (by decide)) :=
  ⟨_, pmmAllocPage_of_some hfind⟩

/-- A new page map on the page of the bitmap. -/
theorem sixteenPages_new (hfind : findPage (sixteenPages mem last free hlast).pmm = some 7)
    (hzero : ∀ t, t ≠ 7 → mem t = fun _ => 0#64) :
    vmmNewPagemap (sixteenPages mem last free hlast) =
      (pageAddr 7, sixteenPages (fun _ _ => 0#64) 7 (free - 4096#64) (by decide)) := by
  obtain ⟨x, halloc⟩ := sixteenPages_alloc hfind
  have hclear : clearTable (storeByte mem (7 * 4096) x) 7 = fun _ _ => 0#64 := by
    funext t
    by_cases ht : t = 7
    · rw [ht, clearTable, Function.update_self]
    · rw [clearTable, Function.update_of_ne ht, storeByte_other mem x ht, hzero t ht]
  have hcopy : copyUpperHalf (fun _ _ => 0#64) 7 4 = fun _ _ => 0#64 := by
    funext t i
    rw [copyUpperHalf_apply, ite_self]
  rw [vmmNewPagemap, halloc, if_neg (pageAddr_ne_zero (by decide) (by decide)),
    pageAddr_div (by decide)]
  refine Prod.ext rfl ?_
  have hmem : copyUpperHalf (clearTable (storeByte mem (7 * 4096) x) 7) 7 4 = fun _ _ => 0#64 := by
    rw [hclear, hcopy]
  exact congrArg (fun mem => sixteenPages mem 7 (free - 4096#64) (by decide)) hmem

end Sixteen

theorem spoiledMachine_find : findPage spoiledMachine.pmm = some 7 := by decide +kernel

/-- The checks of a header that is accepted only read. -/
theorem checkHeader_accepted {r : Machine} {phys : Word} {size : ℕ}
    (haccepted : HeaderAccepted (byteAt r.mem phys) size) :
    ∃ log, checkHeader phys size ⟨r, []⟩ = (none, ⟨r, log⟩) ∧
      ∀ before map v, .map before map v ∉ log := by
  have hstart : Reading (fun _ _ _ => True) r r.apart ⟨r, []⟩ ⟨r.apart, []⟩ := ⟨rfl, rfl, .nil⟩
  have hbytes : ∀ k < 4096, byteAt r.apart.mem phys k = byteAt r.mem phys k := fun _ _ => rfl
  obtain ⟨hfst, hleft, _, hlogs⟩ := hstart.checkHeader (fun k hk => (hbytes k hk).symm) size
  have hmodel := checkHeader_eq hbytes le_rfl size []
  rw [headerResult_accepted haccepted] at hmodel
  rw [hmodel] at hfst hlogs
  generalize checkHeader phys size ⟨r, []⟩ = y at hfst hleft hlogs ⊢
  obtain ⟨result, machine, log⟩ := y
  obtain rfl : machine = r := hleft
  obtain rfl : result = none := hfst
  refine ⟨log, rfl, fun before map v hin => ?_⟩
  obtain ⟨e, he, halike⟩ := hlogs.left _ hin
  cases halike with
  | map _ before' _ _ _ => simp at he

/-- The cleared buffer has no program headers. -/
theorem wipedMachine_loads (phoff : Word) (log : List Event) :
    loadHeaders (pageAddr 7) (pageAddr 7) phoff 65536 0 ⟨wipedMachine, log⟩ =
      .go ⟨wipedMachine, log ++ [.field 56#64 2]⟩ := by
  have hphnum : (Loader.field ⟨wipedMachine, log⟩ (pageAddr 7) 56#64 2).1 = 0#64 := by
    have hfield : loadField wipedMachine.mem (pageAddr 7 + 56#64) 2 = 0#64 := by decide +kernel
    exact hfield
  change loadHeaders (pageAddr 7) (pageAddr 7) phoff (65535 + 1) 0 ⟨wipedMachine, log⟩ = _
  rw [loadHeaders]
  simp only [hphnum]
  rfl

/-- Once the file has overwritten the bitmap, the new page map overwrites the file. -/
theorem execElf_wiped {mem : PhysMem} (hfilled : ∀ k < 120, byteAt mem (pageAddr 7) k =
      fileByte smallFile k) (hzero : ∀ t, t ≠ 7 → mem t = fun _ => 0#64) :
    ∃ log : List Event, (∀ before map v, .map before map v ∉ log) ∧
      execElf (pageAddr 7) 120 none (sixteenPages mem 7 28672#64 (by decide)) =
        enter (pageAddr 7) 1 (pageAddr 7) none ⟨wipedMachine, log⟩ := by
  -- the first byte of the file, which is 0x7F, stands for the pages 0 to 7
  have hfind : findPage (sixteenPages mem 7 28672#64 (by decide)).pmm = some 7 := by
    have hfirst : (sixteenPages mem 7 28672#64 (by decide)).bitmap 0 = 0x7F#8 :=
      congrArg UInt8.toBitVec ((hfilled 0 (by decide)).trans (by decide +kernel))
    have htest : bitmapTest (sixteenPages mem 7 28672#64 (by decide)).bitmap 7 = false := by
      rw [bitmapTest, hfirst]
      decide
    have hcons : List.range' 7 (16 - 7) = 7 :: List.range' 8 8 := rfl
    change ((List.range' 7 (16 - 7)).find? fun i =>
      !bitmapTest (sixteenPages mem 7 28672#64 (by decide)).bitmap i).or _ = some 7
    rw [hcons, List.find?_cons_of_pos (by simp [htest])]
    rfl
  have hnew : vmmNewPagemap (sixteenPages mem 7 28672#64 (by decide)) = (pageAddr 7, wipedMachine) :=
    sixteenPages_new hfind hzero
  have haccepted : HeaderAccepted (byteAt mem (pageAddr 7)) 120 :=
    HeaderAccepted.congr (fun k hk => (hfilled k hk).symm) (by decide)
      (smallFile_length ▸ smallFile_regular.accepted)
  obtain ⟨log, hheader, hmaps⟩ := checkHeader_accepted
    (r := sixteenPages mem 7 28672#64 (by decide)) haccepted
  refine ⟨log ++ [.field 32#64 8] ++ [.field 56#64 2], ?_, ?_⟩
  · intro before map v hin
    simp only [List.mem_append, List.mem_singleton, reduceCtorEq, or_false] at hin
    exact hmaps before map v hin
  · simp only [execElf, hheader, hnew, Loader.field]
    rw [if_neg (pageAddr_ne_zero (by decide) (by decide)), wipedMachine_loads]
    rfl

theorem spoiledMachine_exec : ∃ log : List Event, (∀ before map v, .map before map v ∉ log) ∧
    processExec (sampleFiles smallFile) [0x61] none spoiledMachine =
      enter (pageAddr 7) 1 (pageAddr 7) none ⟨wipedMachine, log⟩ := by
  have hsize : (fileSize (sampleFiles smallFile) [0x61]).1 = 120 :=
    smallFile_delivers.size.trans smallFile_length
  have hbase : (pageAddr 7).toNat = 7 * 4096 := pageAddr_toNat (by decide)
  obtain ⟨result, stores, hread, hpos, hbelow, hbytes⟩ := smallFile_delivers.read
  rw [smallFile_length] at hbelow hbytes
  obtain ⟨x, halloc⟩ := sixteenPages_alloc spoiledMachine_find
  have hbuf : pmmAllocPages spoiledMachine (BitVec.ofNat 64 (filePages 120)) = (pageAddr 7,
      sixteenPages (storeByte spoiledMachine.mem (7 * 4096) x) 7 28672#64 (by decide)) := halloc
  have hstart : processExec (sampleFiles smallFile) [0x61] none spoiledMachine =
      execElf (pageAddr 7) 120 none (sixteenPages (storeAt (storeByte spoiledMachine.mem (7 * 4096) x)
        (pageAddr 7) stores) 7 28672#64 (by decide)) := by
    rw [processExec, hsize, if_neg (by decide), hbuf]
    simp only [hread]
    rw [if_neg (pageAddr_ne_zero (by decide) (by decide)), if_neg (by omega)]
    rfl
  rw [hstart]
  apply execElf_wiped
  · intro k hk
    have hin : ∀ s ∈ stores, (pageAddr 7).toNat + s.1 < 2 ^ 64 := by
      intro s hs
      have := hbelow s hs
      omega
    rw [byteAt_storeAt _ _ _ hin (by omega), hbytes _ k hk]
  · intro t ht
    rw [storeAt_other, storeByte_other _ _ ht]
    · funext i
      change writeWord (fun _ _ => 0#64) 7 0 0x807F#64 t i = 0#64
      rw [writeWord_apply, if_neg fun h => ht h.1]
    · intro s hs
      have hs := hbelow s hs
      rw [toNat_add_ofNat (by omega), hbase]
      omega

theorem wipedMachine_maps : mapAllocs (pmmAllocPage wipedMachine).2 (pageAddr 7) userStack =
    [pageAddr 8, pageAddr 9, pageAddr 10] := by decide +kernel

/-- The machine on which the program is entered. -/
def wipedEnd : Machine := freeFile (pageAddr 7) 1 (mapStack (pageAddr 7)
  (pmmAllocPage wipedMachine).1 none (pmmAllocPage wipedMachine).2)

theorem wipedMachine_enter (log : List Event) :
    enter (pageAddr 7) 1 (pageAddr 7) none ⟨wipedMachine, log⟩ =
      (.entered (pageAddr 7) 0#64 (stackPointer none), ⟨wipedEnd,
        log ++ [.map (pmmAllocPage wipedMachine).2 (pageAddr 7) userStack] ++ [.field 24#64 8]⟩) := by
  have hok : (pmmAllocPage wipedMachine).1 ≠ 0#64 := by decide +kernel
  have hentry : loadField wipedEnd.mem (pageAddr 7 + 24#64) 8 = 0#64 := by decide +kernel
  simp only [enter, if_neg hok]
  exact congrArg (fun e => (ExecExit.entered (pageAddr 7) e (stackPointer none), _)) hentry

theorem wipedMachine_allocs :
    ∀ a ∈ mapAllocs (pmmAllocPage wipedMachine).2 (pageAddr 7) userStack, a ≠ 0#64 := by
  rw [wipedMachine_maps]
  simp only [List.mem_cons, List.not_mem_nil, or_false, forall_eq_or_imp, forall_eq]
  exact ⟨pageAddr_ne_zero (by decide) (by decide), pageAddr_ne_zero (by decide) (by decide),
    pageAddr_ne_zero (by decide) (by decide)⟩

theorem wipedEnd_unmapped : userByte wipedEnd.mem 7 0x400010#64 = none := by decide +kernel

/-- A call that no allocation fails in clears its file and enters a program without segments. -/
theorem smallFile_wiped :
    RegularElf smallFile ∧ Apart (segments (fileByte smallFile)) ∧
      Delivers (sampleFiles smallFile) [0x61] smallFile ∧ bitmapTest spoiledMachine.bitmap 0 = true ∧
      NoAllocFails (processExec (sampleFiles smallFile) [0x61] none spoiledMachine) ∧
      ∃ map entry stack, (processExec (sampleFiles smallFile) [0x61] none spoiledMachine).1 =
          .entered map entry stack ∧
        ¬ ImageOf smallFile none
          (processExec (sampleFiles smallFile) [0x61] none spoiledMachine).2.machine.mem
          (map.toNat / 4096) stack := by
  obtain ⟨log, hmaps, hcall⟩ := spoiledMachine_exec
  rw [hcall, wipedMachine_enter]
  refine ⟨smallFile_regular, smallFile_apart, smallFile_delivers, by decide, ⟨by simp, ?_⟩, _, _, _,
    rfl, ?_⟩
  · intro before map v hin
    simp only [List.mem_append, List.mem_singleton, reduceCtorEq, or_false] at hin
    rcases hin with hin | hin
    · exact (hmaps before map v hin).elim
    · obtain ⟨rfl, rfl, rfl⟩ := Event.map.inj hin
      exact wipedMachine_allocs
  · intro himage
    have hcontents := himage.contents ⟨0x400010#64, 0x20#64, 4#64, 0#64⟩
      (by rw [smallFile_segments]; simp) 0 (by decide)
    have hroot : (pageAddr 7).toNat / 4096 = 7 := pageAddr_div (by decide)
    rw [hroot] at hcontents
    cases wipedEnd_unmapped.symm.trans hcontents

end LispDos.Raw
