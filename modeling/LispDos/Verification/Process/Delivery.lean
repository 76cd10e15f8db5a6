import LispDos.Verification.Fat16.RoundTrip
import LispDos.Verification.Process.Calls

/-! # Files in the buffer

The read functions deliver a file into the buffer of `process_exec`, where its headers
are found again. -/

namespace LispDos.Process

open Memory

variable {fs : Files} {filename file : List UInt8} {m : Machine} {buf buf' : ℕ → UInt8} {size : ℕ}

/-! ## Headers depend on the file only -/

theorem field_congr (h : ∀ k < size, buf k = buf' k) (offset n : ℕ) (hin : offset + n ≤ size) :
    field buf offset n = field buf' offset n := by
  apply leField_congr
  intro i hi
  exact h _ (by omega)

section Congr

variable (h : ∀ k < size, buf k = buf' k) (hsize : 58 ≤ size)

include h hsize

theorem headers_congr : (Magic buf ↔ Magic buf') ∧ phoff buf = phoff buf' ∧
    phnum buf = phnum buf' ∧ entryPoint buf = entryPoint buf' := by
  have hfield := fun {offset n : ℕ} (hin : offset + n ≤ 58) =>
    field_congr h offset n (hin.trans hsize)
  refine ⟨?_, hfield (by decide), hfield (by decide), hfield (by decide)⟩
  refine forall₂_congr fun e he => ?_
  have hsmall := elfMagic_lt e he
  rw [hfield (by omega)]

theorem HeaderAccepted.congr (haccepted : HeaderAccepted buf size) : HeaderAccepted buf' size := by
  obtain ⟨hmagic, hphoff, hphnum, hentry⟩ := headers_congr h hsize
  obtain ⟨h₁, h₂, h₃, h₄⟩ := haccepted
  refine ⟨hmagic.mp h₁, by rwa [← hphoff], ?_, by rwa [← hentry]⟩
  rwa [tableEnd, ← hphoff, ← hphnum]

theorem segments_congr (htable : (phoff buf).toNat + 56 * (phnum buf).toNat ≤ size) :
    segments buf = segments buf' := by
  obtain ⟨_, hphoff, hphnum, _⟩ := headers_congr h hsize
  rw [segments, segments, ← hphoff, ← hphnum]
  refine List.filterMap_congr fun i hi => ?_
  have hi := List.mem_range.mp hi
  have hfield := fun {k n : ℕ} (hin : k + n ≤ 56) =>
    field_congr h ((phoff buf).toNat + 56 * i + k) n (by omega)
  simp only [segmentAt, hfield (k := 16) (n := 8) (by decide), hfield (k := 40) (n := 8) (by decide),
    hfield (k := 32) (n := 8) (by decide), hfield (k := 8) (n := 8) (by decide)]
  rw [field_congr h ((phoff buf).toNat + 56 * i) 4 (by omega)]

end Congr

/-! ## Delivery -/

/-- The bytes of a file, by offset. -/
def fileByte (file : List UInt8) (k : ℕ) : UInt8 := file.getD k 0

/-- The volume or the ramdisk holds the file: its size is found, and the read function
stores each of its bytes and nothing beyond them. -/
structure Delivers (fs : Files) (filename file : List UInt8) : Prop where
  size : (fileSize fs filename).1 = file.length
  pos : 0 < file.length
  read : ∃ result stores, readFile fs filename (fileSize fs filename).2 = some (result, stores) ∧
    0 < result ∧ (∀ s ∈ stores, s.1 < file.length) ∧
    ∀ out k, k < file.length → applyStores out stores k = fileByte file k

theorem delivers_of_range (f : ℕ → UInt8) (useTarfs : Bool)
    (hsize : fileSize fs filename = (file.length, useTarfs))
    (hread : readFile fs filename useTarfs =
      some (toInt32 file.length, (List.range file.length).map fun i => (i, f i)))
    (hpos : 0 < file.length) (hlt : file.length < 2 ^ 31)
    (hbytes : ∀ k < file.length, f k = fileByte file k) : Delivers fs filename file := by
  refine ⟨by rw [hsize], hpos, toInt32 file.length, (List.range file.length).map fun i => (i, f i),
    by rw [hsize, hread], ?_, ?_, ?_⟩
  · rw [Fat16.toInt32_of_lt hlt]
    exact_mod_cast hpos
  · intro s hs
    obtain ⟨i, hi, rfl⟩ := List.mem_map.mp hs
    exact List.mem_range.mp hi
  · intro out k hk
    rw [Fat16.applyStores_range, if_pos hk, hbytes k hk]

/-- A file of the ramdisk that the volume does not have is delivered. -/
theorem tarfs_delivers {r : Tarfs.Ramdisk} {offset : ℕ}
    (hfat : fat16GetFileSize fs.bpb fs.disk filename = 0) (hramdisk : fs.ramdisk = some r)
    (hlookup : Tarfs.lookup (some r) filename = some (offset, file.length))
    (hpos : 0 < file.length) (hlt : file.length < 2 ^ 31)
    (hbytes : ∀ k < file.length, r.bytes (offset + 512 + k) = fileByte file k) :
    Delivers fs filename file := by
  have htar : Tarfs.tarfsGetFileSize fs.ramdisk filename = file.length := by
    rw [Tarfs.tarfsGetFileSize, hramdisk, hlookup, Option.map_some, Option.getD_some]
  refine delivers_of_range (fun i => r.bytes (offset + 512 + i)) true ?_ ?_ hpos hlt hbytes
  · simp only [fileSize, hfat, if_true, htar]
    rw [Nat.mod_eq_of_lt (hlt.trans (by decide))]
  · rw [readFile, if_pos rfl, hramdisk]
    unfold Tarfs.tarfsReadFile
    simp only [hlookup]

/-- A file of a consistent volume is delivered. -/
theorem volume_delivers {chain : ℕ → List ℕ} {k : ℕ}
    (h : Fat16.Layout fs.bpb fs.disk chain)
    (hlookup : Fat16.lookup fs.bpb fs.disk (formatFatName filename) = some k)
    (hlength : file.length = (Fat16.slot fs.bpb fs.disk k).fileSize)
    (hpos : 0 < file.length) (hlt : file.length < 2 ^ 31)
    (hbytes : ∀ i < file.length,
      Fat16.fileByte fs.bpb fs.disk (chain k) i = fileByte file i) :
    Delivers fs filename file := by
  obtain ⟨hk, hfile⟩ := h.dir.lookup_eq_some_iff.mp hlookup
  obtain ⟨e, hchain, _⟩ := h.chains k hk hfile.1
  have hsize : fat16GetFileSize fs.bpb fs.disk filename = file.length := by
    rw [Fat16.fat16GetFileSize_eq, hlookup, Option.elim_some, hlength]
  refine delivers_of_range (Fat16.fileByte fs.bpb fs.disk (chain k)) false ?_ ?_ hpos hlt hbytes
  · rw [fileSize, hsize, if_neg (by omega)]
  · rw [readFile, if_neg (by simp), Fat16.fat16ReadFile_eq, hlookup, Option.elim_some,
      Fat16.readChain_eq h.geometry hchain (h.enough k hk hfile.1), Option.map_some, hlength]

/-! ## Stores into the buffer -/

/-- The size of a file of the ramdisk is not cut off to 32 bits. -/
def RamdiskFits (fs : Files) (filename : List UInt8) : Prop :=
  Tarfs.tarfsGetFileSize fs.ramdisk filename < 2 ^ 32

/-- The read functions store below the size that was found for the file. -/
def StoresFit (fs : Files) (filename : List UInt8) : Prop :=
  ∀ result stores, readFile fs filename (fileSize fs filename).2 = some (result, stores) →
    ∀ s ∈ stores, s.1 < (fileSize fs filename).1

theorem Delivers.storesFit (h : Delivers fs filename file) : StoresFit fs filename := by
  obtain ⟨result, stores, hread, -, hin, -⟩ := h.read
  intro result' stores' hread'
  rw [hread] at hread'
  obtain ⟨rfl, rfl⟩ := Prod.mk.inj (Option.some_inj.mp hread')
  rw [h.size]
  exact hin

theorem RamdiskFits.storesFit (hfits : RamdiskFits fs filename) : StoresFit fs filename := by
  intro result stores h
  by_cases hfat : fat16GetFileSize fs.bpb fs.disk filename = 0
  · have hsize : fileSize fs filename = (Tarfs.tarfsGetFileSize fs.ramdisk filename, true) := by
      simp only [fileSize, hfat, if_true, Nat.mod_eq_of_lt hfits]
    rw [hsize] at h ⊢
    rw [readFile, if_pos rfl] at h
    have hread := Option.some_inj.mp h
    rw [Tarfs.tarfsGetFileSize]
    unfold Tarfs.tarfsReadFile at hread
    split at hread
    · rename_i r offset size _ hlookup
      obtain ⟨_, rfl⟩ := Prod.mk.inj hread
      intro s hs
      obtain ⟨i, hi, rfl⟩ := List.mem_map.mp hs
      rw [hlookup, Option.map_some, Option.getD_some]
      exact List.mem_range.mp hi
    · obtain ⟨_, rfl⟩ := Prod.mk.inj hread
      simp
  · have hsize : fileSize fs filename = (fat16GetFileSize fs.bpb fs.disk filename, false) := by
      simp only [fileSize, hfat, if_false]
    rw [hsize] at h ⊢
    rw [readFile, if_neg (by simp)] at h
    exact Fat16.fat16ReadFile_stores h

/-- The addresses of a file buffer do not wrap around. -/
theorem Fetched.fits {m₁ : Machine} {phys : Word} {size i : ℕ} (h : Fetched m m₁ phys size i) :
    phys.toNat + size < 2 ^ 64 := by
  obtain ⟨_, hle⟩ := filePages_bounds h.size_lt
  have hle := hle h.pages_pos
  have hbound := h.bound
  rw [h.addr, pageAddr_toNat (by omega)]
  omega

/-- Stores to a file buffer reach its pages only. -/
theorem Fetched.storeAt_other {m₁ : Machine} {phys : Word} {size i : ℕ}
    (h : Fetched m m₁ phys size i) (mem : PhysMem) {stores : List Store}
    (hbelow : ∀ s ∈ stores, s.1 < size) {t : ℕ} (ht : t ∉ List.range' i (filePages size)) :
    storeAt mem phys stores t = mem t := by
  obtain ⟨_, hle⟩ := filePages_bounds h.size_lt
  have hle := hle h.pages_pos
  have hbound := h.bound
  have hbase : phys.toNat = i * 4096 := by rw [h.addr, pageAddr_toNat (by omega)]
  refine Memory.storeAt_other mem phys stores (fun s hs => ?_)
  have hoffset := hbelow s hs
  rw [toNat_add_ofNat (by omega), hbase]
  rintro rfl
  exact ht (List.mem_range'_1.mpr (by omega))

/-- Pages that were in use keep their contents when the file is read. -/
theorem Filled.frame {m₁ : Machine} {phys : Word} {i : ℕ} (h : Filled fs filename m m₁ phys)
    (hfetched : Fetched m m₁ phys (fileSize fs filename).1 i) (hfits : StoresFit fs filename)
    {t : ℕ} (ht : bitmapTest m.pmm.bitmap t = true) : m₁.mem t = m.mem t := by
  obtain ⟨result, stores, hread, hmem⟩ := h
  rw [hmem]
  refine hfetched.storeAt_other m.mem (hfits result stores hread) fun hin => ?_
  have hclear := hfetched.took.clear t hin
  rw [ht] at hclear
  cases hclear

/-! ## The context of a file -/

/-- The file is in the buffer of the context. -/
structure Context.Holds (c : Context) (m : Machine) (file : List UInt8) : Prop where
  of : c = Context.of c.machine c.phys c.size
  size : c.size = file.length
  fetched : ∃ i, Fetched m c.machine c.phys c.size i
  bytes : ∀ k < c.size, c.buf k = fileByte file k
  frame : ∀ t, bitmapTest c.machine.pmm.bitmap t = bitmapTest m.pmm.bitmap t →
    c.machine.mem t = m.mem t

/-- A file for which there is memory is found in the buffer. -/
theorem Delivers.context (h : Delivers fs filename file) (hzero : bitmapTest m.pmm.bitmap 0 = true)
    (hroom : (m.allocPages (BitVec.ofNat 64 (filePages file.length))).1 ≠ 0#64) :
    ∃ c, contextOf fs filename m = some c ∧ c.Holds m file := by
  obtain ⟨result, stores, hread, hpos, hin, hout⟩ := h.read
  have hlt := fileSize_lt fs filename
  have hcases := bufferCases hzero hlt
  have hmem : (m.allocPages (BitVec.ofNat 64 (filePages (fileSize fs filename).1))).2.mem =
      m.mem := rfl
  rw [← h.size] at hroom
  have hfetch : contextOf fs filename m = some (Context.of
      { (m.allocPages (BitVec.ofNat 64 (filePages (fileSize fs filename).1))).2 with
        mem := storeAt m.mem (m.allocPages (BitVec.ofNat 64
          (filePages (fileSize fs filename).1))).1 stores }
      (m.allocPages (BitVec.ofNat 64 (filePages (fileSize fs filename).1))).1
      (fileSize fs filename).1) := by
    have hsize : ¬ (fileSize fs filename).1 = 0 := by
      rw [h.size]
      exact h.pos.ne'
    simp only [contextOf, fetch, hsize, hroom, or_self, if_false, hread, Option.bind_some,
      if_neg (Int.not_le.mpr hpos), Option.map_some, hmem]
  generalize m.allocPages (BitVec.ofNat 64 (filePages (fileSize fs filename).1)) = buf
    at hcases hroom hfetch
  obtain ⟨hfail, _⟩ | ⟨_, i, hfetched⟩ := hcases
  · exact (hroom hfail).elim
  · have hf := hfetched (storeAt m.mem buf.1 stores)
    have hfits := hf.fits
    rw [h.size] at hfits
    refine ⟨_, hfetch, rfl, h.size, ⟨i, hf⟩, ?_, ?_⟩
    · intro k hk
      simp only [Context.of_size, h.size] at hk
      simp only [Context.of_buf]
      rw [byteAt_storeAt m.mem buf.1 stores (fun s hs => by
        have := hin s hs
        omega) (by omega), hout _ k hk]
    · intro t ht
      refine hf.storeAt_other m.mem (fun s hs => h.size ▸ hin s hs) fun hmem => ?_
      rw [Context.of_machine, hf.took.bits, hf.took.clear _ hmem, decide_eq_true hmem] at ht
      cases ht

/-! ## What a file asks for -/

section Holds

variable {c : Context} (h : c.Holds m file) (hsize : 58 ≤ file.length)

include h hsize

theorem Context.Holds.accepted_iff :
    HeaderAccepted c.buf c.size ↔ HeaderAccepted (fileByte file) file.length := by
  have hbytes := h.bytes
  rw [h.size] at hbytes ⊢
  constructor
  · exact HeaderAccepted.congr hbytes hsize
  · exact HeaderAccepted.congr (fun k hk => (hbytes k hk).symm) hsize

variable (haccepted : HeaderAccepted (fileByte file) file.length)

include haccepted

theorem Context.Holds.segments_eq : segments c.buf = segments (fileByte file) := by
  have hlt := h.fetched.choose_spec.size_lt
  have hbytes := h.bytes
  rw [h.size] at hlt hbytes
  obtain ⟨_, _, htable⟩ := headerResult_ok (headerResult_accepted haccepted) hlt
  exact (segments_congr (fun k hk => (hbytes k hk).symm) hsize htable).symm

/-- The pages that the headers ask for are those that the file asks for. -/
theorem Context.Holds.plan_eq : c.plan = pagesOf (segments (fileByte file)) := by
  rw [Context.plan, h.segments_eq hsize haccepted]

omit hsize haccepted in
theorem Context.Holds.free_eq : c.free = freePages m - filePages file.length - 1 := by
  obtain ⟨i, hfetched⟩ := h.fetched
  have hleft := hfetched.left
  rw [h.size] at hleft
  rw [Context.free]
  omega

/-- The pages that a file has loaded on a machine. -/
def fileReached (file : List UInt8) (m : Machine) : List SegPage :=
  reached (freePages m - filePages file.length - 1) [] (pagesOf (segments (fileByte file)))

theorem Context.Holds.reached_eq : c.reached = fileReached file m := by
  rw [Context.reached, h.plan_eq hsize haccepted, h.free_eq, fileReached]

end Holds

/-! ## Calls for a file -/

/-- The end of a loading in which nothing goes wrong. -/
theorem Loaded.complete_of {c : Context} {exit : Option ExecExit} {l : Loader} (h : Loaded c exit l)
    (hall : c.reached = c.plan) (hstarves : c.starves = false)
    (hplace : ∀ s ∈ c.reached, s.astray = false) :
    exit = (if refused (segments c.buf) then some .kernelSegment else none) ∧
      freePages l.machine = c.remaining ∧ ∃ pages S, Logged c c.reached l.log ∧
        Progress c.buf c.limit c.machine l.machine c.root pages S c.reached := by
  cases h with
  | high exit l before v hmap hv hreached hcopies =>
      exact (not_high (fun s hs => (SegPage.astray_eq_false.mp (hplace s hs)).2) hreached).elim
  | faults l hlogged hfaults =>
      exact (not_faults (fun s hs => (SegPage.astray_eq_false.mp (hplace s hs)).1) hfaults).elim
  | starved exit l pages S hexit hstarves' hlogged before v hmap hzero hstarved =>
      rw [hstarves] at hstarves'
      cases hstarves'
  | full l pages S hstarves' hmore hlogged hfull hp => exact (hmore hall).elim
  | complete l pages S hstarves' hall' hleft hlogged hp => exact ⟨rfl, hleft, pages, S, hlogged, hp⟩

/-- The call for a file that there is memory for. -/
theorem Delivers.call (h : Delivers fs filename file) (hzero : bitmapTest m.pmm.bitmap 0 = true)
    (hroom : (m.allocPages (BitVec.ofNat 64 (filePages file.length))).1 ≠ 0#64)
    (args : Option (List UInt8)) :
    ∃ c, contextOf fs filename m = some c ∧ c.Holds m file ∧
      ElfCall c.machine c.phys c.size args (processExec fs filename args m) := by
  obtain ⟨c, hcontext, hholds⟩ := h.context hzero hroom
  have hcall := processExec_call fs filename args m hzero
  generalize processExec fs filename args m = r at hcall
  refine ⟨c, hcontext, hholds, ?_⟩
  have hnone : fetch fs filename m ≠ none := by
    intro hfetch
    simp [contextOf, hfetch] at hcontext
  cases hcall with
  | early exit hexit hfetch => exact (hnone hfetch).elim
  | hangs m' hfetch hread hmem => exact (hnone hfetch).elim
  | readFailed m₁ phys i hfetch hfetched hfilled => exact (hnone hfetch).elim
  | elf m₁ phys i hfetch hfetched hfilled r hcall =>
      rw [contextOf, hfetch, Option.map_some, Option.some_inj] at hcontext
      rw [← hcontext]
      exact hcall

/-- The file is accepted, and there is memory for every page and table it asks for. -/
structure Loadable (file : List UInt8) (m : Machine) : Prop where
  size : 58 ≤ file.length
  accepted : HeaderAccepted (fileByte file) file.length
  room : filePages file.length < freePages m
  all : fileReached file m = pagesOf (segments (fileByte file))
  starves : starves (freePages m - filePages file.length - 1) []
    (pagesOf (segments (fileByte file))) = false
  place : ∀ s ∈ pagesOf (segments (fileByte file)), s.astray = false

theorem Loadable.call (hload : Loadable file m) (h : Delivers fs filename file)
    (hzero : bitmapTest m.pmm.bitmap 0 = true)
    (hroom : (m.allocPages (BitVec.ofNat 64 (filePages file.length))).1 ≠ 0#64)
    (args : Option (List UInt8)) :
    ∃ c l pages S, contextOf fs filename m = some c ∧ c.Holds m file ∧ c.Accepted ∧
      freePages l.machine = c.remaining ∧ Logged c c.reached l.log ∧
      Progress c.buf c.limit c.machine l.machine c.root pages S c.reached ∧
      processExec fs filename args m =
        if refused (segments (fileByte file)) then
          (.kernelSegment, { l with
            machine := vmmFreePagemap (freeFile c.phys (filePages c.size) l.machine) c.map })
        else enter c.phys (filePages c.size) c.map args l := by
  obtain ⟨c, hcontext, hholds, hcall⟩ := h.call hzero hroom args
  have haccepted := (hholds.accepted_iff hload.size).mpr hload.accepted
  have hplan := hholds.plan_eq hload.size hload.accepted
  have hreached : c.reached = c.plan := by
    rw [hholds.reached_eq hload.size hload.accepted, hload.all, hplan]
  have hstarves : c.starves = false := by
    rw [Context.starves, hplan, hholds.free_eq]
    exact hload.starves
  have hplace : ∀ s ∈ c.reached, s.astray = false := by
    rw [hreached, hplan]
    exact hload.place
  have hpages : 0 < freePages c.machine := by
    obtain ⟨i, hfetched⟩ := hholds.fetched
    have hleft := hfetched.left
    have hroom := hload.room
    rw [hholds.size] at hleft
    omega
  have hof := hholds.of
  rw [← hholds.segments_eq hload.size hload.accepted]
  generalize processExec fs filename args m = r at hcall
  generalize hm₁ : c.machine = m₁ at hcall hof hpages
  generalize hphys : c.phys = phys at hcall hof
  generalize hsize : c.size = size at hcall hof haccepted
  subst hof
  cases hcall with
  | rejected exit hheader => exact ((headerResult_error hheader).1 haccepted).elim
  | noPagemap hheader hfull => omega
  | stopped exit l hexit hheader hc hpos hloaded =>
      obtain ⟨heq, hleft, pages, S, hlogged, hp⟩ := hloaded.complete_of hreached hstarves hplace
      refine ⟨_, l, pages, S, hcontext, hholds, hc, hleft, hlogged, hp, ?_⟩
      split at heq
      · rename_i hrefused
        rw [if_pos hrefused, Option.some_inj.mp heq]
        rfl
      · cases heq
  | faulted l hheader hc hpos hloaded =>
      obtain ⟨heq, _⟩ := hloaded.complete_of hreached hstarves hplace
      split at heq
      · cases heq
      · cases heq
  | entering l hheader hc hpos hloaded =>
      obtain ⟨heq, hleft, pages, S, hlogged, hp⟩ := hloaded.complete_of hreached hstarves hplace
      refine ⟨_, l, pages, S, hcontext, hholds, hc, hleft, hlogged, hp, ?_⟩
      split at heq
      · cases heq
      · rename_i hrefused
        rw [if_neg hrefused]
        rfl

/-! ## Small files -/

/-- The bytes of a number, the least significant one first. -/
def leBytes : ℕ → ℕ → List UInt8
  | 0, _ => []
  | n + 1, x => UInt8.ofNat (x % 256) :: leBytes n (x / 256)

def elfHeader (entry phnum : ℕ) : List UInt8 :=
  [0x7F, 0x45, 0x4C, 0x46] ++ leBytes 20 0 ++ leBytes 8 entry ++ leBytes 8 64 ++ leBytes 16 0 ++
    leBytes 2 phnum ++ leBytes 6 0

def elfProgramHeader (seg : Segment) : List UInt8 :=
  leBytes 4 1 ++ leBytes 4 0 ++ leBytes 8 seg.offset.toNat ++ leBytes 8 seg.vaddr.toNat ++
    leBytes 8 0 ++ leBytes 8 seg.filesz.toNat ++ leBytes 8 seg.memsz.toNat ++ leBytes 8 0

/-- A file with the segments of a list, entered at the given address. -/
def elfFile (entry : ℕ) (segs : List Segment) : List UInt8 :=
  elfHeader entry segs.length ++ segs.flatMap elfProgramHeader

/-- An archive with one file, of the name `a`. -/
def archive (file : List UInt8) : Tarfs.Ramdisk where
  bytes k :=
    if k = 0 then 0x61
    else if Tarfs.sizeField ≤ k ∧ k < Tarfs.sizeField + 11 then
      UInt8.ofNat (0x30 + file.length / 8 ^ (Tarfs.sizeField + 10 - k) % 8)
    else if k < 512 then 0
    else fileByte file (k - 512)
  size := 1024
  physical := by decide

/-- A volume without entries in its root directory. -/
def emptyBpb : Bpb := ⟨512, 1, 1, 1, 0, 0, 1, 0⟩

theorem emptyBpb_finds_nothing (d : Disk) (filename : List UInt8) :
    fat16GetFileSize emptyBpb d filename = 0 := by
  have hroot : emptyBpb.rootDirSize = 0 := by decide
  simp [fat16GetFileSize, scanRoot, hroot]

/-- An empty volume, and the archive. -/
def sampleFiles (file : List UInt8) : Files where
  bpb := emptyBpb
  disk := fun _ => Sector.zero
  ramdisk := some (archive file)

theorem sample_delivers (hlookup : Tarfs.lookup (some (archive file)) [0x61] = some (0, file.length))
    (hpos : 0 < file.length) (hlt : file.length < 2 ^ 31) :
    Delivers (sampleFiles file) [0x61] file := by
  refine tarfs_delivers (r := archive file) ?_ rfl hlookup hpos hlt ?_
  · exact emptyBpb_finds_nothing _ _
  · intro k hk
    have h₀ : ¬ 0 + 512 + k = 0 := by omega
    have h₁ : ¬ (Tarfs.sizeField ≤ 0 + 512 + k ∧ 0 + 512 + k < Tarfs.sizeField + 11) := by
      simp only [Tarfs.sizeField]
      omega
    have h₂ : ¬ 0 + 512 + k < 512 := by omega
    have h₃ : 0 + 512 + k - 512 = k := by omega
    simp only [archive, if_neg h₀, if_neg h₁, if_neg h₂, h₃]

end LispDos.Process
