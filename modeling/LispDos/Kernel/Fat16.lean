import LispDos.Kernel.FatTable

/-! # The FAT16 file system

The functions of `kernel/fat16.c` over an explicit disk. The statics of the source are
functions of the boot sector `b`, which no operation changes. -/

namespace LispDos

/-! ## File names -/

/-- `if (c >= 'a' && c <= 'z') c -= 32`. -/
def fatUpper (c : UInt8) : UInt8 :=
  if 0x61 ≤ c ∧ c ≤ 0x7A then c - 32 else c

/-- Copies at most `room` characters up to a terminator or a stop character, and
returns the unread rest. A C string is the list of its bytes; the end of the list and
a zero byte both terminate it. -/
def formatChars (stop : UInt8 → Bool) : ℕ → List UInt8 → List UInt8 × List UInt8
  | 0, cs => ([], cs)
  | _ + 1, [] => ([], [])
  | room + 1, c :: cs =>
      if c = 0 ∨ stop c then ([], c :: cs)
      else
        let (out, rest) := formatChars stop room cs
        (fatUpper c :: out, rest)

def padName (width : ℕ) (cs : List UInt8) : List UInt8 :=
  (cs ++ List.replicate width 0x20).take width

/-- `format_fat_name`: the 11 bytes of a directory name. The extension starts at the
first dot, and later dots belong to it. -/
def formatFatName (filename : List UInt8) : List UInt8 :=
  let (base, rest) := formatChars (· = 0x2E) 8 filename
  let rest := rest.dropWhile (fun c => c ≠ 0 ∧ c ≠ 0x2E)
  let ext :=
    match rest with
    | [] => []
    | c :: cs => if c = 0x2E then (formatChars (fun _ => false) 3 cs).1 else []
  padName 8 base ++ padName 3 ext

/-! ## Directory entries -/

/-- The fields of `struct fat16_dir_entry` that the driver reads; the name holds the
eight name bytes and the three extension bytes. -/
structure DirEntry where
  name : List UInt8
  attributes : UInt8
  firstCluster : ℕ
  fileSize : ℕ
  deriving DecidableEq

/-- `entries[i].name[0]`. -/
def DirEntry.mark (e : DirEntry) : UInt8 := e.name.headD 0

/-- `entries[i]` of a root directory sector. -/
def dirEntryAt (s : Sector) (i : ℕ) : DirEntry where
  name := (List.range 11).map fun j => s.byte (32 * i + j)
  attributes := s.byte (32 * i + 11)
  firstCluster := s.le16 (32 * i + 26)
  fileSize := s.le32 (32 * i + 28)

/-- The stores of step 3 of `fat16_write_file`; the other bytes of the slot stay. -/
def storeDirEntry (s : Sector) (i : ℕ) (e : DirEntry) : Sector :=
  let s := (List.range 11).foldl (fun s j => s.setByte (32 * i + j) (e.name.getD j 0)) s
  let s := s.setByte (32 * i + 11) e.attributes
  let s := s.setLe16 (32 * i + 26) e.firstCluster
  s.setLe32 (32 * i + 28) e.fileSize

/-- The two nested loops over the root directory, left by the first `return` in the
body. -/
def scanRoot {β : Type} (b : Bpb) (d : Disk) (body : Sector → ℕ → ℕ → Option β) : Option β :=
  (List.range b.rootDirSize).findSome? fun sec =>
    let rootSec := ataReadSector d (b.rootDirSector + sec)
    (List.range 16).findSome? fun i => body rootSec sec i

/-- `fat16_get_file_size`. -/
def fat16GetFileSize (b : Bpb) (d : Disk) (filename : List UInt8) : ℕ :=
  let targetName := formatFatName filename
  (scanRoot b d fun rootSec _ i =>
    let e := dirEntryAt rootSec i
    if e.mark = 0 then some 0
    else if e.mark = 0xE5 then none
    else if e.name = targetName ∧ e.attributes &&& 0x10 = 0 then some e.fileSize
    else none).getD 0

/-! ## Cluster chains -/

/-- The loop guard `cluster >= 2 && cluster <= 0xFFEF`. -/
def IsCluster (c : ℕ) : Prop := 2 ≤ c ∧ c ≤ 0xFFEF

instance : DecidablePred IsCluster := fun c => inferInstanceAs (Decidable (2 ≤ c ∧ c ≤ 0xFFEF))

/-- `fat16_alloc_cluster`: the cluster and the disk, cluster 0 when the disk is full,
nothing when the geometry makes it divide by zero. -/
def fat16AllocCluster (b : Bpb) (d : Disk) : Option (ℕ × Disk) :=
  b.totalClusters.map fun totalClusters =>
    let scan := List.range' 2 (min totalClusters 0xFFF0 - 2)
    match scan.find? (fun i => fat16GetFatEntry b d i = 0) with
    | some i => (i, fat16SetFatEntry b d i 0xFFFF)
    | none => (0, d)

/-- The loop that frees a chain, written out three times in the source. A visited
entry is cleared, so the table decreases in the order of `occupied` unless the entry
was already clear, in which case the loop ends. -/
def freeChain (b : Bpb) (d : Disk) (c : ℕ) : Disk :=
  if IsCluster c then freeChain b (fat16SetFatEntry b d c 0) (fat16GetFatEntry b d c) else d
termination_by if IsCluster c then occupied b d 0x10000 + 1 else 0
decreasing_by
  rename_i hc
  rw [if_pos hc]
  split
  · rename_i hnext
    have hne : fat16GetFatEntry b d c ≠ 0 := by
      unfold IsCluster at hnext
      omega
    have hlt : c < 0x10000 := by
      unfold IsCluster at hc
      omega
    have := occupied_lt_of_clear b d hlt hne
    omega
  · omega

/-! ## Reading -/

/-- A store `buffer[offset] = value` into the caller's buffer. -/
abbrev Store := ℕ × UInt8

/-- The sector loop of one cluster in `fat16_read_file`: the stores made and
`bytes_read` afterwards. -/
def readSectors (d : Disk) (size : ℕ) : ℕ → ℕ → ℕ → List Store × ℕ
  | 0, _, bytesRead => ([], bytesRead)
  | n + 1, sector, bytesRead =>
      let tempSec := ataReadSector d sector
      let toCopy := min (size - bytesRead) 512
      let stores := (List.range toCopy).map fun k => (bytesRead + k, tempSec.byte k)
      let bytesRead := bytesRead + toCopy
      if size ≤ bytesRead then (stores, bytesRead)
      else
        let (rest, bytesRead) := readSectors d size n (sector + 1) bytesRead
        (stores ++ rest, bytesRead)

/-- The chain loop of `fat16_read_file`. Nothing when the iterations run out. -/
def readLoop (b : Bpb) (d : Disk) (size : ℕ) : ℕ → ℕ → ℕ → Option (List Store)
  | 0, _, _ => none
  | fuel + 1, cluster, bytesRead =>
      if IsCluster cluster then
        let (stores, bytesRead) := readSectors d size b.spc (b.clusterSector cluster) bytesRead
        if size ≤ bytesRead then some stores
        else (readLoop b d size fuel (fat16GetFatEntry b d cluster) bytesRead).map (stores ++ ·)
      else some []

/-- The chain loop with enough iterations for every chain that ends: a cluster that
copies nothing is possible only with zero sectors per cluster, and then a walk of more
than `0x10000` links repeats itself for ever. -/
def readChain (b : Bpb) (d : Disk) (cluster size : ℕ) : Option (List Store) :=
  readLoop b d size (size + 0x10001) cluster 0

/-- The conversion of a `uint32_t` to the `int` that the functions return. -/
def toInt32 (n : ℕ) : ℤ := Int.bmod n (2 ^ 32)

/-- `fat16_read_file`: the result and the stores into the buffer, or nothing when it
does not return. -/
def fat16ReadFile (b : Bpb) (d : Disk) (filename : List UInt8) : Option (ℤ × List Store) :=
  let targetName := formatFatName filename
  (scanRoot b d fun rootSec _ i =>
    let e := dirEntryAt rootSec i
    if e.mark = 0 then some (some (0, []))
    else if e.mark = 0xE5 then none
    else if e.name = targetName ∧ e.attributes &&& 0x10 = 0 then
      some ((readChain b d e.firstCluster e.fileSize).map fun stores =>
        (toInt32 e.fileSize, stores))
    else none).getD (some (0, []))

/-- The caller's buffer after the stores. -/
def applyStores (out : ℕ → UInt8) (stores : List Store) : ℕ → UInt8 :=
  stores.foldl (fun out s => Function.update out s.1 s.2) out

/-! ## Writing -/

/-- The result of the slot search of `fat16_write_file`: an entry of that name, or the
first free slot if there is one. -/
inductive WriteSlot where
  | existing (sec idx : ℕ)
  | free (slot : Option (ℕ × ℕ))
  deriving DecidableEq

/-- The inner loop of the slot search. An end mark leaves only this loop, so the search
goes on with the next sector; no attribute is tested. -/
def searchSlots (rootSec : Sector) (targetName : List UInt8) (sec : ℕ) :
    List ℕ → Option (ℕ × ℕ) → WriteSlot
  | [], target => .free target
  | i :: is, target =>
      let e := dirEntryAt rootSec i
      if e.mark = 0 ∨ e.mark = 0xE5 then
        let target := target.or (some (sec, i))
        if e.mark = 0 then .free target else searchSlots rootSec targetName sec is target
      else if e.name = targetName then .existing sec i
      else searchSlots rootSec targetName sec is target

/-- The outer loop of the slot search. -/
def searchSectors (b : Bpb) (d : Disk) (targetName : List UInt8) :
    List ℕ → Option (ℕ × ℕ) → WriteSlot
  | [], target => .free target
  | sec :: secs, target =>
      match searchSlots (ataReadSector d (b.rootDirSector + sec)) targetName sec
          (List.range 16) target with
      | .existing sec i => .existing sec i
      | .free target => searchSectors b d targetName secs target

def writeSlot (b : Bpb) (d : Disk) (targetName : List UInt8) : WriteSlot :=
  searchSectors b d targetName (List.range b.rootDirSize) none

/-- `for (k = 0; k < 512 && bytes_written < size; k++) write_buf[k] = buffer[bytes_written++]`,
entered with `n` rounds to go. -/
def fillBuf (buffer : ℕ → UInt8) (size : ℕ) : ℕ → Sector → ℕ → Sector × ℕ
  | 0, buf, written => (buf, written)
  | n + 1, buf, written =>
      if written < size then
        fillBuf buffer size n (buf.setByte (511 - n) (buffer written)) (written + 1)
      else (buf, written)

/-- The sector loop of one cluster in `fat16_write_file`. -/
def writeSectors (buffer : ℕ → UInt8) (size : ℕ) : ℕ → ℕ → Disk → ℕ → Disk × ℕ
  | 0, _, d, written => (d, written)
  | n + 1, sector, d, written =>
      let (buf, written) := fillBuf buffer size 512 Sector.zero written
      writeSectors buffer size n (sector + 1) (ataWriteSector d sector buf) written

/-- Where `fat16_write_file` ends: a division by zero, `return 0` for a full root
directory, `return 0` for a full disk, or `return size`. -/
inductive WriteExit where
  | divideError
  | rootFull
  | diskFull
  | done
  deriving DecidableEq

theorem fillBuf_snd (buffer : ℕ → UInt8) (size n : ℕ) (buf : Sector) (written : ℕ)
    (h : written ≤ size) :
    (fillBuf buffer size n buf written).2 = min size (written + n) := by
  induction n generalizing buf written with
  | zero => simp [fillBuf, h]
  | succ n ih =>
      unfold fillBuf
      split
      · rw [ih _ _ (by omega)]
        omega
      · simp only
        omega

theorem writeSectors_snd (buffer : ℕ → UInt8) (size n sector : ℕ) (d : Disk) (written : ℕ)
    (h : written ≤ size) :
    (writeSectors buffer size n sector d written).2 = min size (written + 512 * n) := by
  induction n generalizing sector d written with
  | zero => simp [writeSectors, h]
  | succ n ih =>
      unfold writeSectors
      have hbuf := fillBuf_snd buffer size 512 Sector.zero written h
      simp only
      rw [ih _ _ _ (by omega), hbuf]
      omega

theorem spc_pos_of_alloc {b : Bpb} {d : Disk} {r : ℕ × Disk}
    (h : fat16AllocCluster b d = some r) : 0 < b.spc := by
  rcases Nat.eq_zero_or_pos b.spc with hz | hpos
  · have hz' : b.sectorsPerCluster = 0 := UInt8.toNat_inj.mp hz
    simp [fat16AllocCluster, Bpb.totalClusters, hz'] at h
  · exact hpos

/-- The allocation loop of `fat16_write_file` with its rollback: where it ends, the
disk and `first_cluster`. -/
def writeLoop (b : Bpb) (buffer : ℕ → UInt8) (size : ℕ) (d : Disk)
    (first current written : ℕ) : WriteExit × Disk × ℕ :=
  if written < size ∨ (size = 0 ∧ first = 0) then
    match _halloc : fat16AllocCluster b d with
    | none => (.divideError, d, first)
    | some (newC, d) =>
        if newC = 0 then
          (.diskFull, if first ≠ 0 then freeChain b d first else d, first)
        else
          let d := if first = 0 then d else fat16SetFatEntry b d current newC
          let first := if first = 0 then newC else first
          let out := writeSectors buffer size b.spc (b.clusterSector newC) d written
          if size = 0 then (.done, out.1, first)
          else writeLoop b buffer size out.1 first newC out.2
  else (.done, d, first)
termination_by size - written
decreasing_by
  have hspc := spc_pos_of_alloc _halloc
  have hlt : written < size := by omega
  rw [writeSectors_snd _ _ _ _ _ _ hlt.le]
  omega

/-- Steps 2 and 3 of `fat16_write_file` for the slot found in step 1. -/
def writeAtSlot (b : Bpb) (d : Disk) (targetName : List UInt8) (buffer : ℕ → UInt8)
    (size sec idx : ℕ) : WriteExit × Disk :=
  match writeLoop b buffer size d 0 0 0 with
  | (.done, d, first) =>
      let rootSec := ataReadSector d (b.rootDirSector + sec)
      let e := { name := targetName, attributes := 0x20, firstCluster := first, fileSize := size }
      (.done, ataWriteSector d (b.rootDirSector + sec) (storeDirEntry rootSec idx e))
  | (exit, d, _) => (exit, d)

/-- `fat16_write_file` with the place where it ends. -/
def fat16WriteRun (b : Bpb) (d : Disk) (filename : List UInt8) (buffer : ℕ → UInt8)
    (size : UInt32) : WriteExit × Disk :=
  let targetName := formatFatName filename
  match writeSlot b d targetName with
  | .existing sec idx =>
      let old := dirEntryAt (ataReadSector d (b.rootDirSector + sec)) idx
      writeAtSlot b (freeChain b d old.firstCluster) targetName buffer size.toNat sec idx
  | .free (some (sec, idx)) => writeAtSlot b d targetName buffer size.toNat sec idx
  | .free none => (.rootFull, d)

/-- The value returned at the end of `fat16_write_file`, if it returns. -/
def WriteExit.result (size : ℕ) : WriteExit → Option ℤ
  | .divideError => none
  | .rootFull => some 0
  | .diskFull => some 0
  | .done => some (toInt32 size)

/-- `fat16_write_file`. -/
def fat16WriteFile (b : Bpb) (d : Disk) (filename : List UInt8) (buffer : ℕ → UInt8)
    (size : UInt32) : Option ℤ × Disk :=
  let run := fat16WriteRun b d filename buffer size
  (run.1.result size.toNat, run.2)

@[simp] theorem fat16WriteFile_snd (b : Bpb) (d : Disk) (filename : List UInt8)
    (buffer : ℕ → UInt8) (size : UInt32) :
    (fat16WriteFile b d filename buffer size).2 = (fat16WriteRun b d filename buffer size).2 := rfl

/-! ## Deleting -/

/-- `fat16_delete_file`: the root sector read before the chain is freed is the one
written back. -/
def fat16DeleteFile (b : Bpb) (d : Disk) (filename : List UInt8) : ℤ × Disk :=
  let targetName := formatFatName filename
  (scanRoot b d fun rootSec sec i =>
    let e := dirEntryAt rootSec i
    if e.mark = 0 then some (0, d)
    else if e.mark = 0xE5 then none
    else if e.name = targetName ∧ e.attributes &&& 0x10 = 0 then
      let d := freeChain b d e.firstCluster
      some (1, ataWriteSector d (b.rootDirSector + sec) (rootSec.setByte (32 * i) 0xE5))
    else none).getD (0, d)

end LispDos
