import LispDos.Kernel.Lifecycle
import LispDos.Verification.Fat16.Consistency
import LispDos.Verification.Raw.Mapping
import LispDos.Verification.Syscall.Display

/-! # System calls touch only the memory of the program

What the functions of `fat16.c` access through a pointer is bounded by what the handler has
checked: a name by its terminator, the data by its size. What is printed is stored in the
framebuffer, as long as the program leaves the cursor on the screen. -/

namespace LispDos.Syscall

open Foundation Memory Process

variable {b : Bpb} {d : Disk} {buffer : ℕ → UInt8} {size : ℕ}

/-! ## Bounds of the accesses -/

theorem formatLast_le (filename : List UInt8) : formatLast filename ≤ filename.length := by
  dsimp only [formatLast]
  split
  · exact le_rfl
  · split
    · exact Nat.sub_le _ _
    · exact Nat.sub_le _ _

theorem fillReads_lt {n written : ℕ} : ∀ i ∈ fillReads size n written, i < size := by
  induction n generalizing written with
  | zero => simp [fillReads]
  | succ n ih =>
      rw [fillReads]
      split
      · rename_i hlt
        rw [List.forall_mem_cons]
        exact ⟨hlt, ih⟩
      · simp

theorem sectorReads_lt {n written : ℕ} : ∀ i ∈ sectorReads buffer size n written, i < size := by
  induction n generalizing written with
  | zero => simp [sectorReads]
  | succ n ih =>
      rw [sectorReads, List.forall_mem_append]
      exact ⟨fillReads_lt, ih⟩

theorem loopReads_lt (b : Bpb) (buffer : ℕ → UInt8) (size : ℕ) (d : Disk)
    (first current written : ℕ) : ∀ i ∈ loopReads b buffer size d first current written, i < size := by
  fun_induction loopReads b buffer size d first current written with
  | case1 => simp
  | case2 => simp
  | case3 => exact sectorReads_lt
  | case4 d first current written hguard newC d' halloc hnew d'' first' out reads hsize ih =>
      rw [List.forall_mem_append]
      exact ⟨sectorReads_lt, ih⟩
  | case5 => simp

theorem writeReads_lt (b : Bpb) (d : Disk) (filename : List UInt8) (buffer : ℕ → UInt8)
    (size : UInt32) : ∀ i ∈ writeReads b d filename buffer size, i < size.toNat := by
  rw [writeReads]
  split
  · exact loopReads_lt _ _ _ _ _ _ _
  · exact loopReads_lt _ _ _ _ _ _ _
  · simp

/-! ## Logs -/

variable {k u : Kernel} {v arg1 arg2 arg3 : Word} {w : Work} {ops : List Console.Op}
  {events : List UserEvent}

/-- The cursor is on the screen, and the framebuffer lies in the upper half. -/
structure Display.InPlace (s : Display) : Prop extends s.OnScreen where
  upper : 2 ^ 63 ≤ s.address.toNat
  fits : s.address.toNat + 4 * s.pixels ≤ 2 ^ 64

/-- A pixel of the framebuffer is no byte of the program. -/
theorem Display.InPlace.bytes_upper {s : Display} (h : s.InPlace) {index : Console.Size}
    (hindex : index.toNat < s.pixels) (hv : v ∈ s.bytes index) : 2 ^ 63 ≤ v.toNat := by
  obtain ⟨i, hi, rfl⟩ := mem_addresses hv
  have hupper := h.upper
  have hfits := h.fits
  have hfour : (4#64 * index).toNat = 4 * index.toNat := by
    rw [BitVec.toNat_mul, show (4#64 : Word).toNat = 4 from rfl]
    omega
  have hpixel : (s.address + 4#64 * index).toNat = s.address.toNat + 4 * index.toNat := by
    rw [BitVec.toNat_add, hfour]
    omega
  rw [toNat_add_ofNat (by omega), hpixel]
  omega

/-- All accesses of the log below the framebuffer are accesses that the program could make
itself. -/
structure Confined (k : Kernel) (log : List Access) : Prop where
  reads : ∀ v, .read v ∈ log → UserPage k.machine.mem k.root v
  writes : ∀ v, .write v ∈ log → v.toNat < 2 ^ 63 →
    UserPage k.machine.mem k.root v ∧ PageWritable k.machine.mem k.root v

theorem Confined.append {l₁ l₂ : List Access} (h₁ : Confined k l₁) (h₂ : Confined k l₂) :
    Confined k (l₁ ++ l₂) := by
  constructor
  · intro v hv
    exact (List.mem_append.mp hv).elim (h₁.reads v) (h₂.reads v)
  · intro v hv
    exact (List.mem_append.mp hv).elim (h₁.writes v) (h₂.writes v)

theorem not_write_mem_reads (as : List Word) (v : Word) : .write v ∉ reads as := by
  simp [reads]

theorem confined_reads {as : List Word} (h : ∀ a ∈ as, UserPage k.machine.mem k.root a) :
    Confined k (reads as) := by
  refine ⟨?_, fun v hv => (not_write_mem_reads as v hv).elim⟩
  intro v hv
  obtain ⟨a, ha, heq⟩ := List.mem_map.mp hv
  rw [← Access.read.inj heq]
  exact h a ha

theorem confined_checkString (k : Kernel) (v : Word) : Confined k (reads (k.checkString v).2) :=
  confined_reads (vmmCheckUserString_spec v).1

/-- The bytes of a string that has passed its check, up to its terminator. -/
theorem userPage_string (hcheck : (k.checkString v).1 ≠ false) {n : ℕ}
    (hn : n ≤ (k.string v).length) :
    ∀ a ∈ addresses v (n + 1), UserPage k.machine.mem k.root a := by
  have htrue : (vmmCheckUserString k.machine.mem k.root v).1 = true := by
    simpa [Kernel.checkString] using hcheck
  obtain ⟨len, hlen⟩ := (vmmCheckUserString_spec v).2 htrue
  intro a ha
  obtain ⟨i, hi, rfl⟩ := mem_addresses ha
  rw [Kernel.string, hlen.length_eq] at hn
  exact hlen.pages i (by omega)

theorem confined_nameReads (hcheck : (k.checkString v).1 ≠ false) : Confined k (k.nameReads v) :=
  confined_reads (userPage_string hcheck (formatLast_le _))

/-- What is shown stays in the framebuffer. -/
theorem Quiet.upper (h : Quiet k w) (hplace : k.display.InPlace) :
    ∀ v, .write v ∈ w.log → 2 ^ 63 ≤ v.toNat := by
  intro v hv
  obtain ⟨index, hindex, hin⟩ := h.stores v hv
  exact hplace.bytes_upper hindex hin

theorem Quiet.confined (h : Quiet k w) (hplace : k.display.InPlace)
    (hreads : ∀ v, .read v ∈ w.log → UserPage k.machine.mem k.root v) : Confined k w.log :=
  ⟨hreads, fun v hv hlow => absurd (h.upper hplace v hv) (Nat.not_le.mpr hlow)⟩

/-! ## Handlers -/

/-- What a handler guarantees: below the framebuffer it stays in the memory of the program, and if
one of its checks fails it returns -1 and has changed neither memory nor the volume. -/
structure Guarded (k : Kernel) (rejected : Prop) (run : SyscallRun) : Prop where
  confined : Confined k run.log
  refuses : rejected → run.ending = .returns failed ∧ run.kernel.machine = k.machine ∧
    run.kernel.disk = k.disk ∧ ∀ v, .write v ∈ run.log → 2 ^ 63 ≤ v.toNat

/-- The check of a string has failed. -/
theorem guarded_of_not_string {rejected : Prop} :
    Guarded k rejected ⟨.returns failed, k, reads (k.checkString v).2, ops⟩ :=
  ⟨confined_checkString k v,
    fun _ => ⟨rfl, rfl, rfl, fun a ha => (not_write_mem_reads _ a ha).elim⟩⟩

theorem sysWrite_guarded (hplace : k.display.InPlace) (arg2 : Word) :
    Guarded k ((k.checkString arg2).1 = false) (sysWrite k arg2) := by
  dsimp only [sysWrite]
  split
  · exact guarded_of_not_string
  · rename_i hcheck
    have hprints := vgaPrint_prints hplace.toOnScreen arg2
    refine ⟨(confined_checkString k arg2).append (hprints.toQuiet.confined hplace ?_),
      fun h => (hcheck h).elim⟩
    intro a ha
    exact userPage_string hcheck (congrArg List.length hprints.data).le a (hprints.reads a ha)

theorem sysFat16GetFileSize_guarded (k : Kernel) (arg1 : Word) :
    Guarded k ((k.checkString arg1).1 = false) (sysFat16GetFileSize k arg1) := by
  dsimp only [sysFat16GetFileSize]
  split
  · exact guarded_of_not_string
  · rename_i hcheck
    exact ⟨(confined_checkString k arg1).append (confined_nameReads hcheck),
      fun h => (hcheck h).elim⟩

/-- What the call shows if it refuses the buffer leaves the cursor alone. -/
theorem aimed_refusedRead (fb : Console.Framebuffer) (arg2 : Word) (size : ℕ) :
    ∀ op ∈ refusedRead arg2 size, Aimed fb op := by
  simp only [refusedRead, List.forall_mem_cons, List.forall_mem_append, List.not_mem_nil,
    false_imp_iff, implies_true, and_true]
  exact ⟨aimed_print _ _, aimed_vgaPrintHex _ _, aimed_print _ _, aimed_vgaPrintHex _ _,
    aimed_print _ _⟩

/-- The size that is checked is the size that bounds the stores. -/
theorem storesLow {arg1 arg2 : Word} {result : ℤ} {stores : List (ℕ × UInt8)}
    (hptr : k.checkPtr arg2 (BitVec.ofNat 64 (fat16GetFileSize k.bpb k.disk (k.string arg1))) true ≠
      false)
    (hread : fat16ReadFile k.bpb k.disk (k.string arg1) = some (result, stores)) :
    ∀ s ∈ stores, UserPage k.machine.mem k.root (arg2 + BitVec.ofNat 64 s.1) ∧
      PageWritable k.machine.mem k.root (arg2 + BitVec.ofNat 64 s.1) := by
  intro s hs
  have hlt := Fat16.fat16GetFileSize_lt k.bpb k.disk (k.string arg1)
  have hbound := Fat16.fat16ReadFile_stores hread s hs
  have htrue : vmmCheckUserPtr k.machine.mem k.root arg2
      (BitVec.ofNat 64 (fat16GetFileSize k.bpb k.disk (k.string arg1))) true = true := by
    simpa [Kernel.checkPtr] using hptr
  obtain ⟨hpage, hwrite⟩ := vmmCheckUserPtr_spec htrue
    (by rw [BitVec.toNat_ofNat, Nat.mod_eq_of_lt (hlt.trans (by decide))]; exact hbound)
  exact ⟨hpage, hwrite rfl⟩

theorem sysFat16ReadFile_guarded (hplace : k.display.InPlace) (arg1 arg2 : Word) :
    Guarded k ((k.checkString arg1).1 = false ∨
      fat16GetFileSize k.bpb k.disk (k.string arg1) ≠ 0 ∧
        k.checkPtr arg2 (BitVec.ofNat 64 (fat16GetFileSize k.bpb k.disk (k.string arg1))) true =
          false) (sysFat16ReadFile k arg1 arg2) := by
  dsimp only [sysFat16ReadFile]
  split_ifs with hcheck hsize hptr
  · exact guarded_of_not_string
  · exact ⟨(confined_checkString k arg1).append (confined_nameReads hcheck),
      fun h => (h.elim hcheck fun h => h.1 hsize).elim⟩
  · have hshown := showAll_quiet hplace.toOnScreen (aimed_refusedRead k.display.fb arg2
      (fat16GetFileSize k.bpb k.disk (k.string arg1)))
    refine ⟨((confined_checkString k arg1).append (confined_nameReads hcheck)).append
      (hshown.confined hplace fun a ha => (showAll_reads k _ a ha).elim),
      fun _ => ⟨rfl, hshown.machine, hshown.volume.2, ?_⟩⟩
    intro v hv
    rcases List.mem_append.mp hv with hv | hv
    · rcases List.mem_append.mp hv with hv | hv
      · exact (not_write_mem_reads _ v hv).elim
      · exact (not_write_mem_reads _ v hv).elim
    · exact hshown.upper hplace v hv
  · have hlog := ((confined_checkString k arg1).append (confined_nameReads hcheck)).append
      (confined_nameReads hcheck)
    split
    · exact ⟨hlog, fun h => (h.elim hcheck fun h => hptr h.2).elim⟩
    · rename_i result stores hread
      refine ⟨hlog.append ⟨?_, ?_⟩, fun h => (h.elim hcheck fun h => hptr h.2).elim⟩
      · intro v hv
        obtain ⟨s, _, heq⟩ := List.mem_map.mp hv
        cases heq
      · intro v hv _
        obtain ⟨a, ha, heq⟩ := List.mem_map.mp hv
        obtain ⟨s, hs, rfl⟩ := List.mem_map.mp ha
        rw [← Access.write.inj heq]
        exact storesLow hptr hread s hs

theorem sysFat16WriteFile_guarded (k : Kernel) (arg1 arg2 arg3 : Word) :
    Guarded k ((k.checkString arg1).1 = false ∨
      k.checkPtr arg2 (BitVec.ofNat 64 (UInt32.ofNat arg3.toNat).toNat) false = false)
      (sysFat16WriteFile k arg1 arg2 arg3) := by
  dsimp only [sysFat16WriteFile]
  split_ifs with hcheck hptr
  · exact guarded_of_not_string
  · exact guarded_of_not_string
  · refine ⟨?_, fun h => (h.elim hcheck hptr).elim⟩
    refine ((confined_checkString k arg1).append (confined_nameReads hcheck)).append
      (confined_reads ?_)
    intro a ha
    obtain ⟨i, hi, rfl⟩ := List.mem_map.mp ha
    have hbound := writeReads_lt _ _ _ _ _ i hi
    have hlt := (UInt32.ofNat arg3.toNat).toNat_lt
    have htrue : vmmCheckUserPtr k.machine.mem k.root arg2
        (BitVec.ofNat 64 (UInt32.ofNat arg3.toNat).toNat) false = true := by
      simpa [Kernel.checkPtr] using hptr
    exact (vmmCheckUserPtr_spec htrue
      (by rw [BitVec.toNat_ofNat, Nat.mod_eq_of_lt (hlt.trans (by decide))]; exact hbound)).1

/-! ## The dispatcher -/

/-- One of the checks that the call makes fails. -/
def Rejected (k : Kernel) (num arg1 arg2 arg3 : Word) : Prop :=
  if num = 1#64 then (k.checkString arg2).1 = false
  else if num = 8#64 then
    let size := fat16GetFileSize k.bpb k.disk (k.string arg1)
    (k.checkString arg1).1 = false ∨
      size ≠ 0 ∧ k.checkPtr arg2 (BitVec.ofNat 64 size) true = false
  else if num = 9#64 then
    (k.checkString arg1).1 = false ∨
      k.checkPtr arg2 (BitVec.ofNat 64 (UInt32.ofNat arg3.toNat).toNat) false = false
  else (k.checkString arg1).1 = false

theorem syscallHandlerC_guarded (hplace : k.display.InPlace) (dev : Devices) {num : Word}
    (hnum : num = 1#64 ∨ num = 8#64 ∨ num = 9#64 ∨ num = 10#64) (arg1 arg2 arg3 : Word) :
    Guarded k (Rejected k num arg1 arg2 arg3) (syscallHandlerC k dev num arg1 arg2 arg3) := by
  rcases hnum with rfl | rfl | rfl | rfl
  · exact sysWrite_guarded hplace arg2
  · exact sysFat16ReadFile_guarded hplace arg1 arg2
  · exact sysFat16WriteFile_guarded k arg1 arg2 arg3
  · exact sysFat16GetFileSize_guarded k arg1

/-- Only the writer can fail to come back: it divides by the size of a sector. -/
theorem syscallHandlerC_returns (k : Kernel) (hspc : 0 < k.bpb.spc) (dev : Devices) {num : Word}
    (hnum : num = 1#64 ∨ num = 8#64 ∨ num = 10#64) (arg1 arg2 arg3 : Word) :
    (syscallHandlerC k dev num arg1 arg2 arg3).ending ≠ .stuck := by
  rcases hnum with rfl | rfl | rfl
  · show (sysWrite k arg2).ending ≠ .stuck
    dsimp only [sysWrite]
    split_ifs <;> simp
  · show (sysFat16ReadFile k arg1 arg2).ending ≠ .stuck
    obtain ⟨r, hr⟩ := Option.isSome_iff_exists.mp
      (Fat16.fat16ReadFile_isSome (d := k.disk) hspc (k.string arg1))
    dsimp only [sysFat16ReadFile]
    rw [hr]
    split_ifs <;> simp
  · show (sysFat16GetFileSize k arg1).ending ≠ .stuck
    dsimp only [sysFat16GetFileSize]
    split_ifs <;> simp

/-! ## Calls that come back -/

/-- What a call of the program may change besides the volume: the cursor, which stays on the screen,
and memory, by stores through a pointer of the program. -/
structure Serves (k k' : Kernel) : Prop where
  cr3 : k'.cr3 = k.cr3
  bpb : k'.bpb = k.bpb
  display : ∃ t, k'.display = { k.display with terminal := t } ∧
    Console.OnScreen k.display.fb t.row t.column
  stores : ∃ (base : Word) (stores : List (ℕ × UInt8)),
    (∀ s ∈ stores, (base + BitVec.ofNat 64 s.1).toNat < 2 ^ 47) ∧
      k'.machine = { k.machine with mem := stores.foldl (fun mem s =>
        storeVirt mem k.root (base + BitVec.ofNat 64 s.1) s.2) k.machine.mem }

/-- At most the volume has changed. -/
theorem serves_of_same {k' : Kernel} (h : k.display.OnScreen) (hcr3 : k'.cr3 = k.cr3)
    (hbpb : k'.bpb = k.bpb) (hdisplay : k'.display = k.display) (hmachine : k'.machine = k.machine) :
    Serves k k' :=
  ⟨hcr3, hbpb, ⟨k.display.terminal, hdisplay, h.cursor⟩, 0#64, [], by simp, hmachine⟩

theorem Quiet.serves (h : Quiet k w) : Serves k w.kernel := by
  obtain ⟨t, heq, hcursor⟩ := h.kernel
  rw [heq]
  exact ⟨rfl, rfl, ⟨t, rfl, hcursor⟩, 0#64, [], by simp, rfl⟩

theorem sysConsole_serves (h : k.display.OnScreen) {op : Console.Op}
    (hop : Aimed k.display.fb op) : Serves k (sysConsole k op).kernel := by
  rw [sysConsole]
  exact (show_quiet h hop).serves

theorem sysWrite_serves (h : k.display.OnScreen) (arg2 : Word) :
    Serves k (sysWrite k arg2).kernel := by
  dsimp only [sysWrite]
  split
  · exact serves_of_same h rfl rfl rfl rfl
  · exact (vgaPrint_prints h arg2).toQuiet.serves

theorem sysFat16ReadFile_serves (h : k.display.OnScreen) (arg1 arg2 : Word) :
    Serves k (sysFat16ReadFile k arg1 arg2).kernel := by
  have hsame : Serves k k := serves_of_same h rfl rfl rfl rfl
  dsimp only [sysFat16ReadFile]
  split_ifs with hcheck hsize hptr
  · exact hsame
  · exact hsame
  · dsimp only
    have hshown := showAll_quiet h (aimed_refusedRead k.display.fb arg2
      (fat16GetFileSize k.bpb k.disk (k.string arg1)))
    exact hshown.serves
  · split
    · exact hsame
    · rename_i result stores hread
      exact ⟨rfl, rfl, hsame.display, arg2, stores,
        fun s hs => (storesLow hptr hread s hs).1.low, rfl⟩

theorem sysFat16WriteFile_serves (h : k.display.OnScreen) (arg1 arg2 arg3 : Word) :
    Serves k (sysFat16WriteFile k arg1 arg2 arg3).kernel := by
  dsimp only [sysFat16WriteFile]
  split_ifs
  · exact serves_of_same h rfl rfl rfl rfl
  · exact serves_of_same h rfl rfl rfl rfl
  · exact serves_of_same h rfl rfl rfl rfl

theorem sysFat16GetFileSize_serves (h : k.display.OnScreen) (arg1 : Word) :
    Serves k (sysFat16GetFileSize k arg1).kernel := by
  dsimp only [sysFat16GetFileSize]
  split_ifs
  · exact serves_of_same h rfl rfl rfl rfl
  · exact serves_of_same h rfl rfl rfl rfl

/-- The handlers one by one. -/
theorem syscallHandlerC_cases {P : SyscallRun → Prop} (dev : Devices) (num arg1 arg2 arg3 : Word)
    (hwrite : P (sysWrite k arg2)) (hclear : P (sysConsole k .clear))
    (hcursor : num = 3#64 → P (sysConsole k (.setCursor arg1 arg2)))
    (hputchar : P (sysConsole k (.putchar (UInt8.ofNat arg1.toNat))))
    (hcolor : P (sysConsole k (.setColor (UInt8.ofNat arg1.toNat) (UInt8.ofNat arg2.toNat))))
    (hread : P (sysFat16ReadFile k arg1 arg2)) (hfile : P (sysFat16WriteFile k arg1 arg2 arg3))
    (hsize : P (sysFat16GetFileSize k arg1)) (hexit : P (sysExit k))
    (hsame : ∀ value, P ⟨.returns value, k, [], []⟩) :
    P (syscallHandlerC k dev num arg1 arg2 arg3) := by
  rw [syscallHandlerC]
  refine iteInduction (fun _ => hwrite) fun _ => ?_
  refine iteInduction (fun _ => hclear) fun _ => ?_
  refine iteInduction hcursor fun _ => ?_
  refine iteInduction (fun _ => hputchar) fun _ => ?_
  refine iteInduction (fun _ => hcolor) fun _ => ?_
  refine iteInduction (fun _ => hsame _) fun _ => ?_
  refine iteInduction (fun _ => hsame _) fun _ => ?_
  refine iteInduction (fun _ => hread) fun _ => ?_
  refine iteInduction (fun _ => hfile) fun _ => ?_
  refine iteInduction (fun _ => hsize) fun _ => ?_
  exact iteInduction (fun _ => hexit) fun _ => hsame _

theorem syscallHandlerC_serves (h : k.display.OnScreen) {dev : Devices} {num value : Word}
    (haimed : num = 3#64 → Console.OnScreen k.display.fb arg1 arg2)
    (hreturns : (syscallHandlerC k dev num arg1 arg2 arg3).ending = .returns value) :
    Serves k (syscallHandlerC k dev num arg1 arg2 arg3).kernel := by
  have hconsole : ∀ op, Aimed k.display.fb op →
      (sysConsole k op).ending = .returns value → Serves k (sysConsole k op).kernel :=
    fun op hop _ => sysConsole_serves h hop
  refine syscallHandlerC_cases (P := fun run => run.ending = .returns value → Serves k run.kernel)
    dev num arg1 arg2 arg3 (fun _ => sysWrite_serves h arg2) (hconsole _ trivial)
    (fun hthree => hconsole _ (haimed hthree)) (hconsole _ (aimed_putchar _ _)) (hconsole _ trivial)
    (fun _ => sysFat16ReadFile_serves h arg1 arg2) (fun _ => sysFat16WriteFile_serves h arg1 arg2 arg3)
    (fun _ => sysFat16GetFileSize_serves h arg1) ?_ (fun _ _ => serves_of_same h rfl rfl rfl rfl)
    hreturns
  intro hexit
  cases hexit

/-- A byte in the lower half, or one of a pixel of the framebuffer. -/
def Display.Reached (s : Display) (v : Word) : Prop :=
  v.toNat < 2 ^ 47 ∨ ∃ index : Console.Size, index.toNat < s.pixels ∧ v ∈ s.bytes index

/-- What a handler stores through a pointer, the program may store itself, or it is a pixel. -/
theorem Quiet.reached (h : Quiet k w) : ∀ v, .write v ∈ w.log → k.display.Reached v :=
  fun v hv => .inr (h.stores v hv)

theorem sysFat16ReadFile_reached (h : k.display.OnScreen) (arg1 arg2 : Word) :
    ∀ v, .write v ∈ (sysFat16ReadFile k arg1 arg2).log → k.display.Reached v := by
  have hname : ∀ v, .write v ∉ reads (k.checkString arg1).2 ++ k.nameReads arg1 := by
    intro v hv
    exact (List.mem_append.mp hv).elim (not_write_mem_reads _ v) (not_write_mem_reads _ v)
  dsimp only [sysFat16ReadFile]
  split_ifs with hcheck hsize hptr
  · exact fun v hv => (not_write_mem_reads _ v hv).elim
  · exact fun v hv => (hname v hv).elim
  · intro v hv
    have hshown := showAll_quiet h (aimed_refusedRead k.display.fb arg2
      (fat16GetFileSize k.bpb k.disk (k.string arg1)))
    exact (List.mem_append.mp hv).elim (fun hv => (hname v hv).elim) (hshown.reached v)
  · have hlog : ∀ v, .write v ∉ reads (k.checkString arg1).2 ++ k.nameReads arg1 ++
        k.nameReads arg1 := by
      intro v hv
      exact (List.mem_append.mp hv).elim (hname v) (not_write_mem_reads _ v)
    split
    · exact fun v hv => (hlog v hv).elim
    · rename_i result stores hread
      intro v hv
      rcases List.mem_append.mp hv with hv | hv
      · exact (hlog v hv).elim
      · obtain ⟨a, ha, heq⟩ := List.mem_map.mp hv
        obtain ⟨store, hs, rfl⟩ := List.mem_map.mp ha
        rw [← Access.write.inj heq]
        exact .inl (storesLow hptr hread store hs).1.low

theorem syscallHandlerC_reached (h : k.display.OnScreen) (dev : Devices) {num : Word}
    (haimed : num = 3#64 → Console.OnScreen k.display.fb arg1 arg2) :
    ∀ v, .write v ∈ (syscallHandlerC k dev num arg1 arg2 arg3).log → k.display.Reached v := by
  have hconsole : ∀ op, Aimed k.display.fb op →
      ∀ v, .write v ∈ (sysConsole k op).log → k.display.Reached v :=
    fun op hop => (show_quiet h hop).reached
  refine syscallHandlerC_cases (P := fun run => ∀ v, .write v ∈ run.log → k.display.Reached v)
    dev num arg1 arg2 arg3 ?_ (hconsole .clear trivial)
    (fun hthree => hconsole (.setCursor arg1 arg2) (haimed hthree))
    (hconsole (.putchar _) (aimed_putchar _ _)) (hconsole (.setColor _ _) trivial)
    (sysFat16ReadFile_reached h arg1 arg2) ?_ ?_ (fun v hv => by cases hv) fun _ v hv => by cases hv
  · dsimp only [sysWrite]
    split_ifs with hcheck
    · exact fun v hv => (not_write_mem_reads _ v hv).elim
    · intro v hv
      exact (List.mem_append.mp hv).elim (fun hv => (not_write_mem_reads _ v hv).elim)
        ((vgaPrint_prints h arg2).toQuiet.reached v)
  · intro v hv
    have hreads : ∀ as bs cs : List Word, .write v ∉ reads as ++ reads bs ++ reads cs := by
      simp [reads]
    dsimp only [sysFat16WriteFile] at hv
    split_ifs at hv
    · exact (not_write_mem_reads _ v hv).elim
    · exact (not_write_mem_reads _ v hv).elim
    · exact (hreads _ _ _ hv).elim
  · intro v hv
    have hreads : ∀ as bs : List Word, .write v ∉ reads as ++ reads bs := by simp [reads]
    dsimp only [sysFat16GetFileSize] at hv
    split_ifs at hv
    · exact (not_write_mem_reads _ v hv).elim
    · exact (hreads _ _ hv).elim

/-! ## Runs of a program -/

/-- A call that sets the cursor names a cell of the screen. -/
def EventAimed (fb : Console.Framebuffer) : UserEvent → Prop
  | .store _ _ => True
  | .call num row col _ _ => num = 3#64 → Console.OnScreen fb row col

theorem setCursor_moves (k : Kernel) (row col : Word) : UserStep k (.call 3#64 row col 0#64 0#64)
    (k.setTerminal { k.display.terminal with row := row, column := col }) :=
  .call ⟨0#64⟩ 3#64 row col 0#64 0#64 rfl

/-- The display is as it was, with the cursor anywhere on the screen. -/
def Shows (s : Display) (k : Kernel) : Prop :=
  ∃ t, k.display = { s with terminal := t } ∧ Console.OnScreen s.fb t.row t.column

theorem Shows.of_onScreen (h : k.display.OnScreen) : Shows k.display k :=
  ⟨k.display.terminal, rfl, h.cursor⟩

theorem Shows.congr {s : Display} (h : Shows s k) (hdisplay : u.display = k.display) : Shows s u := by
  rwa [Shows, hdisplay]

theorem Shows.fb {s : Display} (h : Shows s k) : k.display.fb = s.fb := by
  obtain ⟨t, heq, -⟩ := h
  rw [heq]

theorem Shows.onScreen {s : Display} (h : Shows s k) (hgeom : Console.Geometry s.fb) :
    k.display.OnScreen := by
  obtain ⟨t, heq, hcursor⟩ := h
  rw [heq]
  exact ⟨hgeom, hcursor⟩

theorem Shows.trans {s : Display} (h : Shows s k) (h' : Shows k.display u) : Shows s u := by
  obtain ⟨t, heq, -⟩ := h
  obtain ⟨t', heq', hcursor⟩ := h'
  rw [heq] at heq' hcursor
  exact ⟨t', heq', hcursor⟩

/-- A step of a program that leaves the cursor on the screen. -/
theorem shows_of_step {k' : Kernel} {event : UserEvent} (h : k.display.OnScreen)
    (hstep : UserStep k event k') (haimed : EventAimed k.display.fb event) : Shows k.display k' := by
  cases hstep with
  | store v p x low walk writable => exact .of_onScreen h
  | call dev num arg1 arg2 arg3 value returns =>
      exact (syscallHandlerC_serves h haimed returns).display

theorem Shows.step {s : Display} {k' : Kernel} {event : UserEvent} (hgeom : Console.Geometry s.fb)
    (h : Shows s k) (hstep : UserStep k event k') (haimed : EventAimed s.fb event) : Shows s k' :=
  h.trans (shows_of_step (h.onScreen hgeom) hstep (h.fb ▸ haimed))

/-- A program that sets the cursor on the screen only leaves the rest of the display alone. -/
theorem run_shows (h : k.display.OnScreen) (hrun : Run UserStep k events u)
    (haimed : ∀ event ∈ events, EventAimed k.display.fb event) : Shows k.display u := by
  have hstep : ∀ s event s', Shows k.display s → UserStep s event s' →
      EventAimed k.display.fb event → Shows k.display s' :=
    fun _ _ _ hs hstep hgood => hs.step h.geometry hstep hgood
  exact hrun.preserves hstep (.of_onScreen h) haimed

theorem Shows.inPlace {s : Display} (h : Shows s k) (hplace : s.InPlace) : k.display.InPlace := by
  obtain ⟨t, heq, hcursor⟩ := h
  rw [heq]
  exact ⟨⟨hplace.geometry, hcursor⟩, hplace.upper, hplace.fits⟩

/-- As long as a program sets the cursor on the screen only, the system calls with pointers access
only memory that the program may access itself. The levels are those of the tables in memory; in an
address space that `vmm_new_pagemap` and `vmm_map_page` have built the processor finds the same
pages. -/
theorem syscalls_touch_only_user_memory (hplace : k.display.InPlace)
    (hrun : Run UserStep k events u) (haimed : ∀ event ∈ events, EventAimed k.display.fb event)
    (hspc : 0 < u.bpb.spc) (dev : Devices)
    {num : Word} (hnum : num = 1#64 ∨ num = 8#64 ∨ num = 9#64 ∨ num = 10#64)
    (arg1 arg2 arg3 : Word) :
    (∀ v, .read v ∈ (syscallHandlerC u dev num arg1 arg2 arg3).log →
        UserPage u.machine.mem u.root v) ∧
      (∀ v, .write v ∈ (syscallHandlerC u dev num arg1 arg2 arg3).log → v.toNat < 2 ^ 63 →
        UserPage u.machine.mem u.root v ∧ PageWritable u.machine.mem u.root v) ∧
      (Rejected u num arg1 arg2 arg3 →
        (syscallHandlerC u dev num arg1 arg2 arg3).ending = .returns failed ∧
          (syscallHandlerC u dev num arg1 arg2 arg3).kernel.machine = u.machine ∧
          (syscallHandlerC u dev num arg1 arg2 arg3).kernel.disk = u.disk ∧
          ∀ v, .write v ∈ (syscallHandlerC u dev num arg1 arg2 arg3).log → 2 ^ 63 ≤ v.toNat) ∧
      (num ≠ 9#64 → (syscallHandlerC u dev num arg1 arg2 arg3).ending ≠ .stuck) ∧
      (Raw.Built Raw.BitmapApart u.machine u.cr3 → ∀ v, UserPage u.machine.mem u.root v →
        (∃ e, userWalk u.machine.mem u.root v = some (0, e) ∧
          walk u.machine.mem u.root v = some (0, e)) ∧
        (PageWritable u.machine.mem u.root v →
          ∀ e ∈ levelEntries u.machine.mem u.root v, writable e = true)) := by
  have hguarded := syscallHandlerC_guarded
    ((run_shows hplace.toOnScreen hrun haimed).inPlace hplace) dev hnum arg1 arg2 arg3
  refine ⟨hguarded.confined.reads, hguarded.confined.writes, hguarded.refuses, ?_, ?_⟩
  · intro hne
    exact syscallHandlerC_returns u hspc dev (by tauto) arg1 arg2 arg3
  · intro hbuilt v hv
    exact hv.translates hbuilt.tabled.space

/-! ## A program with a letter -/

theorem letter_cursor : 0 ≤ 8 := by decide

/-- Pages 0, 4, 5 and 7 are in use. Page 7 holds the bitmap, and page 5 the letter `A`. -/
def letterMachine : Raw.Machine :=
  Raw.eightPages 7 (Raw.wordsAt [(7, 0, 0xB1#64), (5, 0, 0x41#64)]) 0 16384#64 letter_cursor

/-- A program with the letter in its only page, at `0x1000`. It may not write there. -/
def letterKernel : Kernel where
  machine := Raw.vmmMapPage (Raw.vmmNewPagemap letterMachine).2 (pageAddr 1) 0x1000#64 0x5000#64 5#64
  cr3 := pageAddr 1
  display := ⟨Console.vgaMode, 0xFFFF8000FD000000#64, fun _ _ => 0, .start⟩
  bpb := Fat16.smallBpb 6
  disk := Fat16.blankDisk

/-- The same program once it has set the cursor. -/
def cursorKernel (row col : Word) : Kernel :=
  letterKernel.setTerminal { Console.Terminal.start with row := row, column := col }

theorem cursorKernel_run (row col : Word) :
    Run UserStep letterKernel [.call 3#64 row col 0#64 0#64] (cursorKernel row col) :=
  .cons (setCursor_moves letterKernel row col) (.nil _)

/-- Memory once the page has been mapped: the tables are on the pages 2, 3 and 6. -/
def letterWords : List (ℕ × ℕ × Word) :=
  [(6, 1, 0x5005#64), (3, 0, tableEntry 6), (7, 0, 0xFF#64), (2, 0, tableEntry 3), (7, 0, 0xBF#64),
    (1, 0, tableEntry 2), (7, 0, 0xB7#64), (7, 0, 0xB3#64), (7, 0, 0xB1#64), (5, 0, 0x41#64)]

theorem letterMachine_new : Raw.vmmNewPagemap letterMachine =
    (pageAddr 1, Raw.eightPages 7 (Raw.wordsAt (letterWords.drop 7)) 1 12288#64 (by decide)) :=
  Raw.eightPages_new 1 0xB1#64 0xB3#64 (by decide) (by decide) (by decide) (by decide) (by decide)
    (by decide)

theorem letterMachine_stores {t : ℕ} (ht : letterMachine.Stores t) : t = 7 := by
  obtain ⟨i, hi, rfl⟩ := ht
  have hbytes : letterMachine.bitmapBytes = 1 := rfl
  have hbase : letterMachine.pmmBitmap = 7 * 4096 := rfl
  rw [hbytes] at hi
  rw [hbase]
  omega

theorem letterMachine_bitmapApart : Raw.BitmapApart letterMachine where
  used := by
    intro t ht
    obtain rfl := letterMachine_stores ht
    rw [mem_clearPages]
    decide
  above := by decide
  kernel := by
    intro t ht hs
    obtain rfl := Raw.isKernelTable_eightPages (by decide) ht
    exact absurd (letterMachine_stores hs) (by decide)

theorem letterMachine_built :
    Raw.Built Raw.BitmapApart (Raw.vmmNewPagemap letterMachine).2 (pageAddr 1) := by
  have hbuilt := Raw.Built.new letterMachine letterMachine_bitmapApart
  rw [letterMachine_new] at hbuilt ⊢
  refine hbuilt (show pageAddr 1 ≠ 0#64 by decide) ?_
  intro ht
  exact absurd (Raw.isKernelTable_eightPages (by decide) ht) (by decide)

/-- The three tables that the mapping opens, on the pages 2, 3 and 6. -/
theorem letterMachine_maps :
    Raw.TablesFresh (Raw.vmmNewPagemap letterMachine).2 (pageAddr 1) 0x1000#64 ∧
      letterKernel.machine = Raw.eightPages 7 (Raw.wordsAt letterWords) 6 0#64 (by decide) := by
  have hroot : (pageAddr 1).toNat / 4096 = 1 := by decide
  have hindices : tableIndex 0x1000#64 39 = 0 ∧ tableIndex 0x1000#64 30 = 0 ∧
      tableIndex 0x1000#64 21 = 0 ∧ tableIndex 0x1000#64 12 = 1 := by decide
  obtain ⟨h₁, h₂, h₃, h₄⟩ := hindices
  have ho₁ : Raw.openTable (Raw.eightPages 7 (Raw.wordsAt (letterWords.drop 7)) 1 12288#64
        (by decide)) 1 0 =
      (2, Raw.eightPages 7 (Raw.wordsAt (letterWords.drop 5)) 2 8192#64 (by decide)) :=
    Raw.eightPages_open 2 0xB3#64 0xB7#64 (by decide) (by decide) (by decide) (by decide) (by decide)
  have ho₂ : Raw.openTable (Raw.eightPages 7 (Raw.wordsAt (letterWords.drop 5)) 2 8192#64
        (by decide)) 2 0 =
      (3, Raw.eightPages 7 (Raw.wordsAt (letterWords.drop 3)) 3 4096#64 (by decide)) :=
    Raw.eightPages_open 3 0xB7#64 0xBF#64 (by decide) (by decide) (by decide) (by decide) (by decide)
  have ho₃ : Raw.openTable (Raw.eightPages 7 (Raw.wordsAt (letterWords.drop 3)) 3 4096#64
        (by decide)) 3 0 =
      (6, Raw.eightPages 7 (Raw.wordsAt (letterWords.drop 1)) 6 0#64 (by decide)) :=
    Raw.eightPages_open 6 0xBF#64 0xFF#64 (by decide) (by decide) (by decide) (by decide) (by decide)
  constructor
  · rw [letterMachine_new]
    simp only [Raw.TablesFresh, hroot, h₁, h₂, h₃, ho₁, ho₂]
    refine ⟨?_, ?_, ?_⟩
    · exact Raw.eightPages_fresh 2 0xB3#64 (L := [1]) (by decide) (by decide) (by decide) (by decide)
        (by decide) (by decide) (by decide)
    · exact Raw.eightPages_fresh 3 0xB7#64 (L := [1, 2]) (by decide) (by decide) (by decide)
        (by decide) (by decide) (by decide) (by decide)
    · exact Raw.eightPages_fresh 6 0xBF#64 (L := [1, 2, 3]) (by decide) (by decide) (by decide)
        (by decide) (by decide) (by decide) (by decide)
  · rw [letterKernel, letterMachine_new]
    simp only [Raw.vmmMapPage, hroot, h₁, h₂, h₃, h₄, ho₁, ho₂, ho₃]
    rfl

theorem letterKernel_built : Raw.Built Raw.BitmapApart letterKernel.machine letterKernel.cr3 :=
  .map _ _ _ _ _ letterMachine_built (by decide) letterMachine_maps.1

theorem letterKernel_inPlace : letterKernel.display.InPlace where
  geometry := ⟨by decide, by decide, by decide⟩
  cursor := ⟨by decide, by decide⟩
  upper := by decide
  fits := by decide

theorem cursorKernel_mem (row col : Word) :
    (cursorKernel row col).machine.mem = Raw.wordsAt letterWords := by
  rw [cursorKernel, setTerminal_machine, letterMachine_maps.2]
  rfl

theorem cursorKernel_root (row col : Word) : (cursorKernel row col).root = 1 := by
  rw [Kernel.root, show (cursorKernel row col).cr3 = pageAddr 1 from rfl]
  decide

/-- The string in the page is the letter. -/
theorem cursorKernel_string (row col : Word) :
    ((cursorKernel row col).checkString 0x1000#64).1 = true ∧
      (cursorKernel row col).load 0x1000#64 = 0x41 := by
  have hpage : checkPage (Raw.wordsAt letterWords) 1 (pageStart 0x1000#64) false = true := by decide
  have hletter : loadVirt (Raw.wordsAt letterWords) 1 0x1000#64 = 0x41 := by decide
  have hend : loadVirt (Raw.wordsAt letterWords) 1 (0x1000#64 + BitVec.ofNat 64 1) = 0 := by decide
  have hfound : findTerminator (Raw.wordsAt letterWords) 1 0x1000#64 = some 1 := by
    refine List.find?_range_eq_some.mpr ⟨decide_eq_true hend, List.mem_range.mpr (by decide), ?_⟩
    intro j hj
    obtain rfl : j = 0 := by omega
    decide
  rw [Kernel.checkString, Kernel.load, cursorKernel_root, cursorKernel_mem]
  refine ⟨?_, hletter⟩
  rw [vmmCheckUserString, dif_pos (show (0x1000#64 : Word) < lowerLimit by decide), if_pos hpage,
    hfound]
  rfl

/-- The letter comes from the page of the program also when it has moved the cursor. -/
theorem syscalls_touch_only_user_memory_letter :
    .read 0x1000#64 ∈ (syscallHandlerC (cursorKernel 2 3) ⟨0#64⟩ 1#64 0#64 0x1000#64 0#64).log ∧
      ∃ e, userWalk letterKernel.machine.mem letterKernel.root 0x1000#64 = some (0, e) := by
  have haimed : ∀ event ∈ [UserEvent.call 3#64 2 3 0#64 0#64],
      EventAimed letterKernel.display.fb event := by
    rw [List.forall_mem_singleton]
    exact fun _ => ⟨by decide, by decide⟩
  obtain ⟨hreads, _, _, _, htranslates⟩ := syscalls_touch_only_user_memory letterKernel_inPlace
    (cursorKernel_run 2 3) haimed (by decide) ⟨0#64⟩ (.inl rfl) 0#64 0x1000#64 0#64
  have hread : .read 0x1000#64 ∈
      (syscallHandlerC (cursorKernel 2 3) ⟨0#64⟩ 1#64 0#64 0x1000#64 0#64).log := by
    rw [syscallHandlerC, if_pos rfl, sysWrite]
    simp only [(cursorKernel_string 2 3).1, Bool.true_eq_false, if_false]
    exact List.mem_append_right _ (vgaPrint_read (by decide))
  obtain ⟨e, he, _⟩ := (htranslates letterKernel_built _ (hreads _ hread)).1
  exact ⟨hread, e, he⟩

/-! ## A cursor beside the screen -/

/-- The first pixel of a letter in this column of the first row is stored at `0x1000`. -/
def strayColumn : Word := 0x1FFFC0C0040#64

theorem strayColumn_pixel :
    .write 0x1000#64 ∈ ((cursorKernel 0 strayColumn).show (.putchar 0x41)).log := by
  have hdraw : Console.Draw.pixel (0 * 16 + strayColumn * 16) 0 ∈
      ((Console.Op.putchar 0x41).exec Console.vgaMode (fun _ _ => 0)
        { Console.Terminal.start with row := 0, column := strayColumn }).2 := by
    decide +kernel
  refine List.mem_flatMap.mpr ⟨_, hdraw, List.mem_map_of_mem ?_⟩
  decide +kernel

/-- With the cursor beside the screen a letter is drawn in a page in which the program may not
write. -/
theorem printing_stores_in_read_only_page :
    Raw.Built Raw.BitmapApart letterKernel.machine letterKernel.cr3 ∧
      letterKernel.display.InPlace ∧
      Run UserStep letterKernel [.call 3#64 0 strayColumn 0#64 0#64] (cursorKernel 0 strayColumn) ∧
      .write 0x1000#64 ∈
        (syscallHandlerC (cursorKernel 0 strayColumn) ⟨0#64⟩ 1#64 0#64 0x1000#64 0#64).log ∧
      ¬ PageWritable (cursorKernel 0 strayColumn).machine.mem (cursorKernel 0 strayColumn).root
        0x1000#64 := by
  obtain ⟨hstring, hletter⟩ := cursorKernel_string 0 strayColumn
  refine ⟨letterKernel_built, letterKernel_inPlace, cursorKernel_run 0 strayColumn, ?_, ?_⟩
  · rw [syscallHandlerC, if_pos rfl, sysWrite]
    simp only [hstring, Bool.true_eq_false, if_false]
    refine List.mem_append_right _ (vgaPrint_log (by decide) (by rw [hletter]; decide) _ ?_)
    rw [hletter]
    exact strayColumn_pixel
  · rw [cursorKernel_root, cursorKernel_mem]
    intro h
    exact absurd (h 0x5005#64 (by decide)) (by decide)

end LispDos.Syscall
