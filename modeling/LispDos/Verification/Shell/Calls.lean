import LispDos.Verification.Shell.Ideal
import LispDos.Verification.Syscall.Isolation

/-! # System calls of the ideal system

The kernel over a volume that holds the store gives programs the answers of the ideal system. -/

namespace LispDos.Shell

open Console Foundation Memory Process Syscall

variable {b : Bpb} {s : Display} {k k' : Kernel} {i i' : Ideal b} {dev : Devices} {w : Work}
  {v num arg1 arg2 arg3 value : Word} {filename : List UInt8}

/-- The kernel has the machine of the ideal system, a volume that holds its files, and a display on
which the cursor is on the screen. -/
structure Realizes (s : Display) (k : Kernel) (i : Ideal b) : Prop where
  bpb : k.bpb = b
  machine : k.machine = i.machine
  cr3 : k.cr3 = i.cr3
  shows : Syscall.Shows s k
  maxRows : i.maxRows = vgaGetMaxRows s.fb
  volume : ∃ chain, Fat16.Holds b k.disk chain i.store

/-- A write under a name that does not start with the deletion mark, which tears no file. -/
structure Save.Sound (b : Bpb) (s : Save) : Prop where
  named : s.filename.head? ≠ some 0xE5
  consistent : Fat16.Consistent b s.volume

theorem readAnswer_fst (data : List UInt8) : (Fat16.readAnswer data).1 = toInt32 data.length := by
  rw [Fat16.readAnswer]

namespace Realizes

theorem root (h : Realizes s k i) : k.root = i.root := congrArg (fun a : Word => a.toNat / 4096) h.cr3

theorem checkString (h : Realizes s k i) (v : Word) :
    (k.checkString v).1 = (vmmCheckUserString i.machine.mem i.root v).1 := by
  rw [Kernel.checkString, h.machine, h.root]

theorem checkPtr (h : Realizes s k i) (v size : Word) (writeRequired : Bool) :
    k.checkPtr v size writeRequired = vmmCheckUserPtr i.machine.mem i.root v size writeRequired := by
  rw [Kernel.checkPtr, h.machine, h.root]

/-- A call fails where the kernel refuses the string. -/
theorem withString_refused (h : Realizes s k i) (hcheck : (k.checkString v).1 = false)
    (f : List UInt8 → Option (Word × List Op × Ideal b)) :
    i.withString v f = some (failed, [], i) := by
  rw [h.checkString] at hcheck
  rw [Ideal.withString, Ideal.string, if_neg (by rw [hcheck]; decide)]

theorem withString_accepted (h : Realizes s k i) (hcheck : ¬ (k.checkString v).1 = false)
    (f : List UInt8 → Option (Word × List Op × Ideal b)) : i.withString v f = f (k.string v) := by
  rw [h.checkString, Bool.not_eq_false] at hcheck
  rw [Ideal.withString, Ideal.string, if_pos hcheck, Kernel.string, h.machine, h.root]

theorem getFileSize (h : Realizes s k i) (filename : List UInt8) :
    fat16GetFileSize k.bpb k.disk filename = (i.contents filename).length := by
  obtain ⟨chain, hvolume⟩ := h.volume
  rw [h.bpb, hvolume.getFileSize, Ideal.contents]
  cases i.store.get (formatFatName filename) with
  | none => rfl
  | some data => rfl

theorem readFile (h : Realizes s k i) (filename : List UInt8) :
    fat16ReadFile k.bpb k.disk filename = some (Fat16.readAnswer (i.contents filename)) := by
  obtain ⟨chain, hvolume⟩ := h.volume
  rw [h.bpb, hvolume.read, Ideal.contents]
  cases i.store.get (formatFatName filename) with
  | none => rfl
  | some data => rfl

/-- The memory of a program is no part of the volume. -/
theorem setMem (h : Realizes s k i) (mem : PhysMem) :
    Realizes s { k with machine := { k.machine with mem := mem } } (i.setMem mem) where
  bpb := h.bpb
  machine := by rw [h.machine, Ideal.setMem]
  cr3 := h.cr3
  shows := h.shows.congr rfl
  maxRows := h.maxRows
  volume := h.volume

/-- What is shown changes the cursor only. -/
theorem quiet (h : Realizes s k i) (hquiet : Quiet k w) : Realizes s w.kernel i where
  bpb := hquiet.volume.1.trans h.bpb
  machine := hquiet.machine.trans h.machine
  cr3 := hquiet.cr3.trans h.cr3
  shows := h.shows.trans hquiet.serves.display
  maxRows := h.maxRows
  volume := hquiet.volume.2 ▸ h.volume

/-! ## Single calls -/

/-- A call that comes back returns the same value and shows the same as in the ideal system, and
the systems still agree. -/
def Answers (s : Display) (run : SyscallRun) (answer : Option (Word × List Op × Ideal b)) : Prop :=
  ∀ value, run.ending = .returns value →
    ∃ i', answer = some (value, run.shown, i') ∧ Realizes s run.kernel i'

theorem answers_same (h : Realizes s k i) (value : Word) {log : List Access} {shown : List Op} :
    Answers s ⟨.returns value, k, log, shown⟩ (some (value, shown, i)) := by
  intro value' hreturns
  obtain rfl := SyscallEnd.returns.inj hreturns
  exact ⟨i, rfl, h⟩

/-- An operation of the console. -/
theorem console (h : Realizes s k i) (hgeom : Geometry s.fb) {op : Op} (hop : Aimed s.fb op) :
    Answers s (sysConsole k op) (some (0#64, [op], i)) := by
  have hquiet := show_quiet (h.shows.onScreen hgeom) (h.shows.fb ▸ hop)
  exact (h.quiet hquiet).answers_same 0#64

theorem write (h : Realizes s k i) (hgeom : Geometry s.fb) :
    Answers s (sysWrite k arg2) (i.withString arg2 fun data => some (0#64, [.print data], i)) := by
  dsimp only [sysWrite]
  split_ifs with hcheck
  · rw [h.withString_refused hcheck]
    exact h.answers_same failed
  · have hprints := vgaPrint_prints (h.shows.onScreen hgeom) arg2
    rw [h.withString_accepted hcheck, Kernel.string, ← hprints.data]
    exact (h.quiet hprints.toQuiet).answers_same 0#64

theorem size (h : Realizes s k i) :
    Answers s (sysFat16GetFileSize k arg1) (i.withString arg1 fun filename =>
      some (BitVec.ofNat 64 (i.contents filename).length, [], i)) := by
  dsimp only [sysFat16GetFileSize]
  split_ifs with hcheck
  · rw [h.withString_refused hcheck]
    exact h.answers_same failed
  · rw [h.withString_accepted hcheck, h.getFileSize]
    exact h.answers_same _

theorem read (h : Realizes s k i) (hgeom : Geometry s.fb) :
    Answers s (sysFat16ReadFile k arg1 arg2)
      (i.withString arg1 fun filename => some (i.readFile filename arg2)) := by
  dsimp only [sysFat16ReadFile]
  by_cases hcheck : (k.checkString arg1).1 = false
  · rw [if_pos hcheck, h.withString_refused hcheck]
    exact h.answers_same failed
  rw [if_neg hcheck, h.withString_accepted hcheck]
  simp only [h.readFile, h.getFileSize]
  dsimp only [Ideal.readFile]
  by_cases hempty : i.contents (k.string arg1) = []
  · rw [if_pos (List.length_eq_zero_iff.mpr hempty), if_pos hempty]
    exact h.answers_same 0#64
  rw [if_neg (mt List.length_eq_zero_iff.mp hempty), if_neg hempty, h.checkPtr]
  split_ifs with hptr
  · have hshown := showAll_quiet (h.shows.onScreen hgeom) (aimed_refusedRead k.display.fb arg2
      (i.contents (k.string arg1)).length)
    exact (h.quiet hshown).answers_same failed
  · intro value hreturns
    rw [← SyscallEnd.returns.inj hreturns, readAnswer_fst]
    refine ⟨_, rfl, ?_⟩
    rw [Ideal.storeData, ← h.root, ← h.machine]
    exact h.setMem _

/-- A write that leaves the volume consistent stores the file, or changes nothing. -/
theorem stored (h : Realizes s k i) {size : UInt32} (hnamed : filename.head? ≠ some 0xE5)
    (hconsistent : Fat16.Consistent b (fat16WriteFile k.bpb k.disk filename
      (fun x => loadVirt k.machine.mem k.root (v + BitVec.ofNat 64 x)) size).2)
    (hreturns : (fat16WriteFile k.bpb k.disk filename
      (fun x => loadVirt k.machine.mem k.root (v + BitVec.ofNat 64 x)) size).1.elim SyscallEnd.stuck
        (fun _ => .returns 0#64) = .returns value) :
    ∃ i', i.putFile filename (i.load v size.toNat) = some (value, [], i') ∧
      Realizes s { k with disk := (fat16WriteFile k.bpb k.disk filename
        (fun x => loadVirt k.machine.mem k.root (v + BitVec.ofNat 64 x)) size).2 } i' := by
  obtain ⟨chain, hvolume⟩ := h.volume
  have hload : i.load v size.toNat = Fat16.bytesOf
      (fun x => loadVirt k.machine.mem k.root (v + BitVec.ofNat 64 x)) size.toNat := by
    rw [Ideal.load, Fat16.bytesOf, h.machine, h.root]
  rw [hload]
  generalize (fun x => loadVirt k.machine.mem k.root (v + BitVec.ofNat 64 x)) = buffer at *
  rw [h.bpb] at hconsistent hreturns ⊢
  have hvalue : value = 0#64 := by
    cases hresult : (fat16WriteFile b k.disk filename buffer size).1 with
    | none => rw [hresult] at hreturns; cases hreturns
    | some _ => rw [hresult] at hreturns; cases hreturns; rfl
  have hw := hvolume.write hnamed buffer size
  rw [hvalue, Ideal.putFile]
  cases hput : i.store.put (Fat16.need b) (Fat16.clusters b - 2) (formatFatName filename)
      (Fat16.bytesOf buffer size.toNat) with
  | done s =>
      rw [hput] at hw
      exact ⟨_, rfl, rfl, h.machine, h.cr3, h.shows.congr rfl, h.maxRows, hw.2⟩
  | refused =>
      rw [hput] at hw
      exact ⟨i, rfl, rfl, h.machine, h.cr3, h.shows.congr rfl, h.maxRows, hw.2⟩
  | torn =>
      rw [hput] at hw
      exact absurd hconsistent hw.2

/-- A write that leaves the volume consistent is one of the ideal system. -/
theorem save (h : Realizes s k i) (hsaves : ∀ save ∈ callSaves k 9#64 arg1 arg2 arg3, save.Sound b) :
    Answers s (sysFat16WriteFile k arg1 arg2 arg3) (i.withString arg1 fun filename =>
      i.writeFile filename arg2 (UInt32.ofNat arg3.toNat).toNat) := by
  rw [callSaves, if_pos rfl] at hsaves
  by_cases hcheck : (k.checkString arg1).1 = false
  · dsimp only [sysFat16WriteFile]
    rw [if_pos hcheck, h.withString_refused hcheck]
    exact h.answers_same failed
  rw [h.withString_accepted hcheck]
  by_cases hptr : k.checkPtr arg2 (BitVec.ofNat 64 (UInt32.ofNat arg3.toNat).toNat) false = false
  · dsimp only [sysFat16WriteFile, Ideal.writeFile]
    rw [if_neg hcheck, if_pos hptr, if_pos (h.checkPtr _ _ _ ▸ hptr)]
    exact h.answers_same failed
  · rw [if_neg hcheck, if_neg hptr, List.forall_mem_singleton] at hsaves
    obtain ⟨hnamed, hconsistent⟩ := hsaves
    dsimp only [sysFat16WriteFile, Ideal.writeFile] at hconsistent ⊢
    rw [if_neg hcheck, if_neg hptr] at hconsistent ⊢
    rw [if_neg (h.checkPtr _ _ _ ▸ hptr)]
    intro value hreturns
    exact h.stored hnamed hconsistent hreturns

end Realizes

/-! ## Any call -/

/-- The handlers beside what they do in the ideal system. -/
theorem calls_cases {P : SyscallRun → Option (Word × List Op × Ideal b) → Prop} (dev : Devices)
    (num arg1 arg2 arg3 : Word)
    (hwrite : P (sysWrite k arg2) (i.withString arg2 fun data => some (0#64, [.print data], i)))
    (hclear : P (sysConsole k .clear) (some (0#64, [.clear], i)))
    (hcursor : num = 3#64 →
      P (sysConsole k (.setCursor arg1 arg2)) (some (0#64, [.setCursor arg1 arg2], i)))
    (hputchar : P (sysConsole k (.putchar (UInt8.ofNat arg1.toNat)))
      (some (0#64, [.putchar (UInt8.ofNat arg1.toNat)], i)))
    (hcolor : P (sysConsole k (.setColor (UInt8.ofNat arg1.toNat) (UInt8.ofNat arg2.toNat)))
      (some (0#64, [.setColor (UInt8.ofNat arg1.toNat) (UInt8.ofNat arg2.toNat)], i)))
    (hrows : P ⟨.returns (vgaGetMaxRows k.display.fb), k, [], []⟩ (some (i.maxRows, [], i)))
    (hread : P (sysFat16ReadFile k arg1 arg2)
      (i.withString arg1 fun filename => some (i.readFile filename arg2)))
    (hsave : num = 9#64 → P (sysFat16WriteFile k arg1 arg2 arg3) (i.withString arg1 fun filename =>
      i.writeFile filename arg2 (UInt32.ofNat arg3.toNat).toNat))
    (hsize : P (sysFat16GetFileSize k arg1) (i.withString arg1 fun filename =>
      some (BitVec.ofNat 64 (i.contents filename).length, [], i)))
    (hexit : P (sysExit k) none)
    (hsame : ∀ value, P ⟨.returns value, k, [], []⟩ (some (value, [], i))) :
    P (syscallHandlerC k dev num arg1 arg2 arg3) (i.call dev num arg1 arg2 arg3) := by
  have both : ∀ {c : Prop} [Decidable c] {x y : SyscallRun}
      {x' y' : Option (Word × List Op × Ideal b)}, (c → P x x') → (¬ c → P y y') →
        P (if c then x else y) (if c then x' else y') := by
    intro c _ x y x' y' hpos hneg
    by_cases hc : c
    · rw [if_pos hc, if_pos hc]
      exact hpos hc
    · rw [if_neg hc, if_neg hc]
      exact hneg hc
  rw [syscallHandlerC, Ideal.call]
  refine both (fun _ => hwrite) fun _ => ?_
  refine both (fun _ => hclear) fun _ => ?_
  refine both hcursor fun _ => ?_
  refine both (fun _ => hputchar) fun _ => ?_
  refine both (fun _ => hcolor) fun _ => ?_
  refine both (fun _ => hrows) fun _ => ?_
  refine both (fun _ => hsame _) fun _ => ?_
  refine both (fun _ => hread) fun _ => ?_
  refine both hsave fun _ => ?_
  refine both (fun _ => hsize) fun _ => ?_
  exact both (fun _ => hexit) fun _ => hsame _

/-- Every system call that comes back is one of the ideal system, as long as the cursor stays on the
screen and no write tears a file. -/
theorem Realizes.call (h : Realizes s k i) (hgeom : Geometry s.fb)
    (haimed : num = 3#64 → Console.OnScreen s.fb arg1 arg2)
    (hsaves : ∀ save ∈ callSaves k num arg1 arg2 arg3, save.Sound b) :
    Answers s (syscallHandlerC k dev num arg1 arg2 arg3) (i.call dev num arg1 arg2 arg3) := by
  have hrows : vgaGetMaxRows k.display.fb = i.maxRows := by rw [h.shows.fb, h.maxRows]
  refine calls_cases dev num arg1 arg2 arg3 (h.write hgeom) (h.console hgeom trivial)
    (fun hthree => h.console hgeom (haimed hthree)) (h.console hgeom (aimed_putchar _ _))
    (h.console hgeom trivial) ?_ (h.read hgeom) (fun hnine => h.save (hnine ▸ hsaves)) h.size ?_
    fun value => h.answers_same value
  · rw [hrows]
    exact h.answers_same i.maxRows
  · intro value hexit
    cases hexit

end LispDos.Shell
