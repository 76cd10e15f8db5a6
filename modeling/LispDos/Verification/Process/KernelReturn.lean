import LispDos.Verification.Process.KernelEntry
import LispDos.Verification.Process.Lifecycle

/-! # The return to the kernel

`exception_handler` is given the state of the processor as it was, and after any run of a program the
kernel is back at the caller of `asm_jump_usermode`. -/

namespace LispDos.Entry

open Foundation.Assembly Syscall Process Relation
open Foundation (Run)

variable {L : Layout} {boot lstar next handler rsp0 : Word} {s s' : State} {c c' : Cpu}
  {forUser : BitVec 16 → Bool} {b : Word} {r : Reg} {err : List Word} {num : ℕ}

/-! ## Exceptions -/

/-- The words that a stub pushes, the last one first. -/
def stubWords (num : ℕ) : List Word :=
  BitVec.ofNat 64 num :: if num ∈ isrErrStubs then [] else [0#64]

theorem run_isrStub (num : ℕ) {ws : List Word} (h : Pushed c ws c') (hlen : ws.length ≤ 6) :
    Pushed c (stubWords num ++ ws) (run (isrStub num) c') := by
  rw [isrStub, stubWords, run_append]
  split_ifs
  · exact h.push (by omega) _
  · exact (h.push (by omega) _).push (by rw [List.length_cons]; omega) _

/-- The end of `isr_common_stub`, behind the pushes of the general registers. -/
def isrCommonTail : List Instr :=
  [.fromSeg .ds .rax, .push .rax, .movImm16 0x10#16 .rax, .toSeg .rax .ds, .toSeg .rax .es,
    .toSeg .rax .fs, .toSeg .rax .gs, .mov .rsp .rdi]

/-- The word that stands for `ds`: the other bits are those of `rax`. -/
def dsWord (c : Cpu) : Word := (c.reg .rax).extractLsb' 16 48 ++ c.seg .ds

theorem dsWord_setWidth (c : Cpu) : (dsWord c).setWidth 16 = c.seg .ds := by
  apply BitVec.eq_of_getLsbD_eq
  intro i hi
  rw [dsWord, BitVec.getLsbD_setWidth, BitVec.getLsbD_append]
  simp [hi]

/-- The tail of the stub pushes one more word. -/
structure Tailed (c c' : Cpu) : Prop where
  sp : c'.reg .rsp = (c.push (dsWord c)).reg .rsp
  mem : c'.mem = (c.push (dsWord c)).mem
  arg : c'.reg .rdi = c'.reg .rsp

theorem tail_spec (c : Cpu) : Tailed c (run isrCommonTail c) := by
  rw [isrCommonTail, run_cons, run_cons, run_cons]
  have h₁ := sets_fromSeg c .ds .rax
  generalize Instr.exec c (.fromSeg .ds .rax) = c₁ at h₁ ⊢
  have hsp₁ : c₁.reg .rsp = c.reg .rsp := h₁.others _ (by decide)
  have hpush : Instr.exec c₁ (.push .rax) = c₁.push (dsWord c) := by
    rw [Instr.exec, h₁.value, dsWord]
  have hsp₂ : (c₁.push (dsWord c)).reg .rsp = (c.push (dsWord c)).reg .rsp := by
    rw [push_sp, push_sp, hsp₁]
  have hmem₂ : (c₁.push (dsWord c)).mem = (c.push (dsWord c)).mem := by
    rw [Cpu.push, Cpu.push, h₁.mem, hsp₁]
  rw [hpush]
  generalize c₁.push (dsWord c) = c₂ at hsp₂ hmem₂ ⊢
  have h₃ := sets_movImm16 c₂ 0x10#16 .rax
  generalize Instr.exec c₂ (.movImm16 0x10#16 .rax) = c₃ at h₃ ⊢
  rw [run_cons, run_cons, run_cons, run_cons, run_cons, run_nil]
  have hreg₄ : (Instr.exec (Instr.exec (Instr.exec (Instr.exec c₃ (.toSeg .rax .ds))
      (.toSeg .rax .es)) (.toSeg .rax .fs)) (.toSeg .rax .gs)).reg = c₃.reg := by
    simp only [toSeg_reg]
  have hmem₄ : (Instr.exec (Instr.exec (Instr.exec (Instr.exec c₃ (.toSeg .rax .ds))
      (.toSeg .rax .es)) (.toSeg .rax .fs)) (.toSeg .rax .gs)).mem = c₃.mem := by
    simp only [toSeg_mem]
  generalize Instr.exec (Instr.exec (Instr.exec (Instr.exec c₃ (.toSeg .rax .ds))
    (.toSeg .rax .es)) (.toSeg .rax .fs)) (.toSeg .rax .gs) = c₄ at hreg₄ hmem₄ ⊢
  have h₅ := sets_mov c₄ .rsp .rdi
  generalize Instr.exec c₄ (.mov .rsp .rdi) = c₅ at h₅ ⊢
  have hsp₅ : c₅.reg .rsp = c₄.reg .rsp := h₅.others _ (by decide)
  refine ⟨?_, ?_, h₅.value.trans hsp₅.symm⟩
  · rw [hsp₅, hreg₄, h₃.others _ (by decide), hsp₂]
  · rw [h₅.mem, hmem₄, h₃.mem, hmem₂]

/-- `exception_handler` is called with the registers at `rdi`. -/
structure Delivered (u : Core) (rsp0 : Word) (num : ℕ) (err : List Word) (c : Cpu) : Prop where
  arg : c.reg .rdi = c.reg .rsp
  row : ∃ ds : Word, ds.setWidth 16 = u.seg .ds ∧ Row c.mem (c.reg .rdi)
    (ds :: (isrSaved.reverse.map u.reg ++ (stubWords num ++ (err ++ u.frame))))
  deeper : Deeper (u.toCpu.set .rsp (u.interruptStack rsp0))
    (21 + (stubWords num).length + err.length) c

theorem exception_delivered (u : Core) (rsp0 handler : Word) (num : ℕ) (herr : err.length ≤ 1) :
    Delivered u rsp0 num err
      (run (isrStub num ++ isrCommonStub) (u.interrupt rsp0 handler 0x08 err).toCpu) := by
  have hframe := interrupt_pushed u rsp0 handler 0x08 herr
  have hlen : (err ++ u.frame).length = err.length + 5 := by
    rw [List.length_append]
    rfl
  have hstub : (stubWords num).length ≤ 2 := by
    rw [stubWords]
    split_ifs <;> simp
  have hnum := run_isrStub num hframe (by rw [hlen]; omega)
  rw [isrCommonStub, run_append, run_append]
  generalize run (isrStub num) (u.interrupt rsp0 handler 0x08 err).toCpu = c₁ at hnum ⊢
  have hpush := hnum.run isrSaved (by decide) (by
    rw [List.length_append, hlen, isrSaved]
    simp only [List.length_cons, List.length_nil]
    omega)
  rw [← pushes] at hpush
  generalize run (pushes isrSaved) c₁ = c₂ at hpush ⊢
  have hregs : (isrSaved.map (u.toCpu.set .rsp (u.interruptStack rsp0)).reg).reverse =
      isrSaved.reverse.map u.reg := by
    rw [← List.map_reverse]
    refine List.map_congr_left fun r hr => set_of_ne ?_ _
    rintro rfl
    revert hr
    decide
  rw [hregs] at hpush
  have hcount : (isrSaved.reverse.map u.reg ++ (stubWords num ++ (err ++ u.frame))).length =
      20 + (stubWords num).length + err.length := by
    rw [List.length_append, List.length_append, hlen]
    simp [isrSaved]
    omega
  have hdeeper := hpush.toDeeper
  rw [hcount] at hdeeper
  have hmore := hdeeper.push (by omega) (dsWord c₂)
  have htail := tail_spec c₂
  rw [isrCommonTail] at htail
  generalize run [.fromSeg .ds .rax, .push .rax, .movImm16 0x10#16 .rax, .toSeg .rax .ds,
    .toSeg .rax .es, .toSeg .rax .fs, .toSeg .rax .gs, .mov .rsp .rdi] c₂ = c₃ at htail ⊢
  have hcount' : 21 + (stubWords num).length + err.length =
      20 + (stubWords num).length + err.length + 1 := by omega
  refine ⟨htail.arg, ⟨dsWord c₂, ?_, ?_⟩, ?_, ?_⟩
  · rw [dsWord_setWidth, hpush.seg]
    rfl
  · rw [htail.arg, htail.sp, htail.mem]
    exact push_row hpush.row (by rw [hcount]; omega)
  · rw [htail.sp, hmore.sp, hcount']
  · rw [htail.sp, htail.mem, hcount']
    exact hmore.frame

theorem registersAt_eq {m : Memory} {a : Word} {ws : List Word} (h : Row m a ws)
    (hlen : ws.length = 23) :
    registersAt m a =
      { ds := ws[0], rax := ws[1], rbx := ws[2], rcx := ws[3], rdx := ws[4], rsi := ws[5],
        rdi := ws[6], rbp := ws[7], r8 := ws[8], r9 := ws[9], r10 := ws[10], r11 := ws[11],
        r12 := ws[12], r13 := ws[13], r14 := ws[14], r15 := ws[15], intNo := ws[16],
        errCode := ws[17], rip := ws[18], cs := ws[19], rflags := ws[20], rsp := ws[21],
        ss := ws[22] } := by
  have hword : ∀ (i : ℕ) (hi : i < 23), load m (a + BitVec.ofNat 64 (8 * i)) = ws[i] :=
    fun i hi => h i (by omega)
  rw [registersAt, Registers.mk.injEq]
  refine ⟨?_, ?_, ?_, ?_, ?_, ?_, ?_, ?_, ?_, ?_, ?_, ?_, ?_, ?_, ?_, ?_, ?_, ?_, ?_, ?_, ?_, ?_, ?_⟩ <;>
    exact hword _ (by decide)

/-- Every exception whose stub is the one for its error code hands the registers of the interrupted
code to `exception_handler`, with the number of its vector, whatever the code was and in both
rings. -/
theorem exception_handler_registers (u : Core) (rsp0 handler : Word) (num : ℕ) (err : List Word)
    (herr : err.length ≤ 1) (hmatch : num ∈ isrErrStubs ↔ err ≠ []) :
    let c := run (isrStub num ++ isrCommonStub) (u.interrupt rsp0 handler 0x08 err).toCpu
    (∃ ds : Word, ds.setWidth 16 = u.seg .ds ∧ registersAt c.mem (c.reg .rdi) =
      { ds := ds, rax := u.reg .rax, rbx := u.reg .rbx, rcx := u.reg .rcx, rdx := u.reg .rdx,
        rsi := u.reg .rsi, rdi := u.reg .rdi, rbp := u.reg .rbp, r8 := u.reg .r8, r9 := u.reg .r9,
        r10 := u.reg .r10, r11 := u.reg .r11, r12 := u.reg .r12, r13 := u.reg .r13,
        r14 := u.reg .r14, r15 := u.reg .r15, intNo := BitVec.ofNat 64 num, errCode := err.headD 0,
        rip := u.rip, cs := u.cs.setWidth 64, rflags := u.rflags, rsp := u.reg .rsp,
        ss := u.ss.setWidth 64 }) ∧
      (registersAt c.mem (c.reg .rdi)).fromUser = u.isUser := by
  intro c
  obtain ⟨-, ⟨ds, hds, hrow⟩, -⟩ := exception_delivered u rsp0 handler num herr
  have hwords : stubWords num ++ (err ++ u.frame) =
      BitVec.ofNat 64 num :: err.headD 0 :: u.frame := by
    match err, herr, hmatch with
    | [], _, hmatch => rw [stubWords, if_neg (by simpa using hmatch)]; rfl
    | [e], _, hmatch => rw [stubWords, if_pos (by simpa using hmatch)]; rfl
  rw [hwords] at hrow
  have heq := registersAt_eq hrow rfl
  refine ⟨⟨ds, hds, heq⟩, ?_⟩
  show (registersAt _ _).fromUser = _
  rw [heq]
  show (u.cs.setWidth 64 &&& 3#64 == 3#64) = (u.cs &&& 3#16 == 3#16)
  have hlt : u.cs.toNat < 2 ^ 64 := Nat.lt_of_lt_of_le u.cs.isLt (by decide)
  rw [Bool.eq_iff_iff, beq_iff_eq, beq_iff_eq, BitVec.toNat_eq, BitVec.toNat_eq, BitVec.toNat_and,
    BitVec.toNat_and, BitVec.toNat_setWidth, Nat.mod_eq_of_lt hlt]
  rfl

/-- A program whose words are all the same. -/
def uniformCore (w : Word) (m : Memory) : Core :=
  { reg := fun _ => w, seg := fun _ => 0x1B, mem := m, rip := w, rflags := 0x202, cs := 0x23, ss := 0x1B }

theorem exception_handler_registers_pageFault :
    (registersAt (run (isrStub 14 ++ isrCommonStub)
        ((uniformCore 0x400000 fun _ => 0).interrupt 0 0 0x08 [6#64]).toCpu).mem
      ((run (isrStub 14 ++ isrCommonStub)
        ((uniformCore 0x400000 fun _ => 0).interrupt 0 0 0x08 [6#64]).toCpu).reg .rdi)).fromUser = true :=
  (exception_handler_registers (uniformCore 0x400000 fun _ => 0) 0 0 14 [6#64] (by decide)
    (by decide)).2

/-! ## Runs of a program -/

/-- What `asm_return_to_kernel` takes from the stack, and the address to which it returns. -/
def returnRow (f : Reg → Word) (address : Word) : List Word :=
  [.r15, .r14, .r13, .r12, .rbx, .rbp].map f ++ [address]

/-- A program runs that can be taken down, on a display with the cursor on the screen. -/
structure Ready (L : Layout) (boot : Word) (row : List Word) (d : Display) (s : State) : Prop where
  user : s.core.isUser = true
  stack : StackSet L s.core.mem
  saved : load s.core.mem L.kernelSavedRsp = boot
  row : Row s.core.mem boot row
  shows : Shows d s.kernel

/-- The framebuffer has cells, and is apart from what the kernel keeps. -/
structure Drawable (L : Layout) (boot : Word) (d : Display) : Prop where
  geometry : Console.Geometry d.fb
  clear : L.Clear boot d

variable {row : List Word} {depth : ℕ} {d : Display}

theorem Drawable.of_shows {k : Kernel} (hdraw : Drawable L boot d) (h : Shows d k) :
    k.display.OnScreen ∧ L.Clear boot k.display := by
  refine ⟨h.onScreen hdraw.geometry, ?_⟩
  obtain ⟨t, heq, -⟩ := h
  rw [heq]
  exact hdraw.clear

theorem Ready.keep (h : Ready L boot row d s) (hlen : row.length = 7) (user : s'.core.isUser = true)
    (hmem : ∀ b, Fixed L boot b → s'.core.mem b = s.core.mem b) (shows : Shows d s'.kernel) :
    Ready L boot row d s' where
  user := user
  shows := shows
  stack := (load_congr fun b hb => hmem b (.inl hb)).trans h.stack
  saved := (load_congr fun b hb => hmem b (.inr (.inl hb))).trans h.saved
  row := h.row.congr (by rw [hlen]; decide) fun b hb => hmem b (.inr (.inr (by rwa [hlen] at hb)))

/-- An interrupt under a stack pointer in the lower half takes nothing away either. -/
theorem late_fixed {sp : Word} {depth : ℕ} (hboot : BootStack L boot) (hb : Fixed L boot b)
    (low : depth + 112 ≤ sp.toNat) (high : sp.toNat ≤ 2 ^ 47) :
    ¬ Within (sp - 112#64 - BitVec.ofNat 64 depth) depth b ∧ ¬ Within (sp - 112#64) 112 b := by
  have hupper := (hb.apart hboot).2.2
  constructor
  · rw [Within]
    bv_omega
  · rw [Within]
    bv_omega

/-- A call that sets the cursor names a cell of the screen. -/
def CallAimed (s : State) : Prop := s.core.reg .rax = 3#64 →
  Console.OnScreen s.kernel.display.fb (s.core.reg .rdi) (s.core.reg .rsi)

theorem aimed_getchar (h : s.core.reg .rax = 7#64) : CallAimed s := by
  intro hthree
  rw [h] at hthree
  exact absurd hthree (by decide)

theorem Ready.serviced (h : Ready L boot row d s) (hboot : BootStack L boot)
    (hdraw : Drawable L boot d) (haimed : CallAimed s) (call : SystemCall L boot lstar next s s') :
    Serviced L boot next s s' := by
  obtain ⟨hscreen, hclear⟩ := hdraw.of_shows h.shows
  exact system_call_serviced hboot h.stack hscreen hclear haimed call

theorem Ready.shows_of_serviced (h : Ready L boot row d s) (hdraw : Drawable L boot d)
    (haimed : CallAimed s) (hserviced : Serviced L boot next s s') : Shows d s'.kernel := by
  obtain ⟨dev, hreturns, hkernel⟩ := hserviced.result
  rw [hkernel]
  refine h.shows.step hdraw.geometry (.call dev _ _ _ _ _ hreturns) ?_
  rw [← h.shows.fb]
  exact haimed

/-- No step takes that away. -/
theorem Ready.step (h : Ready L boot row d s) (hboot : BootStack L boot) (hdraw : Drawable L boot d)
    (hlen : row.length = 7) (hstep : Step L boot lstar handler depth forUser s s') :
    Ready L boot row d s' := by
  cases hstep with
  | program moves =>
      refine h.keep hlen moves.stays (fun b hb => moves.mem b (hb.apart hboot).2.2) ?_
      rcases moves.kernel with heq | ⟨v, x, hstore⟩
      · rw [heq]
        exact h.shows
      · exact h.shows.step hdraw.geometry hstore trivial
  | systemCall next call aimed =>
      have hserviced := h.serviced hboot hdraw aimed call
      exact h.keep hlen hserviced.user hserviced.fixed (h.shows_of_serviced hdraw aimed hserviced)
  | keyboard interrupt =>
      obtain ⟨hresumed, hkernel, hfixed⟩ := keyboard_interrupted hboot interrupt
      refine h.keep hlen ?_ hfixed (hkernel ▸ h.shows)
      rw [Core.isUser, hresumed.cs]
      exact h.user
  | late next call low high =>
      obtain ⟨s₁, c, getchar, call, late⟩ := call
      have haimed := aimed_getchar getchar
      have hserviced := h.serviced hboot hdraw haimed call
      have hshows := h.shows_of_serviced hdraw haimed hserviced
      obtain ⟨rip, rflags, sp, hsp, -, -, hmem⟩ := late_interrupted late
      have hle := interruptStack_le s₁.core.toCpu rip rflags L.stackTop
      rw [← hsp, hserviced.regs .rsp (by decide) (by decide) (by decide)] at hle
      have hlow : depth + 112 ≤ sp.toNat := by omega
      refine h.keep hlen (sysret_isUser c) (fun b hb => ?_) hshows
      obtain ⟨hdepth, hwords⟩ := late_fixed hboot hb hlow (by omega)
      exact (hmem b hb hdepth hwords).trans (hserviced.fixed b hb)

/-- A step is one of the process, or none. -/
theorem Step.refines (hboot : BootStack L boot) (hdraw : Drawable L boot d)
    (h : Ready L boot row d s) (hstep : Step L boot lstar handler depth forUser s s') :
    ∃ events, Run UserStep s.kernel events s'.kernel := by
  have hcall : ∀ {next : Word} {s' : State}, CallAimed s → SystemCall L boot lstar next s s' →
      ∃ events, Run UserStep s.kernel events s'.kernel := by
    intro next s' haimed call
    obtain ⟨dev, hreturns, hkernel⟩ := (h.serviced hboot hdraw haimed call).result
    rw [hkernel]
    exact ⟨_, .cons (.call dev _ _ _ _ _ hreturns) (.nil _)⟩
  cases hstep with
  | program moves =>
      rcases moves.kernel with heq | ⟨v, x, hstore⟩
      · rw [heq]
        exact ⟨[], .nil _⟩
      · exact ⟨[.store v x], .cons hstore (.nil _)⟩
  | systemCall next call aimed => exact hcall aimed call
  | keyboard interrupt =>
      rw [(keyboard_interrupted hboot interrupt).2.1]
      exact ⟨[], .nil _⟩
  | late next call low high =>
      obtain ⟨s₁, c, getchar, call, late⟩ := call
      obtain ⟨events, hrun⟩ := hcall (aimed_getchar getchar) call
      exact ⟨events, hrun⟩

/-- No run takes it away, and a run is one of the process. -/
theorem Ready.steps (h : Ready L boot row d s) (hboot : BootStack L boot)
    (hdraw : Drawable L boot d) (hlen : row.length = 7)
    (hrun : ReflTransGen (Step L boot lstar handler depth forUser) s s') :
    Ready L boot row d s' ∧ ∃ events, Run UserStep s.kernel events s'.kernel := by
  induction hrun with
  | refl => exact ⟨h, [], .nil _⟩
  | tail _ hstep ih =>
      obtain ⟨hready, events, hsteps⟩ := ih
      obtain ⟨last, hlast⟩ := hstep.refines hboot hdraw hready
      exact ⟨hready.step hboot hdraw hlen hstep, events ++ last, hsteps.append hlast⟩

/-! ## To user mode and back -/

/-- What `asm_jump_usermode` leaves in the registers and in memory. -/
structure Jumped (L : Layout) (c c' : Cpu) : Prop where
  entry : c'.reg .rcx = c.reg .rdi
  userStack : c'.reg .rsp = c.reg .rsi
  args : c'.reg .rdi = c.reg .rdx
  flags : c'.reg .r11 = 0x202#64
  stack : StackSet L c'.mem
  saved : load c'.mem L.kernelSavedRsp = c.reg .rsp - 48#64
  row : Row c'.mem (c.reg .rsp - 48#64) (returnRow c.reg (load c.mem (c.reg .rsp)))

theorem asmJumpUsermode_spec (hstack : StackSet L c.mem)
    (hboot : BootStack L (c.reg .rsp - 48#64)) : Jumped L c (run (asmJumpUsermode L) c) := by
  rw [asmJumpUsermode, run_append]
  have hpush := (Pushed.refl c).run jumpSaved (by decide) (by decide)
  rw [← pushes, List.append_nil] at hpush
  generalize run (pushes jumpSaved) c = c₁ at hpush ⊢
  have hsp : c₁.reg .rsp = c.reg .rsp - 48#64 := hpush.sp
  have hframe : ∀ b, ¬ Within (c.reg .rsp - 48#64) 48 b → c₁.mem b = c.mem b := by
    have hframe := hpush.frame
    rwa [hsp] at hframe
  have hreturn : c.reg .rsp - 48#64 + BitVec.ofNat 64 (8 * 6) = c.reg .rsp := by bv_omega
  have hrow : Row c₁.mem (c.reg .rsp - 48#64) (returnRow c.reg (load c.mem (c.reg .rsp))) := by
    have hrow := hpush.row
    rw [hsp] at hrow
    rw [returnRow, row_append]
    refine ⟨hrow, row_cons.mpr ⟨?_, fun i hi => absurd hi (Nat.not_lt_zero i)⟩⟩
    rw [List.length_map]
    show load c₁.mem (c.reg .rsp - 48#64 + BitVec.ofNat 64 (8 * 6)) = _
    rw [hreturn]
    refine load_congr fun b hb => hframe b ?_
    rw [Within] at hb ⊢
    bv_omega
  have hstore : run [.storeVar .rsp L.kernelSavedRsp, .mov .rdi .rcx, .mov .rsi .rsp, .mov .rdx .rdi,
      .movImm 0x202#64 .r11] c₁ =
      run [.mov .rdi .rcx, .mov .rsi .rsp, .mov .rdx .rdi, .movImm 0x202#64 .r11]
        { c₁ with mem := store c₁.mem L.kernelSavedRsp (c₁.reg .rsp) } := rfl
  have hregs : ∀ r, r ≠ .rsp → c₁.reg r = c.reg r := hpush.others
  rw [hstore, run_cons, run_cons, run_cons, run_cons, run_nil]
  generalize hc₂ : { c₁ with mem := store c₁.mem L.kernelSavedRsp (c₁.reg .rsp) } = c₂
  have hreg₂ : c₂.reg = c₁.reg := by rw [← hc₂]
  have hmem₂ : c₂.mem = store c₁.mem L.kernelSavedRsp (c.reg .rsp - 48#64) := by rw [← hc₂, hsp]
  have h₃ := sets_mov c₂ .rdi .rcx
  generalize Instr.exec c₂ (.mov .rdi .rcx) = c₃ at h₃ ⊢
  have h₄ := sets_mov c₃ .rsi .rsp
  generalize Instr.exec c₃ (.mov .rsi .rsp) = c₄ at h₄ ⊢
  have h₅ := sets_mov c₄ .rdx .rdi
  generalize Instr.exec c₄ (.mov .rdx .rdi) = c₅ at h₅ ⊢
  have h₆ := sets_movImm c₅ 0x202#64 .r11
  generalize Instr.exec c₅ (.movImm 0x202#64 .r11) = c₆ at h₆ ⊢
  have hmem₆ : c₆.mem = store c₁.mem L.kernelSavedRsp (c.reg .rsp - 48#64) := by
    rw [h₆.mem, h₅.mem, h₄.mem, h₃.mem, hmem₂]
  refine ⟨?_, ?_, ?_, h₆.value, ?_, ?_, ?_⟩
  · rw [h₆.others _ (by decide), h₅.others _ (by decide), h₄.others _ (by decide), h₃.value, hreg₂,
      hregs _ (by decide)]
  · rw [h₆.others _ (by decide), h₅.others _ (by decide), h₄.value, h₃.others _ (by decide), hreg₂,
      hregs _ (by decide)]
  · rw [h₆.others _ (by decide), h₅.value, h₄.others _ (by decide), h₃.others _ (by decide), hreg₂,
      hregs _ (by decide)]
  · rw [StackSet, hmem₆, load_store_of_apart L.stack_apart_saved.symm, load_congr fun b hb =>
      hframe b fun hin => hboot.stack b (hin.mono (by decide)) hb]
    exact hstack
  · rw [hmem₆, load_store]
  · rw [hmem₆]
    exact hrow.congr (show 8 * 7 ≤ 2 ^ 64 by decide) fun b hb =>
      store_of_not_within (hboot.saved b hb)

/-- `asm_return_to_kernel` takes the registers and the address from the row. -/
structure Returned (boot : Word) (f : Reg → Word) (address : Word) (c : Cpu) : Prop where
  address : c.ret.1 = address
  sp : c.ret.2.reg .rsp = boot + 56#64
  saved : ∀ r ∈ calleeSaved, c.ret.2.reg r = f r

theorem asmReturnToKernel_spec {f : Reg → Word} {address : Word}
    (hsaved : load c.mem L.kernelSavedRsp = boot) (hrow : Row c.mem boot (returnRow f address)) :
    Returned boot f address (run (asmReturnToKernel L) c) := by
  rw [asmReturnToKernel, run_append]
  have hload : Sets c .rsp (load c.mem L.kernelSavedRsp)
      (run [.loadVar L.kernelSavedRsp .rsp] c) := sets_loadVar c _ _
  generalize run [.loadVar L.kernelSavedRsp .rsp] c = c₁ at hload ⊢
  have hsp₁ : c₁.reg .rsp = boot := hload.value.trans hsaved
  rw [returnRow, row_append] at hrow
  obtain ⟨hregs, haddress⟩ := hrow
  rw [row_cons] at haddress
  rw [← hload.mem, ← hsp₁] at hregs
  have hpop := run_pops hregs (by decide)
  rw [← pops] at hpop
  generalize run (pops [.r15, .r14, .r13, .r12, .rbx, .rbp]) c₁ = c₂ at hpop ⊢
  have hsp₂ : c₂.reg .rsp = boot + BitVec.ofNat 64 (8 * 6) := by
    rw [← hsp₁]
    exact hpop.sp
  refine ⟨?_, ?_, fun r hr => ?_⟩
  · show load c₂.mem (c₂.reg .rsp) = _
    rw [hpop.mem, hload.mem, hsp₂]
    exact haddress.1
  · show (c₂.set .rsp (c₂.reg .rsp + 8#64)).reg .rsp = _
    rw [set_self, hsp₂]
    bv_omega
  · have hne : ∀ r ∈ calleeSaved, r ≠ .rsp ∧ r ∈ [Reg.r15, .r14, .r13, .r12, .rbx, .rbp] := by decide
    obtain ⟨hsp, hlist⟩ := hne r hr
    show (c₂.set .rsp (c₂.reg .rsp + 8#64)).reg r = _
    rw [set_of_ne hsp, hpop.taken r hlist]

/-- The way into the kernel that a program does not come back from leaves alone what is fixed. -/
theorem Leaves.mem (h : Leaves L boot lstar s c) (hboot : BootStack L boot)
    (hscreen : s.kernel.display.OnScreen) (hclear : L.Clear boot s.kernel.display)
    (hstack : StackSet L s.core.mem) (hb : Fixed L boot b) : c.mem b = s.core.mem b := by
  obtain ⟨huser, hkstack, -⟩ := hb.apart hboot
  cases h with
  | exit next user num keeps =>
      have henter := syscallEntry_spec (c := (s.core.syscall next lstar star fmask).toCpu) hstack
      rw [keeps b hb.kept, henter.mem b huser fun hin => hkstack (Layout.within_top (by decide) hin)]
      rfl
  | exception vector handler cr2 err user one keeps =>
      have hquiet := showAll_quiet hscreen (aimed_shows s.kernel.display.fb
        (.exception (BitVec.ofNat 64 vector) s.core.rip cr2))
      have hshown := fun hin => hclear.not_reached hboot (show 0 ≤ 4096 by decide) (hb.kept)
        (hquiet.reached b hin)
      obtain ⟨-, -, hdeeper⟩ := exception_delivered s.core L.stackTop handler vector one
      have hstub : (stubWords vector).length ≤ 2 := by
        rw [stubWords]
        split_ifs <;> simp
      have hsp := hdeeper.sp
      rw [set_self, L.interruptStack user] at hsp
      rw [keeps b hb.kept hshown, hdeeper.frame b ?_]
      · rfl
      · rw [hsp]
        exact fun hin => hkstack (Layout.within_top (by omega) hin)

/-- A program that can be taken down comes back to where the saved row says. -/
theorem Ready.leave {f : Reg → Word} {address : Word}
    (h : Ready L boot (returnRow f address) d s) (hboot : BootStack L boot)
    (hdraw : Drawable L boot d) (hleaves : Leaves L boot lstar s c) :
    Returned boot f address (run (asmReturnToKernel L) c) := by
  obtain ⟨hscreen, hclear⟩ := hdraw.of_shows h.shows
  have hmem : ∀ b, Fixed L boot b → c.mem b = s.core.mem b :=
    fun b hb => hleaves.mem hboot hscreen hclear h.stack hb
  have hsaved := (load_congr fun b hb => hmem b (.inr (.inl hb))).trans h.saved
  have hrow := h.row.congr (show 8 * 7 ≤ 2 ^ 64 by decide) fun b hb => hmem b (.inr (.inr hb))
  exact asmReturnToKernel_spec hsaved hrow

/-- Variables and `kstack` in the image of the kernel. -/
def sampleLayout : Layout where
  currentUserRsp := 0xFFFFFFFF80003000#64
  currentKernelStack := 0xFFFFFFFF80003008#64
  kernelSavedRsp := 0xFFFFFFFF80003010#64
  kstack := 0xFFFFFFFF80001000#64
  user_apart_stack := by rw [WordsApart]; decide
  user_apart_saved := by rw [WordsApart]; decide
  stack_apart_saved := by rw [WordsApart]; decide
  kstack_user := by decide
  kstack_stack := by decide
  kstack_saved := by decide
  aligned := by decide +kernel
  upper := by
    rw [List.forall_mem_cons, List.forall_mem_cons, List.forall_mem_cons]
    exact ⟨by decide, by decide, by decide, List.forall_mem_nil _⟩
  kstack_upper := by decide

/-- Where `asm_jump_usermode` saves the registers. -/
def sampleBoot : Word := 0xFFFF800000010008#64

theorem sampleBoot_bootStack : BootStack sampleLayout sampleBoot where
  upper b hb := by
    rw [Within, sampleBoot] at hb
    bv_omega
  kstack b hb := by
    simp only [Within, sampleBoot, sampleLayout] at hb ⊢
    bv_omega
  user b hb := by
    simp only [Within, sampleBoot, sampleLayout] at hb ⊢
    bv_omega
  stack b hb := by
    simp only [Within, sampleBoot, sampleLayout] at hb ⊢
    bv_omega
  saved b hb := by
    simp only [Within, sampleBoot, sampleLayout] at hb ⊢
    bv_omega

/-- The framebuffer lies between that stack and the image of the kernel. -/
theorem sampleLayout_clear : sampleLayout.Clear sampleBoot sampleKernel.display := by
  intro index hindex b hb
  have hpixels : sampleKernel.display.pixels = 307200 := by decide
  have haddress : sampleKernel.display.address = 0xFFFF8000FD000000#64 := rfl
  obtain ⟨i, hi, rfl⟩ := LispDos.Memory.mem_addresses hb
  rw [hpixels] at hindex
  rw [haddress]
  simp only [Fixed, Within, sampleBoot, sampleLayout]
  refine ⟨?_, ?_, ?_⟩ <;> bv_omega

theorem sampleLayout_drawable : Drawable sampleLayout sampleBoot sampleKernel.display :=
  ⟨sampleKernel_settled.screen.geometry, sampleLayout_clear⟩

/-- The memory before the jump. -/
def sampleMemory : Memory :=
  store (fun _ => 0) sampleLayout.currentKernelStack sampleLayout.stackTop

/-- A call of `asm_jump_usermode`. -/
def sampleJump : Cpu where
  reg r := if r = .rsp then sampleBoot + 48#64 else 0x400000#64
  seg _ := 0x10
  mem := sampleMemory

/-- The register of the program that the late interrupt puts in the place of each saved one. -/
def replacement : Reg → Reg
  | .r15 => .r10
  | .r14 => .r9
  | .r13 => .r8
  | .r12 => .rsi
  | .rbx => .rdi
  | .rbp => .rdx
  | r => r

theorem late_top (h : boot % 16#64 = 8#64) :
    boot + 104#64 - (boot + 104#64) % 16#64 = boot + 104#64 := by
  have hboot := congrArg BitVec.toNat h
  rw [BitVec.toNat_umod] at hboot
  have hmod : (boot + 104#64) % 16#64 = 0#64 := by
    apply BitVec.eq_of_toNat_eq
    rw [BitVec.toNat_umod, BitVec.toNat_add]
    simp only [BitVec.toNat_ofNat, Nat.reducePow, Nat.reduceMod] at hboot ⊢
    omega
  rw [hmod, BitVec.sub_zero]

/-- A late interrupt under a stack pointer 104 bytes above `boot` replaces the whole saved row. -/
theorem late_replaces (hboot : BootStack L boot) (hdraw : Drawable L boot d)
    (hready : Ready L boot row d s) (haligned : boot % 16#64 = 8#64) (hsp : s.core.reg .rsp = boot + 104#64)
    (hroom : ∀ b, Within L.currentKernelStack 8 b ∨ Within L.kernelSavedRsp 8 b →
      ¬ Within (boot - 8#64) 112 b ∧ ¬ Within (boot - 8#64 - BitVec.ofNat 64 depth) depth b)
    (hcall : LateCall L boot lstar handler next depth forUser s s') :
    Ready L boot (returnRow (fun r => s.core.reg (replacement r)) next) d s' := by
  obtain ⟨s₁, c, getchar, call, late⟩ := hcall
  have haimed := aimed_getchar getchar
  have hserviced := hready.serviced hboot hdraw haimed call
  have hshows := hready.shows_of_serviced hdraw haimed hserviced
  obtain ⟨rip, rflags, sp, htop, -, hrow, hmem⟩ := late_interrupted late
  rw [kernel_interruptStack, hserviced.regs .rsp (by decide) (by decide) (by decide), hsp,
    late_top haligned] at htop
  have hlow : sp - 112#64 = boot - 8#64 := by bv_omega
  rw [hlow] at hrow hmem
  have hvars : ∀ b, Within L.currentKernelStack 8 b ∨ Within L.kernelSavedRsp 8 b →
      c.mem b = s.core.mem b := by
    intro b hb
    obtain ⟨hwords, hdepth⟩ := hroom b hb
    have hfixed : Fixed L boot b := by
      rcases hb with hb | hb
      · exact .inl hb
      · exact .inr (.inl hb)
    exact (hmem b hfixed hdepth hwords).trans (hserviced.fixed b hfixed)
  refine ⟨sysret_isUser c, ?_, ?_, ?_, hshows⟩
  · exact (load_congr fun b hb => hvars b (.inl hb)).trans hready.stack
  · exact (load_congr fun b hb => hvars b (.inr hb)).trans hready.saved
  · have hwords : keyboardWords (inKernel s₁.core.toCpu rip rflags) =
        s₁.core.reg .r11 :: (returnRow (fun r => s₁.core.reg (replacement r)) (s₁.core.reg .rcx) ++
          (s₁.core.reg .rax :: (inKernel s₁.core.toCpu rip rflags).frame)) := rfl
    have hback : boot - 8#64 + 8#64 = boot := BitVec.sub_add_cancel boot 8#64
    rw [hwords, row_cons, hback, row_append, hserviced.rcx] at hrow
    have hregs : ∀ r ∈ [Reg.r15, .r14, .r13, .r12, .rbx, .rbp],
        s₁.core.reg (replacement r) = s.core.reg (replacement r) := by
      intro r hr
      have hne : ∀ r ∈ [Reg.r15, .r14, .r13, .r12, .rbx, .rbp],
          replacement r ≠ .rax ∧ replacement r ≠ .rcx ∧ replacement r ≠ .r11 := by decide
      obtain ⟨hax, hcx, h11⟩ := hne r hr
      exact hserviced.regs _ hax hcx h11
    have hrow' := hrow.2.1
    rw [returnRow, List.map_congr_left hregs, ← returnRow] at hrow'
    exact hrow'

/-- A key comes at once, and another one late. -/
theorem late_call_idle (s : State) (next : Word) (forUser : BitVec 16 → Bool)
    (user : s.core.isUser = true) (hstack : StackSet L s.core.mem) (getchar : s.core.reg .rax = 7#64) :
    ∃ s', LateCall L boot lstar handler next depth forUser s s' := by
  have henter := syscallEntry_spec (c := (s.core.syscall next lstar star fmask).toCpu) hstack
  have hnum := henter.num.trans ((syscall_reg s.core (by decide) (by decide)).trans getchar)
  have hcall : HandlerCall L boot ⟨0x61⟩ s.kernel
      (run (syscallEntry L) (s.core.syscall next lstar star fmask).toCpu)
      ((run (syscallEntry L) (s.core.syscall next lstar star fmask).toCpu).set .rax 0x61) s.kernel := by
    generalize run (syscallEntry L) (s.core.syscall next lstar star fmask).toCpu = c at hnum ⊢
    have hne : ∀ r ∈ calleeSaved, r ≠ .rax := by decide
    refine ⟨⟨set_of_ne (by decide) _, fun r hr => set_of_ne (hne r hr) _, rfl, fun b _ => rfl⟩, ?_, ?_⟩
    · rw [handlerRun, hnum, set_self]
      rfl
    · rw [handlerRun, hnum]
      rfl
  exact ⟨_, .intro s _ _ getchar (.intro s _ _ _ user hcall) (.intro _ _ 0 0 _ rfl ⟨rfl, fun _ _ => rfl,
    rfl, fun _ _ => rfl⟩)⟩

/-- A program that has put its stack pointer above what `asm_jump_usermode` has saved. -/
def sampleCaller : State where
  core :=
    { reg := fun r => if r = .rsp then sampleBoot + 104#64 else 7#64
      seg := fun _ => 0x1B
      mem := store sampleMemory sampleLayout.kernelSavedRsp sampleBoot
      rip := 0x400000, rflags := 0x202, cs := 0x23, ss := 0x1B }
  kernel := sampleKernel

end LispDos.Entry
