import LispDos.Kernel.Entry
import LispDos.Verification.Syscall.Isolation

/-! # Programs and the entry code

A system call gives the program all its registers back but those of the result and of `sysret`, an
interrupt of the keyboard gives it everything back, and whatever the program does, the kernel gets
back to the caller of `asm_jump_usermode`. -/

namespace LispDos.Entry

open Foundation.Assembly Syscall Process Relation

variable {L : Layout} {boot lstar next handler : Word} {s s' : State} {c c' : Cpu}
  {forUser : BitVec 16 → Bool} {b : Word} {r : Reg}

/-! ## Where the stack of the kernel lies -/

/-- The `n` bytes under the top of `kstack`. -/
theorem Layout.not_within_var (L : Layout) {n : ℕ} (hn : n ≤ 4096) :
    (Within (L.stackTop - BitVec.ofNat 64 n) n b → ¬ Within L.currentUserRsp 8 b ∧
      ¬ Within L.currentKernelStack 8 b ∧ ¬ Within L.kernelSavedRsp 8 b) := by
  intro hb
  have huser := L.kstack_user
  have hstack := L.kstack_stack
  have hsaved := L.kstack_saved
  simp only [Within, Layout.stackTop] at hb ⊢
  refine ⟨?_, ?_, ?_⟩ <;> bv_omega

/-- The stack on which `process_exec` runs is in the upper half, and apart from the variables and
from `kstack`. -/
structure BootStack (L : Layout) (boot : Word) : Prop where
  upper : ∀ b, Within boot 56 b → 2 ^ 47 ≤ b.toNat
  kstack : ∀ b, Within boot 56 b → ¬ Within L.kstack 4096 b
  user : ∀ b, Within boot 56 b → ¬ Within L.currentUserRsp 8 b
  stack : ∀ b, Within boot 56 b → ¬ Within L.currentKernelStack 8 b
  saved : ∀ b, Within boot 56 b → ¬ Within L.kernelSavedRsp 8 b

theorem Fixed.kept {sp : Word} (h : Fixed L boot b) : L.Kept boot sp b := .inl h

/-- What is fixed is neither on the stack of the kernel nor in `current_user_rsp`, and programs cannot
store there. -/
theorem Fixed.apart (h : Fixed L boot b) (hboot : BootStack L boot) :
    ¬ Within L.currentUserRsp 8 b ∧ ¬ Within L.kstack 4096 b ∧ 2 ^ 47 ≤ b.toNat := by
  have hstack := L.kstack_stack
  have hsaved := L.kstack_saved
  have hupper := L.upper
  simp only [List.forall_mem_cons, List.not_mem_nil, false_implies, implies_true, and_true] at hupper
  obtain ⟨-, hlow₁, hlow₂⟩ := hupper
  rcases h with h | h | h
  · refine ⟨L.user_apart_stack.not_within h, ?_, ?_⟩
    · rw [Within] at h ⊢
      bv_omega
    · rw [Within] at h
      bv_omega
  · refine ⟨L.user_apart_saved.not_within h, ?_, ?_⟩
    · rw [Within] at h ⊢
      bv_omega
    · rw [Within] at h
      bv_omega
  · exact ⟨hboot.user b h, hboot.kstack b h, hboot.upper b h⟩

theorem Layout.within_top {n : ℕ} (hn : n ≤ 4096)
    (hb : Within (L.stackTop - BitVec.ofNat 64 n) n b) : Within L.kstack 4096 b := by
  simp only [Within, Layout.stackTop] at hb ⊢
  bv_omega

/-- What a function keeps whose stack pointer is in `kstack`. -/
theorem Layout.Kept.cases {n : ℕ} (hn : n ≤ 4096)
    (hb : L.Kept boot (L.stackTop - BitVec.ofNat 64 n) b) :
    Fixed L boot b ∨ Within L.currentUserRsp 8 b ∨ Within L.kstack 4096 b := by
  refine hb.imp_right (Or.imp_right fun hb => Layout.within_top hn ?_)
  rw [Within] at hb ⊢
  bv_omega

/-- The framebuffer is apart from what the kernel keeps. -/
def Layout.Clear (L : Layout) (boot : Word) (d : Display) : Prop :=
  ∀ index : Console.Size, index.toNat < d.pixels → ∀ b ∈ d.bytes index,
    ¬ Fixed L boot b ∧ ¬ Within L.currentUserRsp 8 b ∧ ¬ Within L.kstack 4096 b

/-- What the kernel keeps, it does not store to through a pointer. -/
theorem Layout.Clear.not_reached {d : Display} (h : L.Clear boot d) (hboot : BootStack L boot) {n : ℕ}
    (hn : n ≤ 4096) (hb : L.Kept boot (L.stackTop - BitVec.ofNat 64 n) b) : ¬ d.Reached b := by
  have hcases := hb.cases hn
  have hupper : 2 ^ 47 ≤ b.toNat := by
    rcases hcases with hb | hb | hb
    · exact (hb.apart hboot).2.2
    · have huser := L.upper L.currentUserRsp (by simp)
      rw [Within] at hb
      bv_omega
    · have hkstack := L.kstack_upper
      rw [Within] at hb
      bv_omega
  rintro (hlow | ⟨index, hindex, hin⟩)
  · omega
  · obtain ⟨hfixed, huser, hkstack⟩ := h index hindex b hin
    exact hcases.elim hfixed (Or.elim · huser hkstack)

/-! ## `syscall_entry` -/

/-- `current_kernel_stack` is the top of `kstack`. -/
def StackSet (L : Layout) (m : Memory) : Prop := load m L.currentKernelStack = L.stackTop

/-- The registers that the program gets back from a system call. -/
def restored : List Reg := [.rdi, .rsi, .rdx, .r8, .r9, .r10, .r11, .rcx]

/-- What the registers and the memory are when `syscall_handler_c` is called. -/
structure Entered (L : Layout) (c c' : Cpu) : Prop where
  sp : c'.reg .rsp = L.stackTop - 72#64
  num : c'.reg .rdi = c.reg .rax
  arg1 : c'.reg .rsi = c.reg .rdi
  arg2 : c'.reg .rdx = c.reg .rsi
  arg3 : c'.reg .rcx = c.reg .rdx
  saved : ∀ r ∈ calleeSaved, c'.reg r = c.reg r
  seg : c'.seg = c.seg
  row : Row c'.mem (L.stackTop - 72#64) ((.rax :: restored).map c.reg)
  userRsp : load c'.mem L.currentUserRsp = c.reg .rsp
  mem : ∀ b, ¬ Within L.currentUserRsp 8 b → ¬ Within (L.stackTop - 72#64) 72 b →
    c'.mem b = c.mem b

theorem calleeSaved_ne : ∀ r ∈ calleeSaved,
    r ∉ [Reg.rdi, .rsi, .rdx, .rcx] ∧ r ≠ .rsp := by decide

/-- The change to the stack of the kernel. -/
structure Switched (L : Layout) (c c' : Cpu) : Prop where
  sp : c'.reg .rsp = L.stackTop
  others : ∀ r, r ≠ .rsp → c'.reg r = c.reg r
  seg : c'.seg = c.seg
  mem : c'.mem = store c.mem L.currentUserRsp (c.reg .rsp)

theorem switch_spec (hstack : StackSet L c.mem) :
    Switched L c (run [.storeVar .rsp L.currentUserRsp, .loadVar L.currentKernelStack .rsp] c) := by
  have hload := sets_loadVar (Instr.exec c (.storeVar .rsp L.currentUserRsp)) L.currentKernelStack .rsp
  exact ⟨hload.value.trans ((load_store_of_apart L.user_apart_stack).trans hstack), hload.others,
    hload.seg, hload.mem⟩

/-- The arguments of the handler come from the row on the stack. -/
structure Marshalled (c c' : Cpu) : Prop where
  num : c'.reg .rdi = c.reg .rax
  arg1 : c'.reg .rsi = load c.mem (c.reg .rsp + 8#64)
  arg2 : c'.reg .rdx = load c.mem (c.reg .rsp + 16#64)
  arg3 : c'.reg .rcx = load c.mem (c.reg .rsp + 24#64)
  others : ∀ r, r ∉ [Reg.rdi, .rsi, .rdx, .rcx] → c'.reg r = c.reg r
  seg : c'.seg = c.seg
  mem : c'.mem = c.mem

theorem marshal_spec (c : Cpu) : Marshalled c
    (run [.mov .rax .rdi, .load 8#64 .rsp .rsi, .load 16#64 .rsp .rdx, .load 24#64 .rsp .rcx] c) := by
  rw [run_cons, run_cons, run_cons, run_cons, run_nil]
  have h₁ := sets_mov c .rax .rdi
  generalize Instr.exec c (.mov .rax .rdi) = c₁ at h₁ ⊢
  have h₂ := sets_load c₁ 8#64 .rsp .rsi
  generalize Instr.exec c₁ (.load 8#64 .rsp .rsi) = c₂ at h₂ ⊢
  have h₃ := sets_load c₂ 16#64 .rsp .rdx
  generalize Instr.exec c₂ (.load 16#64 .rsp .rdx) = c₃ at h₃ ⊢
  have h₄ := sets_load c₃ 24#64 .rsp .rcx
  generalize Instr.exec c₃ (.load 24#64 .rsp .rcx) = c₄ at h₄ ⊢
  have hsp₁ : c₁.reg .rsp = c.reg .rsp := h₁.others _ (by decide)
  have hsp₂ : c₂.reg .rsp = c.reg .rsp := (h₂.others _ (by decide)).trans hsp₁
  have hsp₃ : c₃.reg .rsp = c.reg .rsp := (h₃.others _ (by decide)).trans hsp₂
  have hmem₂ : c₂.mem = c.mem := h₂.mem.trans h₁.mem
  have hmem₃ : c₃.mem = c.mem := h₃.mem.trans hmem₂
  refine ⟨?_, ?_, ?_, ?_, fun r hr => ?_, ?_, h₄.mem.trans hmem₃⟩
  · rw [h₄.others _ (by decide), h₃.others _ (by decide), h₂.others _ (by decide), h₁.value]
  · rw [h₄.others _ (by decide), h₃.others _ (by decide), h₂.value, h₁.mem, hsp₁]
  · rw [h₄.others _ (by decide), h₃.value, hmem₂, hsp₂]
  · rw [h₄.value, hmem₃, hsp₃]
  · simp only [List.mem_cons, List.not_mem_nil, or_false, not_or] at hr
    rw [h₄.others _ hr.2.2.2, h₃.others _ hr.2.2.1, h₂.others _ hr.2.1, h₁.others _ hr.1]
  · rw [h₄.seg, h₃.seg, h₂.seg, h₁.seg]

theorem syscallEntry_spec (hstack : StackSet L c.mem) :
    Entered L c (run (syscallEntry L) c) := by
  rw [syscallEntry, run_append, run_append]
  have hswitch := switch_spec hstack
  generalize run [.storeVar .rsp L.currentUserRsp, .loadVar L.currentKernelStack .rsp] c = c₁
    at hswitch ⊢
  have hpush := (Pushed.refl c₁).run syscallSaved (by decide) (by decide)
  rw [← pushes] at hpush
  generalize run (pushes syscallSaved) c₁ = c₂ at hpush ⊢
  have hmarshal := marshal_spec c₂
  generalize run [.mov .rax .rdi, .load 8#64 .rsp .rsi, .load 16#64 .rsp .rdx, .load 24#64 .rsp .rcx]
    c₂ = c₃ at hmarshal ⊢
  have hrow : (syscallSaved.map c₁.reg).reverse ++ [] = (.rax :: restored).map c.reg := by
    simp [syscallSaved, restored, hswitch.others]
  rw [hrow] at hpush
  have hsp : c₂.reg .rsp = L.stackTop - 72#64 := by
    rw [hpush.sp, hswitch.sp]
    rfl
  have hwords := hpush.row
  have hframe := hpush.frame
  rw [hsp] at hwords hframe
  refine ⟨?_, ?_, ?_, ?_, ?_, fun r hr => ?_, ?_, ?_, ?_, fun b huser hb => ?_⟩
  · rw [hmarshal.others _ (by decide), hsp]
  · rw [hmarshal.num, hpush.others _ (by decide), hswitch.others _ (by decide)]
  · rw [hmarshal.arg1, hsp]
    exact hwords 1 (by simp [restored])
  · rw [hmarshal.arg2, hsp]
    exact hwords 2 (by simp [restored])
  · rw [hmarshal.arg3, hsp]
    exact hwords 3 (by simp [restored])
  · obtain ⟨hlist, hne⟩ := calleeSaved_ne r hr
    rw [hmarshal.others _ hlist, hpush.others _ hne, hswitch.others _ hne]
  · rw [hmarshal.seg, hpush.seg, hswitch.seg]
  · rw [hmarshal.mem]
    exact hwords
  · rw [hmarshal.mem, load_congr fun b hb => hframe b fun hin =>
      (L.not_within_var (by decide) hin).1 hb, hswitch.mem, load_store]
  · rw [hmarshal.mem, hframe b hb, hswitch.mem, store_of_not_within huser]

/-- The way back: the registers come from the row, and the stack pointer from its variable. -/
structure Restored (c : Cpu) (f : Reg → Word) (sp : Word) (c' : Cpu) : Prop where
  sp : c'.reg .rsp = sp
  taken : ∀ r ∈ restored, c'.reg r = f r
  others : ∀ r, r ≠ .rsp → r ∉ restored → c'.reg r = c.reg r
  seg : c'.seg = c.seg
  mem : c'.mem = c.mem

theorem syscallExit_spec {f : Reg → Word} (hsp : c.reg .rsp = L.stackTop - 72#64)
    (hrow : Row c.mem (L.stackTop - 72#64) ((.rax :: restored).map f)) :
    Restored c f (load c.mem L.currentUserRsp) (run (syscallExit L) c) := by
  rw [syscallExit, run_append, run_append]
  have hadd : Sets c .rsp (c.reg .rsp + 8#64) (run [.addImm 8#64 .rsp] c) := sets_addImm c _ _
  generalize run [.addImm 8#64 .rsp] c = c₁ at hadd ⊢
  rw [List.map_cons, row_cons] at hrow
  have hrest : Row c₁.mem (c₁.reg .rsp) (restored.map f) := by
    rw [hadd.mem, hadd.value, hsp]
    exact hrow.2
  have hpop := run_pops hrest (by decide)
  rw [← pops, restored] at hpop
  generalize run (pops [.rdi, .rsi, .rdx, .r8, .r9, .r10, .r11, .rcx]) c₁ = c₂ at hpop ⊢
  have hload : Sets c₂ .rsp (load c₂.mem L.currentUserRsp)
      (run [.loadVar L.currentUserRsp .rsp] c₂) := sets_loadVar c₂ _ _
  generalize run [.loadVar L.currentUserRsp .rsp] c₂ = c₃ at hload ⊢
  have hmem : c₂.mem = c.mem := hpop.mem.trans hadd.mem
  refine ⟨?_, fun r hr => ?_, fun r hne hr => ?_, ?_, hload.mem.trans hmem⟩
  · rw [hload.value, hmem]
  · rw [hload.others r (fun h => by rw [h] at hr; revert hr; decide), hpop.taken r hr]
  · rw [hload.others r hne, hpop.others r hne hr, hadd.others r hne]
  · rw [hload.seg, hpop.seg, hadd.seg]

/-! ## System calls -/

theorem kept_row {sp : Word} {n : ℕ} (hsp : sp = L.stackTop - BitVec.ofNat 64 n) (hn : n ≤ 4096)
    (hb : Within sp n b) : L.Kept boot sp b := by
  refine .inr (.inr ?_)
  subst hsp
  rw [Within] at hb ⊢
  bv_omega

theorem reg_cases (r : Reg) : r = .rax ∨ r = .rsp ∨ r ∈ restored ∨ r ∈ calleeSaved := by
  cases r <;> decide

theorem saved_not_restored : ∀ r ∈ calleeSaved, r ≠ .rsp ∧ r ∉ restored := by decide

/-- What a program sees of a system call. -/
structure Serviced (L : Layout) (boot next : Word) (s s' : State) : Prop where
  rip : s'.core.rip = next
  rcx : s'.core.reg .rcx = next
  rflags : s'.core.rflags = sysretFlags s.core.rflags
  user : s'.core.isUser = true
  regs : ∀ r, r ≠ .rax → r ≠ .rcx → r ≠ .r11 → s'.core.reg r = s.core.reg r
  result : ∃ dev, (syscallHandlerC s.kernel dev (s.core.reg .rax) (s.core.reg .rdi)
      (s.core.reg .rsi) (s.core.reg .rdx)).ending = .returns (s'.core.reg .rax) ∧
    s'.kernel = (syscallHandlerC s.kernel dev (s.core.reg .rax) (s.core.reg .rdi)
      (s.core.reg .rsi) (s.core.reg .rdx)).kernel
  fixed : ∀ b, Fixed L boot b → s'.core.mem b = s.core.mem b

theorem syscall_reg (u : Core) (hcx : r ≠ .rcx) (h11 : r ≠ .r11) :
    (u.syscall next lstar star fmask).reg r = u.reg r := by
  rw [Core.syscall, set_of_ne h11, set_of_ne hcx]

theorem syscall_rcx (u : Core) : (u.syscall next lstar star fmask).reg .rcx = next := by
  rw [Core.syscall, set_of_ne (by decide), set_self]

theorem syscall_r11 (u : Core) : (u.syscall next lstar star fmask).reg .r11 = u.rflags := by
  rw [Core.syscall, set_self]

theorem sysret_isUser (c : Cpu) : (c.sysret star).isUser = true := by
  show (star.extractLsb' 48 16 + 16#16 ||| 3#16) &&& 3#16 == 3#16
  decide

theorem system_call_serviced (hboot : BootStack L boot) (hstack : StackSet L s.core.mem)
    (hscreen : s.kernel.display.OnScreen) (hclear : L.Clear boot s.kernel.display)
    (haimed : s.core.reg .rax = 3#64 →
      Console.OnScreen s.kernel.display.fb (s.core.reg .rdi) (s.core.reg .rsi))
    (h : SystemCall L boot lstar next s s') : Serviced L boot next s s' := by
  obtain ⟨dev, c, k, user, call⟩ := h
  have henter := syscallEntry_spec (c := (s.core.syscall next lstar star fmask).toCpu) hstack
  generalize run (syscallEntry L) (s.core.syscall next lstar star fmask).toCpu = c₁ at call henter
  have hrun : handlerRun s.kernel dev c₁ = syscallHandlerC s.kernel dev (s.core.reg .rax)
      (s.core.reg .rdi) (s.core.reg .rsi) (s.core.reg .rdx) := by
    rw [handlerRun, henter.num, henter.arg1, henter.arg2, henter.arg3,
      syscall_reg _ (by decide) (by decide), syscall_reg _ (by decide) (by decide),
      syscall_reg _ (by decide) (by decide), syscall_reg _ (by decide) (by decide)]
  have hreached : ∀ b, .write b ∈ (syscallHandlerC s.kernel dev (s.core.reg .rax) (s.core.reg .rdi)
      (s.core.reg .rsi) (s.core.reg .rdx)).log → s.kernel.display.Reached b :=
    syscallHandlerC_reached hscreen dev haimed
  have hmem : ∀ b, L.Kept boot (c₁.reg .rsp) b → c.mem b = c₁.mem b := by
    intro b hb
    refine call.keeps.mem b ⟨hb, fun hin => ?_⟩
    rw [henter.sp] at hb
    rw [hrun] at hin
    exact hclear.not_reached hboot (show 72 ≤ 4096 by decide) hb (hreached b hin)
  have hkept : ∀ b, Within (L.stackTop - 72#64) 72 b → c.mem b = c₁.mem b := by
    intro b hb
    rw [← henter.sp] at hb
    exact hmem b (kept_row henter.sp (by decide) hb)
  have hrow : Row c.mem (L.stackTop - 72#64) ((.rax :: restored).map
      (s.core.syscall next lstar star fmask).reg) :=
    henter.row.congr (by simp [restored]) (by simpa [restored] using hkept)
  have huser : load c.mem L.currentUserRsp = s.core.reg .rsp := by
    rw [load_congr fun b hb => hmem b (.inr (.inl hb)), henter.userRsp,
      syscall_reg _ (by decide) (by decide)]
  have hexit := syscallExit_spec (call.keeps.sp.trans henter.sp) hrow
  rw [huser] at hexit
  generalize run (syscallExit L) c = c₂ at hexit ⊢
  have hrax : c₂.reg .rax = c.reg .rax := hexit.others _ (by decide) (by decide)
  have hregs : ∀ r, r ≠ .rax → r ≠ .rcx → r ≠ .r11 → c₂.reg r = s.core.reg r := by
    intro r hax hcx h11
    have hreg : (s.core.syscall next lstar star fmask).reg r = s.core.reg r := syscall_reg s.core hcx h11
    rw [← hreg]
    rcases reg_cases r with rfl | rfl | hr | hr
    · exact absurd rfl hax
    · rw [hexit.sp, syscall_reg _ hcx h11]
    · exact hexit.taken r hr
    · obtain ⟨hne, hnot⟩ := saved_not_restored r hr
      rw [hexit.others r hne hnot, call.keeps.saved r hr, henter.saved r hr]
  have hrcx : c₂.reg .rcx = next := (hexit.taken .rcx (by decide)).trans (syscall_rcx s.core)
  refine ⟨hrcx, hrcx, ?_, sysret_isUser c₂, hregs, ⟨dev, ?_⟩, fun b hb => ?_⟩
  · show sysretFlags (c₂.reg .r11) = _
    rw [hexit.taken .r11 (by decide), syscall_r11]
  · have hreturns := call.returns
    have hkernel := call.kernel
    rw [hrun] at hreturns hkernel
    rw [← hrax] at hreturns
    exact ⟨hreturns, hkernel.symm⟩
  · obtain ⟨huser, hkstack, -⟩ := hb.apart hboot
    show c₂.mem b = _
    rw [hexit.mem, hmem b hb.kept,
      henter.mem b huser fun hin => hkstack (Layout.within_top (by decide) hin)]
    rfl

/-! ## Interrupts of the keyboard -/

theorem Layout.interruptStack (L : Layout) {u : Core} (user : u.isUser = true) :
    u.interruptStack L.stackTop = L.stackTop := by
  have haligned := congrArg BitVec.toNat L.aligned
  rw [BitVec.toNat_umod] at haligned
  have htop : L.stackTop % 16#64 = 0#64 := by
    apply BitVec.eq_of_toNat_eq
    rw [Layout.stackTop, BitVec.toNat_umod, BitVec.toNat_add]
    simp only [BitVec.toNat_ofNat, Nat.reducePow, Nat.reduceMod] at haligned ⊢
    omega
  rw [Core.interruptStack, if_pos user]
  simp only [htop, BitVec.sub_zero]

theorem keyboard_cases (r : Reg) : r = .rsp ∨ r ∈ keyboardSaved ∨ r ∈ calleeSaved := by
  cases r <;> decide

theorem saved_not_keyboard : ∀ r ∈ calleeSaved, r ≠ .rsp ∧ r ∉ keyboardSaved := by decide

/-- The words that an interrupt of the keyboard stores, the last one first. -/
def keyboardWords (u : Core) : List Word := keyboardSaved.reverse.map u.reg ++ u.frame

theorem keyboardWords_length (u : Core) : (keyboardWords u).length = 14 := rfl

/-- What `isr_keyboard` has done when it calls `keyboard_handler`. -/
structure Caught (u : Core) (top : Word) (c : Cpu) : Prop where
  sp : c.reg .rsp = top - 112#64
  row : Row c.mem (top - 112#64) (keyboardWords u)
  others : ∀ r, r ≠ .rsp → c.reg r = u.reg r
  seg : c.seg = u.seg
  mem : ∀ b, ¬ Within (top - 112#64) 112 b → c.mem b = u.mem b

theorem keyboard_caught (u : Core) (top handler : Word) :
    Caught u (u.interruptStack top)
      (run (pushes keyboardSaved) (u.interrupt top handler 0x08 []).toCpu) := by
  have hframe := interrupt_pushed u top handler 0x08 (show ([] : List Word).length ≤ 1 by decide)
  rw [List.nil_append] at hframe
  have hpush := hframe.run keyboardSaved (by decide) (by simp [keyboardSaved, Core.frame])
  rw [← pushes] at hpush
  generalize run (pushes keyboardSaved) (u.interrupt top handler 0x08 []).toCpu = c at hpush ⊢
  have hregs : (keyboardSaved.map (u.toCpu.set .rsp (u.interruptStack top)).reg).reverse =
      keyboardSaved.reverse.map u.reg := by
    rw [← List.map_reverse]
    refine List.map_congr_left fun r hr => set_of_ne ?_ _
    rintro rfl
    revert hr
    decide
  rw [hregs, ← keyboardWords] at hpush
  have hsp : c.reg .rsp = u.interruptStack top - 112#64 := by
    rw [hpush.sp, keyboardWords_length, set_self]
  have hrow := hpush.row
  have hmem := hpush.frame
  rw [hsp] at hrow hmem
  rw [keyboardWords_length] at hmem
  exact ⟨hsp, hrow, fun r hr => (hpush.others r hr).trans (set_of_ne hr _), hpush.seg, hmem⟩

/-- After `iretq` everything is as before the interrupt, but the segment registers of a program. -/
structure Resumed (forUser : BitVec 16 → Bool) (u u' : Core) : Prop where
  rip : u'.rip = u.rip
  rflags : u'.rflags = u.rflags
  cs : u'.cs = u.cs
  ss : u'.ss = u.ss
  regs : u'.reg = u.reg
  seg : ∀ x, u'.seg x = if u.isUser = true ∧ forUser (u.seg x) = false then 0 else u.seg x

theorem keyboard_resumed {u : Core} {sp : Word} {kept : Word → Prop} (hcaught : Caught u sp c)
    (hcall : Keeps kept c c') (hkept : ∀ b, Within (sp - 112#64) 112 b → kept b)
    (forUser : BitVec 16 → Bool) :
    Resumed forUser u ((run (pops keyboardSaved.reverse) c').iret forUser) ∧
      ((run (pops keyboardSaved.reverse) c').iret forUser).mem = c'.mem := by
  have hrow : Row c'.mem (c'.reg .rsp) (keyboardWords u) := by
    rw [hcall.sp, hcaught.sp]
    refine hcaught.row.congr (by rw [keyboardWords_length]; decide) fun b hb => ?_
    exact hcall.mem b (hkept b hb)
  rw [keyboardWords, row_append] at hrow
  have hpop := run_pops hrow.1 (by decide)
  rw [← pops] at hpop
  generalize run (pops keyboardSaved.reverse) c' = c₂ at hpop ⊢
  have hback : c₂.reg .rsp = c'.reg .rsp + BitVec.ofNat 64 (8 * 9) := hpop.sp
  have hframe : Row c₂.mem (c₂.reg .rsp) u.frame := by
    rw [hpop.mem, hback]
    exact hrow.2
  rw [iret_of_row hframe forUser]
  refine ⟨⟨rfl, rfl, rfl, rfl, funext fun r => ?_, fun x => ?_⟩, hpop.mem⟩
  · show (c₂.set .rsp (u.reg .rsp)).reg r = u.reg r
    rcases keyboard_cases r with rfl | hr | hr
    · exact set_self c₂ _ _
    · have hne : r ≠ .rsp := fun h => by
        rw [h] at hr
        revert hr
        decide
      rw [set_of_ne hne, hpop.taken r (List.mem_reverse.mpr hr)]
    · obtain ⟨hne, hnot⟩ := saved_not_keyboard r hr
      rw [set_of_ne hne, hpop.others r hne (by rwa [List.mem_reverse]), hcall.saved r hr,
        hcaught.others r hne]
  · show (if u.isUser = true ∧ forUser (c₂.seg x) = false then 0 else c₂.seg x) = _
    rw [hpop.seg, hcall.seg, hcaught.seg]

theorem keyboard_interrupted (hboot : BootStack L boot)
    (h : KeyboardInterrupt L boot handler forUser s s') :
    Resumed forUser s.core s'.core ∧ s'.kernel = s.kernel ∧
      ∀ b, Fixed L boot b → s'.core.mem b = s.core.mem b := by
  obtain ⟨c, user, call⟩ := h
  have hcaught := keyboard_caught s.core L.stackTop handler
  rw [L.interruptStack user] at hcaught
  generalize run (pushes keyboardSaved) (s.core.interrupt L.stackTop handler 0x08 []).toCpu = c₁
    at call hcaught
  obtain ⟨hresumed, hmem⟩ := keyboard_resumed hcaught call (fun b hb => by
    rw [hcaught.sp]
    exact kept_row rfl (by decide : 112 ≤ 4096) hb) forUser
  refine ⟨hresumed, rfl, fun b hb => ?_⟩
  obtain ⟨-, hkstack, -⟩ := hb.apart hboot
  show (Cpu.iret _ forUser).mem b = _
  rw [hmem, call.mem b hb.kept, hcaught.mem b fun hin => hkstack (Layout.within_top (by decide) hin)]

/-! ## Late interrupts -/

/-- Where an interrupt of the kernel is stored. -/
theorem kernel_interruptStack (c : Cpu) (rip rflags top : Word) :
    (inKernel c rip rflags).interruptStack top = c.reg .rsp - c.reg .rsp % 16#64 := by
  have hring : (inKernel c rip rflags).isUser = false := by
    show (0x08#16 &&& 3#16 == 3#16) = false
    decide
  rw [Core.interruptStack, hring]
  rfl

theorem interruptStack_le (c : Cpu) (rip rflags top : Word) :
    ((inKernel c rip rflags).interruptStack top).toNat ≤ (c.reg .rsp).toNat ∧
      (c.reg .rsp).toNat ≤ ((inKernel c rip rflags).interruptStack top).toNat + 15 := by
  have hmod : (c.reg .rsp % 16#64).toNat = (c.reg .rsp).toNat % 16 := BitVec.toNat_umod
  have hlt := Nat.mod_lt (c.reg .rsp).toNat (show 16 > 0 by decide)
  have hle := Nat.mod_le (c.reg .rsp).toNat 16
  rw [kernel_interruptStack,
    BitVec.toNat_sub_of_le (by rw [BitVec.le_def, hmod]; exact hle), hmod]
  omega

/-- The words of a late interrupt lie under the stack pointer of the program. -/
theorem late_interrupted {depth : ℕ} (h : LateInterrupt L boot handler depth forUser c c') :
    ∃ (rip rflags sp : Word),
      sp = (inKernel c rip rflags).interruptStack L.stackTop ∧ c'.reg = c.reg ∧
      Row c'.mem (sp - 112#64) (keyboardWords (inKernel c rip rflags)) ∧
      ∀ b, Fixed L boot b →
        ¬ Within (sp - 112#64 - BitVec.ofNat 64 depth) depth b → ¬ Within (sp - 112#64) 112 b →
          c'.mem b = c.mem b := by
  obtain ⟨d, rip, rflags, sp, stack, call⟩ := h
  have hcaught := keyboard_caught (inKernel c rip rflags) L.stackTop handler
  subst stack
  rw [hcaught.sp] at call
  generalize hsp : (inKernel c rip rflags).interruptStack L.stackTop = sp at hcaught call
  generalize run (pushes keyboardSaved)
    ((inKernel c rip rflags).interrupt L.stackTop handler 0x08 []).toCpu = c₁ at call hcaught
  obtain ⟨hresumed, hmem⟩ := keyboard_resumed hcaught call (fun b hb => .inl hb) forUser
  refine ⟨rip, rflags, sp, hsp.symm, hresumed.regs, ?_, fun b hkept hdepth hwords => ?_⟩
  · rw [hmem]
    refine hcaught.row.congr (by rw [keyboardWords_length]; decide) fun b hb => ?_
    exact call.mem b (.inl hb)
  · rw [hmem, call.mem b (.inr ⟨hdepth, hkept⟩), hcaught.mem b hwords]
    rfl

end LispDos.Entry
