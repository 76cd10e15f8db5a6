import Mathlib.Algebra.Order.Ring.Nat
import Mathlib.Tactic.Common

/-! # Straight-line code of a 64-bit processor

Registers, memory bytes and the instructions that move words between them. Words lie in memory
with the least byte first. What is stored at the stack pointer by a row of pushes is there for a
row of pops, as long as nothing in between changes it. -/

namespace LispDos.Foundation.Assembly

/-! ## Words in memory -/

abbrev Word := BitVec 64

abbrev Memory := Word → BitVec 8

/-- The word at an address. -/
def load (m : Memory) (a : Word) : Word :=
  m (a + 7#64) ++ m (a + 6#64) ++ m (a + 5#64) ++ m (a + 4#64) ++ m (a + 3#64) ++ m (a + 2#64) ++
    m (a + 1#64) ++ m (a + 0#64)

def store (m : Memory) (a v : Word) : Memory := fun b =>
  if (b - a).toNat < 8 then v.extractLsb' (8 * (b - a).toNat) 8 else m b

/-- The address is one of `n` from `a` on. -/
def Within (a : Word) (n : ℕ) (b : Word) : Prop := (b - a).toNat < n

variable {m m' : Memory} {a b v : Word} {n i : ℕ}

theorem bytes_append (v : Word) :
    v.extractLsb' 56 8 ++ v.extractLsb' 48 8 ++ v.extractLsb' 40 8 ++ v.extractLsb' 32 8 ++
      v.extractLsb' 24 8 ++ v.extractLsb' 16 8 ++ v.extractLsb' 8 8 ++ v.extractLsb' 0 8 = v := by
  apply BitVec.eq_of_getLsbD_eq
  intro i hi
  simp only [BitVec.getLsbD_append, BitVec.getLsbD_extractLsb']
  grind

theorem store_of_lt (m : Memory) (a v : Word) (hi : i < 8) :
    store m a v (a + BitVec.ofNat 64 i) = v.extractLsb' (8 * i) 8 := by
  have hsub : (a + BitVec.ofNat 64 i - a).toNat = i := by bv_omega
  rw [store, hsub, if_pos hi]

theorem store_of_not_within (h : ¬ Within a 8 b) : store m a v b = m b := if_neg h

@[simp] theorem load_store (m : Memory) (a v : Word) : load (store m a v) a = v := by
  rw [load, store_of_lt _ _ _ (by decide), store_of_lt _ _ _ (by decide),
    store_of_lt _ _ _ (by decide), store_of_lt _ _ _ (by decide), store_of_lt _ _ _ (by decide),
    store_of_lt _ _ _ (by decide), store_of_lt _ _ _ (by decide), store_of_lt _ _ _ (by decide)]
  exact bytes_append v

theorem load_congr (h : ∀ b, Within a 8 b → m' b = m b) : load m' a = load m a := by
  have hbyte : ∀ i < 8, m' (a + BitVec.ofNat 64 i) = m (a + BitVec.ofNat 64 i) := by
    intro i hi
    refine h _ ?_
    rw [Within]
    bv_omega
  rw [load, load, hbyte 7 (by decide), hbyte 6 (by decide), hbyte 5 (by decide), hbyte 4 (by decide),
    hbyte 3 (by decide), hbyte 2 (by decide), hbyte 1 (by decide), hbyte 0 (by decide)]

/-- A word that lies apart from another one. -/
def WordsApart (a b : Word) : Prop := 8 ≤ (b - a).toNat ∧ 8 ≤ (a - b).toNat

theorem WordsApart.not_within (h : WordsApart a b) {c : Word} (hc : Within b 8 c) : ¬ Within a 8 c := by
  obtain ⟨hab, hba⟩ := h
  rw [Within] at hc ⊢
  bv_omega

theorem WordsApart.symm (h : WordsApart a b) : WordsApart b a := ⟨h.2, h.1⟩

theorem Within.mono (h : Within a n b) {k : ℕ} (hk : n ≤ k) : Within a k b := Nat.lt_of_lt_of_le h hk

theorem load_store_of_apart (h : WordsApart a b) : load (store m a v) b = load m b :=
  load_congr fun _ hc => store_of_not_within (h.not_within hc)

/-! ## Rows of words -/

/-- The words lie in memory from the address on. -/
def Row (m : Memory) (a : Word) (ws : List Word) : Prop :=
  ∀ (i : ℕ) (hi : i < ws.length), load m (a + BitVec.ofNat 64 (8 * i)) = ws[i]

theorem Row.congr {ws : List Word} (h : Row m a ws) (hlen : 8 * ws.length ≤ 2 ^ 64)
    (hm : ∀ b, Within a (8 * ws.length) b → m' b = m b) : Row m' a ws := by
  intro i hi
  rw [load_congr fun b hb => hm b ?_]
  · exact h i hi
  · rw [Within] at hb ⊢
    bv_omega

theorem row_cons {w : Word} {ws : List Word} :
    Row m a (w :: ws) ↔ load m a = w ∧ Row m (a + 8#64) ws := by
  have hzero : a + BitVec.ofNat 64 (8 * 0) = a := by simp
  have hstep : ∀ i, a + 8#64 + BitVec.ofNat 64 (8 * i) = a + BitVec.ofNat 64 (8 * (i + 1)) := by
    intro i
    bv_omega
  constructor
  · intro h
    refine ⟨?_, fun i hi => ?_⟩
    · have hfirst := h 0 (by simp)
      rwa [hzero] at hfirst
    · rw [hstep]
      exact h (i + 1) (by simpa using hi)
  · rintro ⟨hfirst, hrest⟩ i hi
    cases i with
    | zero => rw [hzero]; exact hfirst
    | succ i =>
        rw [← hstep]
        exact hrest i (by simpa using hi)

theorem row_append {ws ws' : List Word} :
    Row m a (ws ++ ws') ↔ Row m a ws ∧ Row m (a + BitVec.ofNat 64 (8 * ws.length)) ws' := by
  induction ws generalizing a with
  | nil => simp [Row]
  | cons w ws ih =>
      have hstep : a + 8#64 + BitVec.ofNat 64 (8 * ws.length) =
          a + BitVec.ofNat 64 (8 * (ws.length + 1)) := by
        bv_omega
      rw [List.cons_append, row_cons, row_cons, ih, hstep, List.length_cons, and_assoc]

/-! ## Instructions -/

inductive Reg where
  | rax | rbx | rcx | rdx | rsi | rdi | rbp | rsp | r8 | r9 | r10 | r11 | r12 | r13 | r14 | r15
  deriving DecidableEq

inductive Seg where
  | ds | es | fs | gs
  deriving DecidableEq

structure Cpu where
  reg : Reg → Word
  seg : Seg → BitVec 16
  mem : Memory

def Cpu.set (c : Cpu) (r : Reg) (v : Word) : Cpu := { c with reg := Function.update c.reg r v }

def Cpu.push (c : Cpu) (w : Word) : Cpu :=
  { c.set .rsp (c.reg .rsp - 8#64) with mem := store c.mem (c.reg .rsp - 8#64) w }

inductive Instr where
  | push (r : Reg)
  | pushImm (v : Word)
  | pop (r : Reg)
  | mov (src dst : Reg)
  | movImm (v : Word) (dst : Reg)
  /-- `mov $v, %reg16`, which leaves the other bits of the register -/
  | movImm16 (v : BitVec 16) (dst : Reg)
  | load (offset : Word) (base dst : Reg)
  | loadVar (address : Word) (dst : Reg)
  | storeVar (src : Reg) (address : Word)
  | addImm (v : Word) (dst : Reg)
  /-- `mov %seg, %reg16` -/
  | fromSeg (src : Seg) (dst : Reg)
  | toSeg (src : Reg) (dst : Seg)

def Instr.exec (c : Cpu) : Instr → Cpu
  | .push r => c.push (c.reg r)
  | .pushImm v => c.push v
  | .pop r => (c.set .rsp (c.reg .rsp + 8#64)).set r (Assembly.load c.mem (c.reg .rsp))
  | .mov src dst => c.set dst (c.reg src)
  | .movImm v dst => c.set dst v
  | .movImm16 v dst => c.set dst ((c.reg dst).extractLsb' 16 48 ++ v)
  | .load offset base dst => c.set dst (Assembly.load c.mem (c.reg base + offset))
  | .loadVar address dst => c.set dst (Assembly.load c.mem address)
  | .storeVar src address => { c with mem := store c.mem address (c.reg src) }
  | .addImm v dst => c.set dst (c.reg dst + v)
  | .fromSeg src dst => c.set dst ((c.reg dst).extractLsb' 16 48 ++ c.seg src)
  | .toSeg src dst => { c with seg := Function.update c.seg dst ((c.reg src).setWidth 16) }

def run (code : List Instr) (c : Cpu) : Cpu := code.foldl Instr.exec c

variable {c c' c₁ : Cpu} {r : Reg} {rs : List Reg} {w : Word} {ws : List Word}

theorem run_append (code code' : List Instr) (c : Cpu) :
    run (code ++ code') c = run code' (run code c) := List.foldl_append

@[simp] theorem run_cons (i : Instr) (code : List Instr) (c : Cpu) :
    run (i :: code) c = run code (i.exec c) := rfl

@[simp] theorem run_nil (c : Cpu) : run [] c = c := rfl

@[simp] theorem set_self (c : Cpu) (r : Reg) (v : Word) : (c.set r v).reg r = v := by
  simp [Cpu.set]

theorem set_of_ne {r' : Reg} (h : r' ≠ r) (v : Word) : (c.set r v).reg r' = c.reg r' := by
  simp [Cpu.set, h]

@[simp] theorem set_seg (c : Cpu) (r : Reg) (v : Word) : (c.set r v).seg = c.seg := rfl

@[simp] theorem set_mem (c : Cpu) (r : Reg) (v : Word) : (c.set r v).mem = c.mem := rfl

/-- Only the register changes. -/
structure Sets (c : Cpu) (dst : Reg) (v : Word) (c' : Cpu) : Prop where
  value : c'.reg dst = v
  others : ∀ r, r ≠ dst → c'.reg r = c.reg r
  seg : c'.seg = c.seg
  mem : c'.mem = c.mem

theorem sets_set (c : Cpu) (dst : Reg) (v : Word) : Sets c dst v (c.set dst v) where
  value := set_self c dst v
  others _ hr := set_of_ne hr v
  seg := rfl
  mem := rfl

theorem sets_mov (c : Cpu) (src dst : Reg) : Sets c dst (c.reg src) (Instr.exec c (.mov src dst)) :=
  sets_set c dst _

theorem sets_movImm (c : Cpu) (v : Word) (dst : Reg) : Sets c dst v (Instr.exec c (.movImm v dst)) :=
  sets_set c dst v

theorem sets_movImm16 (c : Cpu) (v : BitVec 16) (dst : Reg) :
    Sets c dst ((c.reg dst).extractLsb' 16 48 ++ v) (Instr.exec c (.movImm16 v dst)) :=
  sets_set c dst _

theorem sets_fromSeg (c : Cpu) (src : Seg) (dst : Reg) :
    Sets c dst ((c.reg dst).extractLsb' 16 48 ++ c.seg src) (Instr.exec c (.fromSeg src dst)) :=
  sets_set c dst _

theorem sets_load (c : Cpu) (offset : Word) (base dst : Reg) :
    Sets c dst (load c.mem (c.reg base + offset)) (Instr.exec c (.load offset base dst)) :=
  sets_set c dst _

theorem sets_loadVar (c : Cpu) (address : Word) (dst : Reg) :
    Sets c dst (load c.mem address) (Instr.exec c (.loadVar address dst)) :=
  sets_set c dst _

theorem sets_addImm (c : Cpu) (v : Word) (dst : Reg) :
    Sets c dst (c.reg dst + v) (Instr.exec c (.addImm v dst)) :=
  sets_set c dst _

@[simp] theorem toSeg_reg (c : Cpu) (src : Reg) (dst : Seg) :
    (Instr.exec c (.toSeg src dst)).reg = c.reg := rfl

@[simp] theorem toSeg_mem (c : Cpu) (src : Reg) (dst : Seg) :
    (Instr.exec c (.toSeg src dst)).mem = c.mem := rfl

/-! ## Rows of pushes and pops -/

theorem push_sp (c : Cpu) (w : Word) : (c.push w).reg .rsp = c.reg .rsp - 8#64 :=
  set_self c .rsp (c.reg .rsp - 8#64)

theorem push_others (hr : r ≠ .rsp) : (c.push w).reg r = c.reg r := set_of_ne hr _

theorem push_row (h : Row c.mem (c.reg .rsp) ws) (hlen : 8 * (ws.length + 1) ≤ 2 ^ 64) :
    Row (c.push w).mem ((c.push w).reg .rsp) (w :: ws) := by
  have hback : c.reg .rsp - 8#64 + 8#64 = c.reg .rsp := by bv_omega
  rw [push_sp, row_cons, hback]
  refine ⟨load_store _ _ _, h.congr (by omega) fun b hb => store_of_not_within ?_⟩
  rw [Within] at hb ⊢
  bv_omega

/-- The stack has grown by `n` words, and only these have changed. -/
structure Deeper (c : Cpu) (n : ℕ) (c' : Cpu) : Prop where
  sp : c'.reg .rsp = c.reg .rsp - BitVec.ofNat 64 (8 * n)
  frame : ∀ b, ¬ Within (c'.reg .rsp) (8 * n) b → c'.mem b = c.mem b

theorem Deeper.push (h : Deeper c n c') (hlen : 8 * (n + 1) ≤ 2 ^ 64) (w : Word) :
    Deeper c (n + 1) (c'.push w) := by
  have hsp := push_sp c' w
  refine ⟨?_, fun b hb => ?_⟩
  · rw [hsp, h.sp]
    bv_omega
  · rw [hsp] at hb
    have hnew : ¬ Within (c'.reg .rsp - 8#64) 8 b := fun hw => hb (by rw [Within] at hw ⊢; omega)
    have hold : ¬ Within (c'.reg .rsp) (8 * n) b := fun hw => hb (by
      rw [Within] at hw ⊢
      bv_omega)
    exact (store_of_not_within hnew).trans (h.frame b hold)

/-- The words have been pushed, the last one first in the row. -/
structure Pushed (c : Cpu) (ws : List Word) (c' : Cpu) : Prop extends Deeper c ws.length c' where
  others : ∀ r, r ≠ .rsp → c'.reg r = c.reg r
  seg : c'.seg = c.seg
  row : Row c'.mem (c'.reg .rsp) ws

theorem Pushed.refl (c : Cpu) : Pushed c [] c where
  sp := by simp
  frame _ _ := rfl
  others _ _ := rfl
  seg := rfl
  row _ hi := nomatch hi

/-- One more word. -/
theorem Pushed.push (h : Pushed c ws c') (hlen : 8 * (ws.length + 1) ≤ 2 ^ 64) (w : Word) :
    Pushed c (w :: ws) (c'.push w) where
  toDeeper := h.toDeeper.push hlen w
  others r hr := (push_others hr).trans (h.others r hr)
  seg := h.seg
  row := push_row h.row hlen

/-- A row of pushes. -/
theorem Pushed.run (h : Pushed c ws c') (rs : List Reg) (hrs : .rsp ∉ rs)
    (hlen : 8 * (rs.length + ws.length) ≤ 2 ^ 64) :
    Pushed c ((rs.map c.reg).reverse ++ ws) (run (rs.map .push) c') := by
  induction rs generalizing ws c' with
  | nil => exact h
  | cons r rs ih =>
      have hr : r ≠ .rsp := fun hr => hrs (by rw [hr]; exact List.mem_cons_self)
      rw [List.length_cons] at hlen
      have hpush := h.push (by omega) (c'.reg r)
      rw [h.others r hr] at hpush
      have hrest := ih hpush (fun hmem => hrs (List.mem_cons_of_mem r hmem))
        (by rw [List.length_cons]; omega)
      rw [List.map_cons, List.map_cons, run_cons, List.reverse_cons, List.append_assoc]
      rw [← h.others r hr] at hrest ⊢
      exact hrest

/-- A row of pops takes the registers from the row at the stack pointer. -/
structure Popped (c : Cpu) (rs : List Reg) (f : Reg → Word) (c' : Cpu) : Prop where
  sp : c'.reg .rsp = c.reg .rsp + BitVec.ofNat 64 (8 * rs.length)
  taken : ∀ r ∈ rs, c'.reg r = f r
  others : ∀ r, r ≠ .rsp → r ∉ rs → c'.reg r = c.reg r
  seg : c'.seg = c.seg
  mem : c'.mem = c.mem

theorem run_pops {f : Reg → Word} (hrow : Row c.mem (c.reg .rsp) (rs.map f)) (hrs : .rsp ∉ rs) :
    Popped c rs f (run (rs.map .pop) c) := by
  induction rs generalizing c with
  | nil => exact ⟨by simp, by simp, fun r _ _ => rfl, rfl, rfl⟩
  | cons r rs ih =>
      have hr : .rsp ≠ r := fun hr => hrs (by rw [hr]; exact List.mem_cons_self)
      rw [List.map_cons, row_cons] at hrow
      obtain ⟨hfirst, hrest⟩ := hrow
      have hsp : (Instr.exec c (.pop r)).reg .rsp = c.reg .rsp + 8#64 :=
        (set_of_ne hr _).trans (set_self c _ _)
      have hpop := ih (c := Instr.exec c (.pop r)) (by rw [hsp]; exact hrest)
        (fun hmem => hrs (List.mem_cons_of_mem r hmem))
      have htaken : (Instr.exec c (.pop r)).reg r = f r := (set_self _ r _).trans hfirst
      refine ⟨?_, fun r' hr' => ?_, fun r' hsp' hr' => ?_, hpop.seg, hpop.mem⟩
      · rw [List.map_cons, run_cons, hpop.sp, hsp, List.length_cons]
        bv_omega
      · by_cases hmem : r' ∈ rs
        · exact hpop.taken r' hmem
        · obtain rfl : r' = r := (List.mem_cons.mp hr').resolve_right hmem
          exact (hpop.others r' hr.symm hmem).trans htaken
      · rw [List.mem_cons, not_or] at hr'
        refine (hpop.others r' hsp' hr'.2).trans ?_
        exact (set_of_ne hr'.1 _).trans (set_of_ne hsp' _)

/-! ## Calls of compiled code -/

/-- The registers that a compiled function gives back. -/
def calleeSaved : List Reg := [.rbx, .rbp, .r12, .r13, .r14, .r15]

/-- What the caller of a compiled function can rely on, for the bytes that the function leaves
alone. -/
structure Keeps (kept : Word → Prop) (c c' : Cpu) : Prop where
  sp : c'.reg .rsp = c.reg .rsp
  saved : ∀ r ∈ calleeSaved, c'.reg r = c.reg r
  seg : c'.seg = c.seg
  mem : ∀ b, kept b → c'.mem b = c.mem b

/-! ## Changes of the privilege level -/

/-- The processor between two instructions. -/
structure Core extends Cpu where
  rip : Word
  rflags : Word
  cs : BitVec 16
  ss : BitVec 16

/-- Ring 3. -/
def Core.isUser (c : Core) : Bool := c.cs &&& 3#16 == 3#16

/-- The instruction `syscall` in front of the address `next`. -/
def Core.syscall (c : Core) (next lstar star fmask : Word) : Core where
  toCpu := (c.toCpu.set .rcx next).set .r11 c.rflags
  rip := lstar
  rflags := c.rflags &&& ~~~fmask
  cs := star.extractLsb' 32 16
  ss := star.extractLsb' 32 16 + 8#16

/-- The flags that `sysretq` takes from `r11`. -/
def sysretFlags (flags : Word) : Word := flags &&& 0x3C7FD7#64 ||| 2#64

/-- The instruction `sysretq`. -/
def Cpu.sysret (c : Cpu) (star : Word) : Core where
  toCpu := c
  rip := c.reg .rcx
  rflags := sysretFlags (c.reg .r11)
  cs := star.extractLsb' 48 16 + 16#16 ||| 3#16
  ss := star.extractLsb' 48 16 + 8#16 ||| 3#16

/-- What the processor pushes for an interrupt, the last word first. -/
def Core.frame (c : Core) : List Word :=
  [c.rip, c.cs.setWidth 64, c.rflags, c.reg .rsp, c.ss.setWidth 64]

/-- The stack pointer at which an interrupt is stored: it is rounded down to a multiple of 16. -/
def Core.interruptStack (c : Core) (rsp0 : Word) : Word :=
  let sp := if c.isUser then rsp0 else c.reg .rsp
  sp - sp % 16#64

/-- An interrupt through a gate to `handler`, for some exceptions with an error code. The gate
clears `IF`, `TF`, `NT` and `RF`. -/
def Core.interrupt (c : Core) (rsp0 handler : Word) (kernelCs : BitVec 16) (err : List Word) :
    Core where
  toCpu := (err ++ c.frame).foldr (fun w c' => c'.push w) (c.toCpu.set .rsp (c.interruptStack rsp0))
  rip := handler
  rflags := c.rflags &&& ~~~0x14300#64
  cs := kernelCs
  ss := if c.isUser then 0 else c.ss

/-- The instruction `iretq`. In ring 3 the segment registers are cleared whose segments are not for
that ring. -/
def Cpu.iret (c : Cpu) (forUser : BitVec 16 → Bool) : Core where
  reg := (c.set .rsp (Assembly.load c.mem (c.reg .rsp + 24#64))).reg
  seg s := if (Assembly.load c.mem (c.reg .rsp + 8#64)).setWidth 16 &&& 3#16 == 3#16 ∧
    forUser (c.seg s) = false then 0 else c.seg s
  mem := c.mem
  rip := Assembly.load c.mem (c.reg .rsp)
  cs := (Assembly.load c.mem (c.reg .rsp + 8#64)).setWidth 16
  rflags := Assembly.load c.mem (c.reg .rsp + 16#64)
  ss := (Assembly.load c.mem (c.reg .rsp + 32#64)).setWidth 16

/-- The instruction `ret`: the address to which it returns. -/
def Cpu.ret (c : Cpu) : Word × Cpu :=
  (Assembly.load c.mem (c.reg .rsp), c.set .rsp (c.reg .rsp + 8#64))

theorem Pushed.foldr (c : Cpu) (ws : List Word) (hlen : 8 * ws.length ≤ 2 ^ 64) :
    Pushed c ws (ws.foldr (fun w c' => c'.push w) c) := by
  induction ws with
  | nil => exact .refl c
  | cons w ws ih =>
      rw [List.length_cons] at hlen
      exact (ih (by omega)).push hlen w

theorem interrupt_pushed (c : Core) (rsp0 handler : Word) (kernelCs : BitVec 16) {err : List Word}
    (herr : err.length ≤ 1) :
    Pushed (c.toCpu.set .rsp (c.interruptStack rsp0)) (err ++ c.frame)
      (c.interrupt rsp0 handler kernelCs err).toCpu :=
  .foldr _ _ (by rw [List.length_append, Core.frame]; simp only [List.length_cons, List.length_nil]; omega)

/-- `iretq` at the words of an interrupt. -/
theorem iret_of_row {u : Core} (hrow : Row c.mem (c.reg .rsp) u.frame) (forUser : BitVec 16 → Bool) :
    c.iret forUser =
      { reg := (c.set .rsp (u.reg .rsp)).reg
        seg := fun s => if u.isUser = true ∧ forUser (c.seg s) = false then 0 else c.seg s
        mem := c.mem, rip := u.rip, rflags := u.rflags, cs := u.cs, ss := u.ss } := by
  have hword : ∀ (i : ℕ) (hi : i < 5), load c.mem (c.reg .rsp + BitVec.ofNat 64 (8 * i)) = u.frame[i] :=
    hrow
  have hrip : load c.mem (c.reg .rsp) = u.rip := by simpa [Core.frame] using hword 0 (by decide)
  have hcs : load c.mem (c.reg .rsp + 8#64) = u.cs.setWidth 64 := hword 1 (by decide)
  have hflags : load c.mem (c.reg .rsp + 16#64) = u.rflags := hword 2 (by decide)
  have hsp : load c.mem (c.reg .rsp + 24#64) = u.reg .rsp := hword 3 (by decide)
  have hss : load c.mem (c.reg .rsp + 32#64) = u.ss.setWidth 64 := hword 4 (by decide)
  have hnarrow : ∀ x : BitVec 16, (x.setWidth 64).setWidth 16 = x := by
    intro x
    rw [BitVec.setWidth_setWidth_of_le _ (by decide), BitVec.setWidth_eq]
  rw [Cpu.iret, hrip, hcs, hflags, hsp, hss, hnarrow, hnarrow]
  rfl

end LispDos.Foundation.Assembly
