import LispDos.Foundation.BitField
import LispDos.Hal.Descriptors
import LispDos.Kernel.Entry

/-! # The tables as the processor reads them

Every vector leads to its handler in ring 0, and no program can call one of them. The selectors that
the entry code loads are those of the segments for their rings, and the task register finds `tss`. -/

namespace LispDos.Descriptors

open Foundation Foundation.Assembly

/-! ## Entries of the tables -/

/-- An entry of the table of interrupts. -/
structure Gate where
  offset : Word
  selector : BitVec 16
  ist : BitVec 3
  kind : BitVec 4
  dpl : BitVec 2
  present : Bool
  deriving DecidableEq

def gateOf (w : BitVec 128) : Gate where
  offset := w.extractLsb' 64 32 ++ w.extractLsb' 48 16 ++ w.extractLsb' 0 16
  selector := w.extractLsb' 16 16
  ist := w.extractLsb' 32 3
  kind := w.extractLsb' 40 4
  dpl := w.extractLsb' 45 2
  present := w.getLsbD 47

/-- An entry of the table of segments. `plain` stands for the segments of code and data. -/
structure Segment where
  limit : BitVec 20
  kind : BitVec 4
  plain : Bool
  dpl : BitVec 2
  present : Bool
  long : Bool
  deriving DecidableEq

def segmentOf (w : BitVec 64) : Segment where
  limit := w.extractLsb' 48 4 ++ w.extractLsb' 0 16
  kind := w.extractLsb' 40 4
  plain := w.getLsbD 44
  dpl := w.extractLsb' 45 2
  present := w.getLsbD 47
  long := w.getLsbD 53

/-- The address in a segment of the system, which takes two entries. -/
def systemBase (lo hi : BitVec 64) : Word :=
  hi.extractLsb' 16 16 ++ hi.extractLsb' 0 16 ++ lo.extractLsb' 56 8 ++ lo.extractLsb' 32 8 ++
    lo.extractLsb' 16 16

/-- The entry that a selector stands for. -/
def entryAt (gdt : List GdtEntry) (selector : BitVec 16) : Option (BitVec 64) :=
  (gdt[selector.toNat / 8]?).map GdtEntry.bits

/-! ## Gates -/

variable {isrs : ℕ → Word} {isrKeyboard : Word} {idt : ℕ → IdtEntry} {v n : ℕ}

/-- The handler of a vector: those from 32 on go to `isr0`, but the keyboard. -/
def handlerOf (isrs : ℕ → Word) (isrKeyboard : Word) (v : ℕ) : Word :=
  if v = 33 then isrKeyboard else if v < 32 then isrs v else isrs 0

theorem low_word (x : Word) : (x &&& 0xFFFF).setWidth 16 = x.extractLsb' 0 16 := by
  have hmasked : (x >>> 0 &&& 0xFFFF).setWidth 16 = x.extractLsb' 0 16 :=
    masked_eq_extractLsb' _ _ (by decide)
  rwa [BitVec.ushiftRight_zero] at hmasked

theorem gateOf_idtSetDescriptor (idt : ℕ → IdtEntry) (v : ℕ) (isr : Word) (flags : BitVec 8) :
    gateOf (idtSetDescriptor idt v isr flags v).bits =
      ⟨isr, 0x08, 0, flags.extractLsb' 0 4, flags.extractLsb' 5 2, flags.getLsbD 7⟩ := by
  have hmid : (isr >>> 16 &&& 0xFFFF).setWidth 16 = isr.extractLsb' 16 16 :=
    masked_eq_extractLsb' _ _ (by decide)
  have hhigh : (isr >>> 32 &&& 0xFFFFFFFF).setWidth 32 = isr.extractLsb' 32 32 :=
    masked_eq_extractLsb' _ _ (by decide)
  rw [idtSetDescriptor, Function.update_self, gateOf, IdtEntry.bits, low_word, hmid, hhigh]
  simp (disch := decide) only [field_low, field_high, BitVec.extractLsb'_eq_self, bit_low, bit_high,
    Nat.reduceSub]
  rw [BitVec.extractLsb'_append_extractLsb'_eq_extractLsb' (by decide),
    BitVec.extractLsb'_append_extractLsb'_eq_extractLsb' (by decide), BitVec.extractLsb'_eq_self]
  rfl

/-- A loop over the first vectors. -/
theorem foldl_idtSetDescriptor (f : ℕ → Word) (flags : BitVec 8) (idt : ℕ → IdtEntry) (n v : ℕ) :
    ((List.range n).foldl (fun idt i => idtSetDescriptor idt i (f i) flags) idt) v =
      if v < n then idtSetDescriptor idt v (f v) flags v else idt v := by
  induction n with
  | zero => rfl
  | succ n ih =>
      rw [List.range_succ, List.foldl_append, List.foldl_cons, List.foldl_nil]
      by_cases hv : v = n
      · subst hv
        rw [if_pos (Nat.lt_succ_self v), idtSetDescriptor, idtSetDescriptor, Function.update_self,
          Function.update_self]
      · rw [idtSetDescriptor, Function.update_of_ne hv, ih]
        by_cases hlt : v < n
        · rw [if_pos hlt, if_pos (by omega)]
        · rw [if_neg hlt, if_neg (by omega)]

theorem gateOf_idtInit (hv : v < 256) (idt : ℕ → IdtEntry) :
    gateOf (idtInit isrs isrKeyboard idt v).bits = ⟨handlerOf isrs isrKeyboard v, 0x08, 0, 0xE, 0, true⟩ := by
  have hgate : ∀ (idt : ℕ → IdtEntry) isr,
      gateOf (idtSetDescriptor idt v isr 0x8E v).bits = ⟨isr, 0x08, 0, 0xE, 0, true⟩ :=
    fun idt isr => gateOf_idtSetDescriptor idt v isr 0x8E
  rw [handlerOf, idtInit]
  by_cases hkeyboard : v = 33
  · subst hkeyboard
    rw [if_pos rfl, hgate]
  · rw [if_neg hkeyboard, idtSetDescriptor, Function.update_of_ne hkeyboard, foldl_idtSetDescriptor]
    by_cases hlow : v < 32
    · rw [if_pos hlow, if_pos hlow, hgate]
    · rw [if_neg hlow, if_neg hlow, foldl_idtSetDescriptor, if_pos hv, hgate]

/-! ## Segments -/

/-- A selector stands for a segment of code or data that covers the whole memory. -/
def Selects (gdt : List GdtEntry) (selector : BitVec 16) (kind : BitVec 4) (dpl : BitVec 2) : Prop :=
  (entryAt gdt selector).map segmentOf = some ⟨0xFFFFF, kind, true, dpl, true, true⟩

/-- A selector stands for a task state of 104 bytes at the address. -/
def SelectsTask (gdt : List GdtEntry) (selector : BitVec 16) (base : Word) : Prop :=
  ∃ lo hi, entryAt gdt selector = some lo ∧ entryAt gdt (selector + 8) = some hi ∧
    systemBase lo hi = base ∧ segmentOf lo = ⟨103, 9, false, 0, true, false⟩

/-- The task register finds `tss`. -/
theorem selectsTask_gdtInit (tssBase : Word) : SelectsTask (gdtInit tssBase) 0x28 tssBase := by
  have hlow : (tssBase >>> 16 &&& 0xFF).setWidth 8 = tssBase.extractLsb' 16 8 :=
    masked_eq_extractLsb' _ _ (by decide)
  have hmid : (tssBase >>> 24 &&& 0xFF).setWidth 8 = tssBase.extractLsb' 24 8 :=
    masked_eq_extractLsb' _ _ (by decide)
  have hhigh : (tssBase >>> 32 &&& 0xFFFF).setWidth 16 = tssBase.extractLsb' 32 16 :=
    masked_eq_extractLsb' _ _ (by decide)
  have htop : (tssBase >>> 48 &&& 0xFFFF).setWidth 16 = tssBase.extractLsb' 48 16 :=
    masked_eq_extractLsb' _ _ (by decide)
  refine ⟨_, _, rfl, rfl, ?_, ?_⟩
  · rw [systemBase, GdtEntry.bits, GdtEntry.bits, gdtSetGate, hlow, hmid, hhigh, htop, low_word tssBase]
    simp (disch := decide) only [field_low, field_high, BitVec.extractLsb'_eq_self, Nat.reduceSub]
    rw [BitVec.extractLsb'_append_extractLsb'_eq_extractLsb' (by decide),
      BitVec.extractLsb'_append_extractLsb'_eq_extractLsb' (by decide),
      BitVec.extractLsb'_append_extractLsb'_eq_extractLsb' (by decide),
      BitVec.extractLsb'_append_extractLsb'_eq_extractLsb' (by decide)]
    exact BitVec.extractLsb'_eq_self
  · rw [segmentOf, GdtEntry.bits, gdtSetGate]
    simp (disch := decide) only [field_low, field_high, BitVec.extractLsb'_eq_self, bit_low, bit_high,
      Nat.reduceSub]
    decide

theorem selects_gdtInit (tssBase : Word) :
    Selects (gdtInit tssBase) 0x08 0xA 0 ∧ Selects (gdtInit tssBase) 0x10 0x2 0 ∧
      Selects (gdtInit tssBase) 0x1B 0x2 3 ∧ Selects (gdtInit tssBase) 0x23 0xA 3 := by
  have hentry : ∀ selector : BitVec 16, selector.toNat / 8 < 5 →
      entryAt (gdtInit tssBase) selector = entryAt (gdtInit 0) selector := by
    intro selector h
    rw [entryAt, entryAt]
    congr 1
    revert h
    generalize selector.toNat / 8 = i
    intro h
    match i, h with
    | 0, _ | 1, _ | 2, _ | 3, _ | 4, _ => rfl
  refine ⟨?_, ?_, ?_, ?_⟩ <;>
  · rw [Selects, hentry _ (by decide)]
    decide

/-- The tables that the kernel fills at its start fit its entry code, wherever the handlers and `tss`
are: each of the 256 vectors leads to its handler, through a gate that clears `IF` and that no
program can call; system calls load the segments of ring 0 and `sysretq` those of ring 3; and the
processor finds the stack of the kernel in `tss`. -/
theorem tables_fit_entry (isrs : ℕ → Word) (isrKeyboard : Word) (idt : ℕ → IdtEntry) (tssBase : Word) :
    (∀ v < 256, gateOf (idtInit isrs isrKeyboard idt v).bits =
      ⟨handlerOf isrs isrKeyboard v, 0x08, 0, 0xE, 0, true⟩) ∧
      SelectsTask (gdtInit tssBase) 0x28 tssBase ∧
      ∀ (c : Core) (next lstar : Word),
        Selects (gdtInit tssBase) (c.syscall next lstar Entry.star Entry.fmask).cs 0xA 0 ∧
        Selects (gdtInit tssBase) (c.syscall next lstar Entry.star Entry.fmask).ss 0x2 0 ∧
        Selects (gdtInit tssBase) (c.toCpu.sysret Entry.star).cs 0xA 3 ∧
        Selects (gdtInit tssBase) (c.toCpu.sysret Entry.star).ss 0x2 3 := by
  obtain ⟨hkernelCode, hkernelData, huserData, huserCode⟩ := selects_gdtInit tssBase
  exact ⟨fun v hv => gateOf_idtInit hv idt, selectsTask_gdtInit tssBase,
    fun c next lstar => ⟨hkernelCode, hkernelData, huserCode, huserData⟩⟩

end LispDos.Descriptors
