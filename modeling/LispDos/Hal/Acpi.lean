import LispDos.Foundation.Loop
import LispDos.Kernel.Fat16

/-! # ACPI

The search of `acpi.c` for the sleep type of the state S5 in the DSDT. Every access to the table is
checked: a read at an offset from `Length` on gives nothing, and the search then returns nothing. -/

namespace LispDos.Acpi

open Foundation

/-- The memory from `dsdt` on. -/
structure Dsdt where
  bytes : ℕ → UInt8

/-- The field `Length` of the header. -/
def Dsdt.length (d : Dsdt) : ℕ :=
  (d.bytes 4).toNat + 256 * (d.bytes 5).toNat + 65536 * (d.bytes 6).toNat +
    16777216 * (d.bytes 7).toNat

/-- A byte of the table. -/
def Dsdt.read (d : Dsdt) (offset : ℕ) : Option UInt8 :=
  if offset < d.length then some (d.bytes offset) else none

/-- The difference `len - 4`, where `len` is an `int`. Nothing comes of it when it overflows. -/
def Dsdt.scanEnd (d : Dsdt) : Option ℤ :=
  let len := toInt32 d.length
  if len - 4 < -(2 ^ 31) then none else some (len - 4)

/-- A conjunction of comparisons of bytes in a row; the first that fails is the last one made. -/
def compareAt (d : Dsdt) : ℕ → List UInt8 → Option Bool
  | _, [] => some true
  | offset, x :: xs => do
      let c ← d.read offset
      if c = x then compareAt d (offset + 1) xs else some false

/-- The offset of `s5Addr`, and `i`. -/
structure Scan where
  s5Addr : ℕ
  i : ℕ

/-- The comparison of the characters `_S5_`. -/
def s5Name (d : Dsdt) (s : Scan) : Option Bool :=
  compareAt d (s.s5Addr + s.i) [0x5F, 0x53, 0x35, 0x5F]

/-- The comparison of the bytes before them. -/
def s5Before (d : Dsdt) (s : Scan) : Option Bool := do
  let named ← if 0 < s.i then compareAt d (s.s5Addr + s.i - 1) [0x08] else some false
  if named then some true
  else if 1 < s.i then compareAt d (s.s5Addr + s.i - 2) [0x08, 0x5C]
  else some false

/-- The value `*(s5Addr) << 10` behind the package opcode. -/
def s5Value (d : Dsdt) (s5Addr : ℕ) : Option (BitVec 16) := do
  let c ← d.read (s5Addr + 3)
  let x ← if c = 0x0A then d.read (s5Addr + 4) else some c
  some (BitVec.ofNat 16 (x.toNat <<< 10))

/-- A round of the search. The loop is left with the characters found, if any, and the value behind
them; nothing comes of an access outside of the table. -/
def s5Round (d : Dsdt) (scanEnd : ℤ) (s : Scan) :
    LoopStep Scan (Option (Option (ℕ × BitVec 16))) :=
  if s.i < scanEnd then
    match s5Name d s with
    | none => .leave none
    | some false => .next { s with i := s.i + 1 }
    | some true =>
        match s5Before d s with
        | none => .leave none
        | some false => .next { s with i := s.i + 1 }
        | some true =>
            match d.read (s.s5Addr + (s.i + 4)) with
            | none => .leave none
            | some opcode =>
                if opcode = 0x12 then
                  .leave ((s5Value d (s.s5Addr + (s.i + 4))).map
                    fun value => some (s.s5Addr + s.i, value))
                else .next ⟨s.s5Addr + (s.i + 4), s.i + 1⟩
  else .leave (some none)

/-- The variable `slp_typa`, and the characters `_S5_` that its value comes from. -/
structure SlpTyp where
  value : BitVec 16
  source : Option ℕ
deriving DecidableEq

/-- The value without a sleep type in the table. -/
def defaultTyp : SlpTyp := ⟨5 <<< 10, none⟩

/-- The end of `acpi_init`: `slp_typa` has been 0 before the search. -/
def setTyp : Option (ℕ × BitVec 16) → SlpTyp
  | none => defaultTyp
  | some (source, value) => if value = 0 then defaultTyp else ⟨value, some source⟩

/-- The search of `acpi_init` comes to an end within the table, and sets `slp_typa` to that. -/
def AcpiInit (d : Dsdt) (typ : SlpTyp) : Prop :=
  ∃ scanEnd found, d.scanEnd = some scanEnd ∧
    LoopReturns (s5Round d scanEnd) ⟨0, 0⟩ (some found) ∧ typ = setTyp found

end LispDos.Acpi
