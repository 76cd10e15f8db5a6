import LispDos.Kernel.Syscall
import LispDos.Tools.LispStart
import LispDos.Verification.Fat16.Reading

/-! # Loading a script

The size of the script is an unsigned number that becomes an `int`, and a failed read is the
number -1. Both pass the checks of the start-up. -/

namespace LispDos.Lisp

open Syscall

variable {x : BitVec 32} {v : Volume} {args : Option (List UInt8)}

/-! ## Conversions -/

theorem toInt_of_size (x : BitVec 32) :
    x.toInt = if x.toNat < 2 ^ 31 then (x.toNat : ℤ) else x.toNat - 2 ^ 32 := by
  rw [BitVec.toInt_eq_toNat_cond]
  split <;> split <;> omega

/-- The size of the buffer is negative from `2 ^ 31 - 1` on. -/
theorem toInt_size_succ (x : BitVec 32) :
    (x + 1).toInt = if x.toNat < 2 ^ 31 - 1 then (x.toNat : ℤ) + 1 else x.toNat + 1 - 2 ^ 32 := by
  have hlt := x.isLt
  have hnat : (x + 1).toNat = (x.toNat + 1) % 2 ^ 32 := by
    rw [BitVec.toNat_add]
    rfl
  rw [toInt_of_size, hnat]
  split <;> split <;> omega

theorem toInt32_emod (n : ℕ) : toInt32 n % 2 ^ 32 = n % 2 ^ 32 := Int.bmod_emod

theorem ofInt_toInt32 (n : ℕ) : BitVec.ofInt 32 (toInt32 n) = BitVec.ofNat 32 n := by
  have hmod := toInt32_emod n
  generalize toInt32 n = z at hmod ⊢
  apply BitVec.eq_of_toNat_eq
  rw [BitVec.toNat_ofInt, BitVec.toNat_ofNat]
  omega

theorem setWidth_ofInt (z : ℤ) : (BitVec.ofInt 64 z).setWidth 32 = BitVec.ofInt 32 z := by
  apply BitVec.eq_of_toNat_eq
  simp only [BitVec.toNat_setWidth, BitVec.toNat_ofInt]
  omega

/-- The results of the system call for a read, as `int`s, are those of a volume. -/
theorem sysFat16ReadFile_outcome (k : Kernel) (arg1 arg2 result : Word)
    (h : (sysFat16ReadFile k arg1 arg2).ending = .returns result) :
    result.setWidth 32 = BitVec.ofNat 32 (fat16GetFileSize k.bpb k.disk (k.string arg1)) ∨
      result.setWidth 32 = 0 ∨ result.setWidth 32 = -1 := by
  simp only [sysFat16ReadFile] at h
  split at h
  · cases h
    exact .inr (.inr rfl)
  · split at h
    · cases h
      exact .inr (.inl rfl)
    · split at h
      · cases h
        exact .inr (.inr rfl)
      · split at h
        · cases h
        · rename_i hread
          cases h
          rw [setWidth_ofInt, Fat16.fat16ReadFile_result hread, ofInt_toInt32]
          exact .inl rfl

/-! ## Safety -/

/-- The start-up exits, or the script has a buffer inside of the pool, its terminator lies in
the `fsize + 1` bytes of the buffer, and the index of the pool is in range. -/
inductive SafeLoad : Except (List UInt8) Script → Prop where
  | exits (message : List UInt8) : SafeLoad (.error message)
  | parses (script : Script) (start : 0 ≤ script.buffer.toInt)
      (stop : script.buffer.toInt + (script.fsize.toInt + 1) ≤ poolSize)
      (terminator : script.buffer.toInt ≤ script.terminator ∧
        script.terminator < script.buffer.toInt + (script.fsize.toInt + 1))
      (index : 0 ≤ script.index.toInt ∧ script.index.toInt ≤ poolSize) : SafeLoad (.ok script)

/-- What the start-up does with a size and the result of the read. -/
theorem loadScript_eq (v : Volume) (args : Option (List UInt8)) :
    loadScript v args =
      let fsize := v.fileSize (scriptName args)
      let size := v.readFile (scriptName args)
      if fsize = 0 then .error (text "Erro: Arquivo nao encontrado ou vazio no HD.\n")
      else if (poolSize : ℤ) < (fsize + 1).toInt then
        .error (text "Erro: Script muito grande para o Memory Pool (1 MB).\n")
      else if size = 0 then .error (text "Erro ao ler arquivo do HD.\n")
      else .ok ⟨fsize, 0, size.toInt, fsize + 1⟩ := by
  have hzero : (0 : BitVec 32).toInt = 0 := rfl
  have hblock : lispMalloc 0 (v.fileSize (scriptName args) + 1) =
      if (poolSize : ℤ) < (v.fileSize (scriptName args) + 1).toInt then (none, 0)
      else (some 0, v.fileSize (scriptName args) + 1) := by
    rw [lispMalloc]
    simp
  simp only [loadScript, hblock]
  by_cases hfull : (poolSize : ℤ) < (v.fileSize (scriptName args) + 1).toInt
  · simp only [if_pos hfull]
  · simp only [if_neg hfull, hzero, Int.zero_add]

/-- Without an exit, the script has to be as large as the read says, and smaller than the
pool. -/
theorem safe_parses_iff (fsize size : BitVec 32) (hne : fsize ≠ 0)
    (hroom : ¬ (poolSize : ℤ) < (fsize + 1).toInt) (hsize : size = fsize ∨ size = -1) :
    SafeLoad (.ok ⟨fsize, 0, size.toInt, fsize + 1⟩) ↔ fsize.toNat < 2 ^ 20 ∧ size = fsize := by
  have hlt := fsize.isLt
  have hzero : (0 : BitVec 32).toInt = 0 := rfl
  have hpool : (poolSize : ℤ) = 2 ^ 20 := rfl
  have hpos : fsize.toNat ≠ 0 := fun h => hne (BitVec.eq_of_toNat_eq h)
  rw [toInt_size_succ, hpool] at hroom
  constructor
  · intro h
    cases h with
    | parses _ _ _ hterm hindex =>
        simp only [hzero, toInt_of_size fsize] at hterm
        simp only [toInt_size_succ, hpool] at hindex
        refine ⟨?_, ?_⟩
        -- the size 2 ^ 32 - 1 leaves the index in range, but no byte for the terminator
        · split at hindex <;> split at hterm <;> omega
        · rcases hsize with hsize | rfl
          · exact hsize
          · have hneg : (-1 : BitVec 32).toInt = -1 := rfl
            omega
  · intro h
    rcases h with ⟨hsmall, rfl⟩
    have hvalue : size.toInt = size.toNat := by
      rw [toInt_of_size, if_pos (by omega)]
    apply SafeLoad.parses
    all_goals simp only [hzero, toInt_size_succ, hvalue, hpool]
    · exact Int.le_refl 0
    · omega
    · omega
    · split <;> omega

/-- The start-up is safe exactly if the file is empty or missing, its size is too large for
the pool but still positive as an `int`, the read gives 0, or it gives the size of a script
that fits in the pool. -/
theorem load_safe_iff (v : Volume) (args : Option (List UInt8)) :
    SafeLoad (loadScript v args) ↔
      v.fileSize (scriptName args) = 0 ∨ v.readFile (scriptName args) = 0 ∨
        (2 ^ 20 ≤ (v.fileSize (scriptName args)).toNat ∧
          (v.fileSize (scriptName args)).toNat ≤ 2 ^ 31 - 2) ∨
        ((v.fileSize (scriptName args)).toNat < 2 ^ 20 ∧
          v.readFile (scriptName args) = v.fileSize (scriptName args)) := by
  have houtcome := v.outcome (scriptName args)
  rw [loadScript_eq]
  generalize v.fileSize (scriptName args) = fsize, v.readFile (scriptName args) = size
    at houtcome ⊢
  simp only
  have hpool : (poolSize : ℤ) = 2 ^ 20 := rfl
  have hlarge : (poolSize : ℤ) < (fsize + 1).toInt ↔
      2 ^ 20 ≤ fsize.toNat ∧ fsize.toNat ≤ 2 ^ 31 - 2 := by
    rw [toInt_size_succ, hpool]
    split <;> omega
  by_cases hempty : fsize = 0
  · rw [if_pos hempty]
    exact iff_of_true (.exits _) (.inl hempty)
  · rw [if_neg hempty]
    by_cases hfull : (poolSize : ℤ) < (fsize + 1).toInt
    · rw [if_pos hfull]
      exact iff_of_true (.exits _) (.inr (.inr (.inl (hlarge.mp hfull))))
    · rw [if_neg hfull]
      by_cases hread : size = 0
      · rw [if_pos hread]
        exact iff_of_true (.exits _) (.inr (.inl hread))
      · rw [if_neg hread, safe_parses_iff fsize size hempty hfull (by tauto)]
        rw [hlarge] at hfull
        tauto

/-- A directory entry with the size `2 ^ 31`, which cannot be read. -/
def hugeVolume : Volume where
  fileSize := fun _ => 0x80000000
  readFile := fun _ => -1
  outcome := fun _ => .inr (.inr rfl)

/-- The script is parsed with a negative index, after a store in front of the pool. -/
theorem huge_script_parsed :
    loadScript hugeVolume none = .ok ⟨0x80000000, 0, -1, 0x80000001⟩ ∧
      ¬ ∀ v args, SafeLoad (loadScript v args) := by
  have hload : loadScript hugeVolume none = .ok ⟨0x80000000, 0, -1, 0x80000001⟩ := by
    rw [loadScript_eq]
    rfl
  refine ⟨hload, ?_⟩
  intro h
  have hsafe := h hugeVolume none
  rw [hload] at hsafe
  cases hsafe with
  | parses _ _ _ hterm => exact absurd hterm.1 (by decide)

end LispDos.Lisp
