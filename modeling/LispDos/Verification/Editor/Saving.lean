import LispDos.Tools.EditorSave
import LispDos.Verification.Fat16.Stored
import LispDos.Verification.Raw.KernelHalf
import LispDos.Verification.Syscall.Isolation

/-! # What the editor says about a save

The handler of system call 9 drops the result of `fat16_write_file` and returns 0, so the editor
reports an error in every case. -/

namespace LispDos.Edit

open Console Memory Syscall Fat16

variable {k k' : Kernel} {dev : Devices} {filename buffer : Word} {len : UInt32} {cs : List ℕ}

/-- The bytes of the program from an address on. -/
def userBytes (k : Kernel) (buffer : Word) (i : ℕ) : UInt8 :=
  loadVirt k.machine.mem k.root (buffer + BitVec.ofNat 64 i)

/-- The message is true: `Arquivo salvo` is shown if and only if the file of that name can be
read afterwards and is exactly the text. -/
def Truthful (k : Kernel) (dev : Devices) (filename buffer : Word) (len : UInt32) : Prop :=
  ∀ screen k', save k dev filename buffer len = some (screen, k') →
    (.print (ascii "Arquivo salvo no HD (FAT16).\n") ∈ screen ↔
      Stored k'.bpb k'.disk (k.string filename) (userBytes k buffer) len.toNat)

/-- The program never receives a positive value. -/
theorem sysFat16WriteFile_nonpos {written : ℤ}
    (h : sysFat16WriteFile k dev filename buffer len = some (written, k')) : written ≤ 0 := by
  have hzero : toInt 0#64 ≤ 0 := by decide
  have hfailed : toInt failed ≤ 0 := by decide
  have hcall : syscallHandlerC k dev 9#64 filename buffer (BitVec.ofNat 64 len.toNat) =
      Syscall.sysFat16WriteFile k filename buffer (BitVec.ofNat 64 len.toNat) := rfl
  unfold sysFat16WriteFile at h
  rw [hcall] at h
  dsimp only [Syscall.sysFat16WriteFile] at h
  split_ifs at h
  · cases h
    exact hfailed
  · cases h
    exact hfailed
  · cases hresult : (fat16WriteFile k.bpb k.disk (k.string filename)
        (fun i => loadVirt k.machine.mem k.root (buffer + BitVec.ofNat 64 i))
        (UInt32.ofNat (BitVec.ofNat 64 len.toNat).toNat)).1 with
    | none =>
        rw [hresult] at h
        cases h
    | some n =>
        rw [hresult] at h
        cases h
        exact hzero

/-- The editor always shows the error message. -/
theorem saved_not_shown {screen : List Op}
    (h : save k dev filename buffer len = some (screen, k')) :
    .print (ascii "Arquivo salvo no HD (FAT16).\n") ∉ screen := by
  obtain ⟨⟨written, k''⟩, hcall, heq⟩ := Option.map_eq_some_iff.mp h
  obtain ⟨rfl, rfl⟩ := Prod.mk.inj heq
  have hwritten := sysFat16WriteFile_nonpos hcall
  have hne : ascii "Arquivo salvo no HD (FAT16).\n" ≠ ascii "Erro ao salvar o arquivo.\n" := by
    decide
  simp [saveMessage, not_lt.mpr hwritten, hne]

theorem truthful_iff : Truthful k dev filename buffer len ↔
    ∀ screen k', save k dev filename buffer len = some (screen, k') →
      ¬ Stored k'.bpb k'.disk (k.string filename) (userBytes k buffer) len.toNat := by
  refine forall₃_congr fun screen k' hsave => ?_
  rw [iff_false_left (saved_not_shown hsave)]

/-- On a consistent volume, with pointers that pass the checks, the call comes back, and the
disk is the one that `fat16_write_file` leaves. -/
theorem save_eq (dev : Devices) (hname : (k.checkString filename).1 = true)
    (hbuffer : k.checkPtr buffer (BitVec.ofNat 64 len.toNat) false = true)
    (hvol : Consistent k.bpb k.disk) : ∃ screen, save k dev filename buffer len = some (screen,
      { k with disk := (fat16WriteRun k.bpb k.disk (k.string filename) (userBytes k buffer) len).2 })
        := by
  obtain ⟨chain, hlayout⟩ := hvol
  have hw := fat16WriteRun_cases hlayout.toSound (k.string filename) (userBytes k buffer) len
  have hlt := len.toNat_lt
  have hmod : len.toNat % 2 ^ 64 = len.toNat := Nat.mod_eq_of_lt (by omega)
  have hsize : UInt32.ofNat (BitVec.ofNat 64 len.toNat).toNat = len := by
    rw [BitVec.toNat_ofNat, hmod, UInt32.ofNat_toNat]
  have hreturns : ∃ n, (fat16WriteRun k.bpb k.disk (k.string filename) (userBytes k buffer)
      len).1.result len.toNat = some n := by
    generalize fat16WriteRun k.bpb k.disk (k.string filename) (userBytes k buffer) len = w at hw
    cases hw with
    | rootFull => exact ⟨0, rfl⟩
    | diskFull => exact ⟨0, rfl⟩
    | done => exact ⟨_, rfl⟩
  obtain ⟨n, hn⟩ := hreturns
  have hcall : syscallHandlerC k dev 9#64 filename buffer (BitVec.ofNat 64 len.toNat) =
      Syscall.sysFat16WriteFile k filename buffer (BitVec.ofNat 64 len.toNat) := rfl
  have hdata : (fun i => loadVirt k.machine.mem k.root (buffer + BitVec.ofNat 64 i)) =
      userBytes k buffer := rfl
  refine ⟨[.clear, .print (saveMessage 0)], ?_⟩
  have hzero : toInt 0#64 = 0 := by decide
  unfold save sysFat16WriteFile
  rw [hcall]
  simp only [Syscall.sysFat16WriteFile, hname, hsize, hbuffer, Bool.true_eq_false, if_false, hdata,
    fat16WriteFile, hn, Option.elim_some, Option.map_some, hzero]

/-- The message is true on no disk on which the text can be read afterwards, and with pointers
that pass the checks and a consistent volume that can be said in advance. -/
theorem save_truthful_iff (k : Kernel) (dev : Devices) (filename buffer : Word) (len : UInt32)
    (hlen : len.toNat < 2 ^ 20) :
    (Truthful k dev filename buffer len ↔
      ∀ screen k', save k dev filename buffer len = some (screen, k') →
        ¬ Stored k'.bpb k'.disk (k.string filename) (userBytes k buffer) len.toNat) ∧
    ((k.checkString filename).1 = true →
      k.checkPtr buffer (BitVec.ofNat 64 len.toNat) false = true →
      Consistent k.bpb k.disk →
      ∀ cs, Replaced k.bpb k.disk (formatFatName (k.string filename)) cs →
        (Truthful k dev filename buffer len ↔
          (k.string filename).head? = some 0xE5 ∨
            (¬ (HasSlot k.bpb k.disk (formatFatName (k.string filename)) ∧
                need k.bpb len.toNat ≤ (available k.bpb k.disk cs).card) ∧
              ¬ (available k.bpb k.disk cs = ∅ ∧ len.toNat ≤ clusterBytes k.bpb ∧
                Stored k.bpb k.disk (k.string filename) (userBytes k buffer) len.toNat)))) := by
  refine ⟨truthful_iff, ?_⟩
  intro hname hbuffer hvol cs hcs
  obtain ⟨screen, hsave⟩ := save_eq dev hname hbuffer hvol
  have htruthful : Truthful k dev filename buffer len ↔
      ¬ Stored k.bpb (fat16WriteRun k.bpb k.disk (k.string filename) (userBytes k buffer) len).2
        (k.string filename) (userBytes k buffer) len.toNat := by
    rw [truthful_iff]
    constructor
    · intro h
      exact h screen _ hsave
    · intro h screen' k' hsave'
      rw [hsave] at hsave'
      cases hsave'
      exact h
  rw [htruthful]
  by_cases hdeleted : (k.string filename).head? = some 0xE5
  · exact iff_of_true (not_stored_of_deleted hdeleted) (.inl hdeleted)
  · obtain ⟨chain, hlayout⟩ := hvol
    rw [stored_iff hlayout hdeleted hcs (userBytes k buffer) len (by omega), not_or,
      or_iff_right hdeleted]

/-- One page of the program at `0x1000`, with the string `A` and behind it the byte 7. -/
def savingMemory : PhysMem := fun page i =>
  match page, i with
  | 1, 0 => 0x2007#64
  | 2, 0 => 0x3007#64
  | 3, 0 => 0x4007#64
  | 4, 1 => 0x5007#64
  | 5, 0 => 0x70041#64
  | _, _ => 0#64

def savingKernel : Kernel where
  machine := { Raw.sampleMachine with mem := savingMemory }
  cr3 := 0x1000#64
  display := ⟨vgaMode, 0xFFFF8000FD000000#64, fun _ _ => 0, .start⟩
  bpb := smallBpb 6
  disk := blankDisk

theorem savingKernel_load : userBytes savingKernel 0x1000#64 0 = 0x41 ∧
    userBytes savingKernel 0x1000#64 1 = 0 := by
  decide +kernel

theorem savingKernel_string : savingKernel.string 0x1000#64 = [0x41] := by
  obtain ⟨h₀, h₁⟩ := savingKernel_load
  have hlt : (0x1000#64 : Word) < lowerLimit := by decide
  have hlt' : (0x1000#64 : Word) + 1#64 < lowerLimit := by decide
  have hfirst : loadVirt savingKernel.machine.mem savingKernel.root 0x1000#64 = 0x41 := h₀
  have hsecond : loadVirt savingKernel.machine.mem savingKernel.root (0x1000#64 + 1#64) = 0 := h₁
  have hne : (0x41 : UInt8) ≠ 0 := by decide
  rw [Kernel.string, cString, dif_pos hlt, hfirst, if_neg hne, cString, dif_pos hlt', hsecond,
    if_pos rfl]

theorem savingKernel_checkString : (savingKernel.checkString 0x1000#64).1 = true := by
  have hlt : (0x1000#64 : Word) < lowerLimit := by decide
  have hpage : checkPage savingKernel.machine.mem savingKernel.root (pageStart 0x1000#64) false =
      true := by
    decide +kernel
  have hfound : (findTerminator savingKernel.machine.mem savingKernel.root 0x1000#64).isSome =
      true := by
    have hrest : restOfPage 0x1000#64 = 4096 := by decide
    have hzero : loadVirt savingKernel.machine.mem savingKernel.root
        (0x1000#64 + BitVec.ofNat 64 1) = 0 := savingKernel_load.2
    rw [findTerminator, List.find?_isSome, hrest]
    exact ⟨1, List.mem_range.mpr (by omega), decide_eq_true hzero⟩
  rw [Kernel.checkString, vmmCheckUserString, dif_pos hlt, if_pos hpage]
  simp only [hfound, if_true]

theorem savingKernel_replaced :
    Replaced savingKernel.bpb savingKernel.disk (formatFatName [0x41]) [] :=
  .new fun _ _ hm => slot_blankDisk_not_live _ _ hm.1

/-- The file is stored, and the editor reports an error. -/
theorem stored_file_reported_as_error :
    Consistent savingKernel.bpb savingKernel.disk ∧
      (savingKernel.checkString 0x1000#64).1 = true ∧
      savingKernel.checkPtr 0x1002#64 (BitVec.ofNat 64 (1 : UInt32).toNat) false = true ∧
      ¬ Truthful savingKernel ⟨0#64⟩ 0x1000#64 0x1002#64 1 := by
  have hlayout := blankDisk_layout smallBpb_six fun _ => []
  have hvol : Consistent savingKernel.bpb savingKernel.disk := ⟨_, hlayout⟩
  have hbuffer : savingKernel.checkPtr 0x1002#64 (BitVec.ofNat 64 (1 : UInt32).toNat) false =
      true := by
    decide +kernel
  refine ⟨hvol, savingKernel_checkString, hbuffer, ?_⟩
  rw [truthful_iff]
  intro h
  obtain ⟨screen, hsave⟩ := save_eq ⟨0#64⟩ savingKernel_checkString hbuffer hvol
  apply h screen _ hsave
  rw [savingKernel_string]
  refine (stored_iff hlayout (by decide) savingKernel_replaced _ 1 (by decide)).mpr (.inl ⟨?_, ?_⟩)
  · exact ⟨0, by decide, .inr (slot_blankDisk_not_live _ 0)⟩
  · decide +kernel

/-- Two clusters are needed for 513 bytes, and the volume has one. -/
theorem save_truthful_iff_small :
    Truthful savingKernel ⟨0#64⟩ 0x1000#64 0x1002#64 513 := by
  have hvol : Consistent savingKernel.bpb savingKernel.disk :=
    ⟨_, blankDisk_layout smallBpb_six fun _ => []⟩
  have hreplaced : Replaced savingKernel.bpb savingKernel.disk
      (formatFatName (savingKernel.string 0x1000#64)) [] := by
    rw [savingKernel_string]
    exact savingKernel_replaced
  refine ((save_truthful_iff savingKernel ⟨0#64⟩ 0x1000#64 0x1002#64 513 (by decide)).2
    savingKernel_checkString (by decide +kernel) hvol [] hreplaced).mpr (.inr ⟨?_, ?_⟩)
  · rintro ⟨_, hcard⟩
    revert hcard
    decide +kernel
  · rintro ⟨_, hsize, _⟩
    exact absurd hsize (by decide)

end LispDos.Edit
