import LispDos.Verification.Process.Image

/-! # What was in the stack page

The stack page of a new program is not cleared: what is below the arguments is what the page held
before it was allocated. -/

namespace LispDos.Process

open Memory Foundation

variable {fs : Files} {filename file : List UInt8} {m m' m₁ m₂ : Machine}
  {args : Option (List UInt8)} {c : Context} {l : Loader} {pages S : List ℕ}

/-- User mode has been entered. -/
def Entered (r : ExecExit × Loader) : Prop := ∃ map entry stack, r.1 = .entered map entry stack

/-- The arguments with their terminator take the whole stack page. -/
def FillsStack (args : Option (List UInt8)) : Prop := ∃ a ∈ args, a.length + 1 = 4096

/-! ## Memory for the program -/

/-- There is memory for the buffer, the address space and the stack page. -/
structure Enterable (file : List UInt8) (m : Machine) : Prop extends Loadable file m where
  buffer : (m.allocPages (BitVec.ofNat 64 (filePages file.length))).1 ≠ 0#64
  left : 0 < fileRemaining file m

/-- It depends on the allocator only. -/
theorem Enterable.congr (h : Enterable file m) (hpmm : m'.pmm = m.pmm) : Enterable file m' := by
  have hfree := freePages_congr hpmm
  have hreached : fileReached file m' = fileReached file m := by
    unfold fileReached
    rw [hfree]
  have hremaining : fileRemaining file m' = fileRemaining file m := by
    unfold fileRemaining
    rw [hfree]
  have hbuffer : ∀ count, (m'.allocPages count).1 = (m.allocPages count).1 := by
    intro count
    simp only [Machine.allocPages, hpmm]
  refine ⟨⟨h.size, h.accepted, by rw [hfree]; exact h.room, by rw [hreached]; exact h.all,
    by rw [hfree]; exact h.starves, h.place⟩, ?_, by rw [hremaining]; exact h.left⟩
  rw [hbuffer]
  exact h.buffer

section Calls

variable (hfile : RegularElf file) (h : Delivers fs filename file)
  (hzero : bitmapTest m.pmm.bitmap 0 = true)

include hfile h hzero

theorem Enterable.of_entered (hargs : ArgsFit args)
    (hentered : Entered (processExec fs filename args m)) : Enterable file m := by
  have hsize : 58 ≤ file.length := le_trans (by decide) hfile.long
  have hlt := h.length_lt
  obtain ⟨c, l, pages, S, hdone⟩ := hfile.completes h hzero (.inl hentered)
  obtain ⟨i, hfetched⟩ := hdone.holds.fetched
  have hused := hfetched.left
  have hpos := hdone.room
  have hleft := hdone.left
  have hreached := hdone.reached
  have hstarves := hdone.starves
  rw [hdone.holds.size] at hused
  rw [hdone.holds.remaining_eq hsize hfile.accepted] at hleft
  rw [hdone.holds.reached_eq hsize hfile.accepted] at hreached
  rw [Context.starves, hdone.holds.plan_eq hsize hfile.accepted, hdone.holds.free_eq] at hstarves
  refine ⟨⟨hsize, hfile.accepted, by omega, hreached, hstarves, ?_⟩,
    Succeeds.room h (.inl hentered), ?_⟩
  · intro s hs
    exact SegPage.astray_eq_false.mpr ⟨hfile.faults hs hlt, hfile.low hs⟩
  · have hcase := hdone.enter_case hargs
    obtain ⟨map, entry, stack, hexit⟩ := hentered
    generalize processExec fs filename args m = r at hcase hexit
    cases hcase with
    | full hfull => cases hexit
    | starved m' pages' S' hpos' hz hshort hstarved n hmisplaced => omega
    | stacked m' pages' S' n hallocs hroom hstacked => omega

/-- With memory for a program and its stack page user mode is entered. -/
theorem Enterable.entered (hargs : ArgsFit args) (henter : Enterable file m) :
    Entered (processExec fs filename args m) := by
  obtain ⟨c, l, pages, S, hdone, _⟩ := henter.toLoadable.completes h hzero henter.buffer
    hfile.not_refused args
  have hleft := hdone.left
  have hpos := henter.left
  rw [hdone.holds.remaining_eq henter.size hfile.accepted] at hleft
  have hcase := hdone.enter_case hargs
  generalize processExec fs filename args m = r at hcase
  cases hcase with
  | full hfull => omega
  | starved m' pages' S' hpos' hz hshort hstarved n hmisplaced => exact ⟨_, _, _, rfl⟩
  | stacked m' pages' S' n hallocs hroom hstacked => exact ⟨_, _, _, rfl⟩

end Calls

/-! ## Arguments that fill the stack page -/

/-- What user mode reads does not depend on the machine. -/
theorem Stacked.userByte_of_fills {pages' S' : List ℕ} {n : ℕ}
    (h : Stacked c.machine l.machine m' c.root pages' S' (filePlan file) args n)
    (hdone : Completes fs filename file args m c l pages S) (hfile : RegularElf file)
    (hfills : FillsStack args) {v : Word} (hv : v.toNat < 2 ^ 47) :
    userByte m'.mem c.root v =
      if v.toNat / 4096 = stackPage.number then
        some (stackByte args (fun _ => 0) (v.toNat % 4096))
      else planByte file v.toNat := by
  rw [hdone.userByte_eq hfile h hv]
  obtain ⟨a, ha, hlen⟩ := hfills
  have hbytes := argBytes_length a
  -- every byte of the page is one of the arguments
  have hfull : ∀ old : ℕ → UInt8, ∀ i, stackByte args old i =
      (argBytes a).getD (i + (argBytes a).length - 4096) 0 := by
    intro old i
    rw [Option.mem_def.mp ha]
    simp only [stackByte, Option.elim_some]
    rw [if_pos (by omega)]
  simp only [hfull]

/-! ## Other arguments -/

theorem loadByte_pageStart (mem : PhysMem) (n : ℕ) :
    loadByte mem (n * 4096) = wordByte (mem n 0) 0 := by
  have hpage : n * 4096 / 4096 = n := by omega
  have hword : n * 4096 % 4096 / 8 = 0 := by omega
  have hbyte : n * 4096 % 8 = 0 := by omega
  rw [loadByte, hpage, hword, hbyte]

/-- A page that is free once the file has been read holds what it held before. -/
theorem Context.Holds.free_mem (h : c.Holds m file) {n : ℕ}
    (hn : n ∈ clearPages c.machine.pmm.bitmap c.machine.pmm.highestPage) :
    n ∈ clearPages m.pmm.bitmap m.pmm.highestPage ∧ c.machine.mem n = m.mem n := by
  obtain ⟨i, hfetched⟩ := h.fetched
  obtain ⟨hlt, hclear⟩ := mem_clearPages.mp hn
  have hbits := hfetched.took.bits n
  rw [hclear] at hbits
  have hclear' : bitmapTest m.pmm.bitmap n = false := (Bool.or_eq_false_iff.mp hbits.symm).2
  refine ⟨mem_clearPages.mpr ⟨?_, hclear'⟩, h.frame n (hclear.trans hclear'.symm)⟩
  rwa [← hfetched.took.highest]

theorem stackByte_start (hargs : ArgsFit args) (hnot : ¬ FillsStack args) (old : ℕ → UInt8) :
    stackByte args old 0 = old 0 := by
  cases hcase : args with
  | none => rfl
  | some a =>
      have hlen := hargs a hcase
      have hne : a.length + 1 ≠ 4096 := fun heq => hnot ⟨a, hcase, heq⟩
      have hbytes := argBytes_length a
      simp only [stackByte, Option.elim_some]
      rw [if_neg (by omega)]

/-- What user mode finds at the start of the stack, when the free pages were filled with the
word `w`: the first byte of the word, or an address space that the word decides on. -/
def ShowsWord (w : Word) (x : Option UInt8) : Prop :=
  x = some (wordByte w 0) ∨
    ((wordByte w 0).toNat = 0x87 → x.isSome = true) ∧ ((wordByte w 0).toNat % 2 = 0 → x = none)

/-- Three words of which no address space shows the same. -/
theorem words_told_apart {x : Option UInt8} (h₀ : ShowsWord 0#64 x) (h₂ : ShowsWord 2#64 x)
    (hpage : ShowsWord 0x87#64 x) : False := by
  have hb₀ : wordByte 0#64 0 = 0 := by decide
  have hb₂ : wordByte 2#64 0 = 2 := by decide
  have hbpage : wordByte 0x87#64 0 = 0x87 := by decide
  simp only [ShowsWord, hb₀, hb₂, hbpage] at h₀ h₂ hpage
  have hnone : x = none := by
    rcases h₀ with h₀ | ⟨_, h₀⟩
    · rcases h₂ with h₂ | ⟨_, h₂⟩
      · rw [h₀] at h₂
        exact absurd h₂ (by decide)
      · exact h₂ (by decide)
    · exact h₀ (by decide)
  rw [hnone] at hpage
  rcases hpage with hpage | ⟨hpage, _⟩
  · cases hpage
  · exact absurd (hpage (by decide)) (by decide)

end LispDos.Process
