import LispDos.Verification.Process.Arguments
import LispDos.Verification.Raw.Image

/-! # The argument pointer beside the bitmap

With the pages of the bitmap in use, the stack of a program is mapped as it is on the machine that
is taken apart, and so are its arguments. -/

namespace LispDos.Raw

open Foundation Memory Process

variable {H D : Set ℕ} {r r' : Machine} {m m' m₁ : Memory.Machine} {c : Context} {root limit : ℕ}
  {pages S : List ℕ} {phys map entry stack : Word} {buf : ℕ → UInt8} {l : Loader}
  {l' : Process.Loader} {fs : Files} {filename : List UInt8} {args : Option (List UInt8)}
  {x : ExecExit × Loader} {x' : ExecExit × Process.Loader}

/-! ## How the stack is mapped -/

/-- No page that differs is a table. -/
theorem Going.aside (h : Going H m₁ root pages S D r m) (hground : Ground H m₁ phys limit buf) :
    Aside m root (H ∪ D) :=
  fun x hx => ⟨h.used hground x hx, fun _ hq heq => h.table hground hq heq hx⟩

/-- The ways in which the stack is mapped when user mode is entered: there are as many pages
left as tables are missing, the stack page counted in, or the stack page is read as a
table. -/
theorem Entry.stack_cases (h : Entry r fs filename args c l' D x x') (hargs : ArgsFit args)
    (hlow : ∀ s ∈ c.reached, s.vaddr.toNat < 2 ^ 47) :
    ∃ n, n ∈ clearPages c.machine.pmm.bitmap c.machine.pmm.highestPage ∧
      (∀ i < 4096, loadByte x.2.machine.mem (n * 4096 + i) =
        stackByte args (fun k => loadByte c.machine.mem (n * 4096 + k)) i) ∧
      (tablesFor (c.reached.map SegPage.number) stackPage.number ≤ c.remaining ∧
          StackOn x.2.machine.mem c.root n ∨
        c.remaining < tablesFor (c.reached.map SegPage.number) stackPage.number ∧
          StackAsTable x.2.machine.mem c.root n) := by
  obtain ⟨hleft, pages, S, hp⟩ := h.progress hlow
  have hroot := Context.map_div h.accepted
  have hcase := hp.toPlaced.enter_case hroot hargs c.phys (filePages c.size)
  have hjump : x' = jump c.phys (filePages c.size) c.map args (stackLog l' c.map) _ :=
    h.call.trans (enter_eq h.page (filePages c.size))
  have hend : ∀ s ∉ {t | r.Stores t} ∪ D, x.2.machine.mem s =
      (Process.mapStack c.map l'.machine.allocPage.1 args l'.machine.allocPage.2).mem s :=
    fun s hs => h.mem (congrArg (fun y : ExecExit × Process.Loader => y.2.machine) hjump) hs
  have hsmall : ∀ n ∈ clearPages c.machine.pmm.bitmap c.machine.pmm.highestPage, n < 2 ^ 40 :=
    fun n hn => (mem_clearPages.mp hn).1.trans_le c.machine.physical
  have hexit := h.jumped.exit'
  have hground := h.ground
  have happart : ∀ n, l'.machine.allocPage.1 = pageAddr n → n < 2 ^ 40 → n ∉ {t | r.Stores t} ∪ D :=
    fun n => h.page_apart
  rw [← h.call] at hcase
  rw [← hleft]
  generalize hy : x' = y at hcase
  cases hcase with
  | full hfull =>
      rw [hy] at hexit
      cases hexit
  | stacked m' pages' S' n hallocs hroom hstacked haddr =>
      have hmachine := congrArg (fun y : ExecExit × Process.Loader => y.2.machine) hy
      have hn := hsmall n hstacked.free
      refine ⟨n, hstacked.free, fun i hi => ?_, .inl ⟨by omega, ?_⟩⟩
      · rw [loadByte_congr (h.mem hmachine (happart n haddr hn)) (by omega)]
        exact hstacked.bytes i hi
      · exact hstacked.stackOn (h.sameTables hmachine hstacked.placed.half)
  | starved m' pages' S' hpos hzero hshort hstarved n hmisplaced haddr =>
      have hmachine := congrArg (fun y : ExecExit × Process.Loader => y.2.machine) hy
      obtain ⟨_, _, _, going⟩ := h.going
      have hzero' : 0 ∉ {t | r.Stores t} ∪ D := fun hin => (going.bad hground 0 hin).1 rfl
      obtain ⟨q, hq, hpre, hcount, hleads⟩ := hp.toPlaced.stack_leads hroot hargs h.page hzero
        (going.aside hground) hzero' hend
      have hentry : x.2.machine.mem 0 0 = tableEntry n := by
        rw [h.mem hmachine hzero']
        exact hmisplaced.entry
      refine ⟨n, hmisplaced.free, fun i hi => ?_, ?_⟩
      · rw [loadByte_congr (h.mem hmachine (happart n haddr hmisplaced.small)) (by omega)]
        exact hmisplaced.bytes i hi
      · by_cases hlast : tablesFor (c.reached.map SegPage.number) stackPage.number ≤
            freePages l'.machine
        · have hlength : (tablePath userStack).length ≤ q.length := by
            have hthree : (tablePath userStack).length = 3 := rfl
            omega
          rw [hpre.eq_of_length_le hlength] at hleads
          exact .inl ⟨hlast, stackOn_of_leads hmisplaced.small hentry hleads⟩
        · exact .inr ⟨not_le.mp hlast, hmisplaced.small, hentry, q, hq, hpre, by omega,
            hleads _ followsTables_user⟩

/-! ## What the registers hold -/

/-- A part of the loading that ends the call does not enter user mode. -/
def Step.Stops (s : Step) : Prop := ∀ exit l, s = .stop exit l → ∀ map entry stack,
  exit ≠ .entered map entry stack

theorem stops_go (l : Loader) : (Step.go l).Stops := fun _ _ h => by cases h

theorem stops_stop {exit : ExecExit} (hexit : ∀ map entry stack, exit ≠ .entered map entry stack)
    (l : Loader) : (Step.stop exit l).Stops := by
  intro exit' l' h
  obtain ⟨rfl, rfl⟩ := Step.stop.inj h
  exact hexit

theorem Step.Stops.andThen {s : Step} {f : Loader → Step} (h : s.Stops) (hf : ∀ l, (f l).Stops) :
    (s.andThen f).Stops := by
  cases s with
  | go l => exact hf l
  | stop exit l => exact h

theorem loadPages_stops (seg : Segment) (n j : ℕ) (l : Loader) :
    (loadPages phys map seg n j l).Stops := by
  induction n generalizing j l with
  | zero => exact stops_go l
  | succ n ih =>
      refine Step.Stops.andThen ?_ fun l => ih (j + 1) l
      simp only [loadPage]
      split
      · exact stops_stop (by simp) _
      · split
        · exact stops_go _
        · split
          · exact stops_stop (by simp) _
          · exact stops_go _

theorem loadHeaders_stops (phoff : Word) (n i : ℕ) (l : Loader) :
    (loadHeaders phys map phoff n i l).Stops := by
  induction n generalizing i l with
  | zero => exact stops_go l
  | succ n ih =>
      simp only [loadHeaders]
      split
      · refine Step.Stops.andThen ?_ fun l => ih (i + 1) l
        simp only [loadHeader]
        split
        · split
          · exact stops_stop (by simp) _
          · exact loadPages_stops _ _ _ _
        · exact stops_go _
      · exact stops_go _

theorem enter_stack {count : ℕ} {map' : Word}
    (h : (enter phys count map args l).1 = .entered map' entry stack) : stack = stackPointer args := by
  simp only [enter] at h
  split at h
  · cases h
  · exact (ExecExit.entered.inj h).2.2.symm

theorem execElf_stack {size : ℕ} (h : (execElf phys size args r).1 = .entered map entry stack) :
    stack = stackPointer args := by
  simp only [execElf] at h
  split at h
  · rename_i exit hheader
    have herror : exit ≠ .entered map entry stack := by
      rintro rfl
      simp only [checkHeader] at hheader
      split_ifs at hheader
      all_goals cases hheader
    exact (herror h).elim
  · split at h
    · cases h
    · generalize hstep : loadHeaders phys _ _ 65536 0 _ = step at h
      have hstops : step.Stops := hstep ▸ loadHeaders_stops _ _ _ _
      cases step with
      | go l => exact enter_stack h
      | stop exit l =>
          cases exit
          case entered map' entry' stack' => exact (hstops _ _ rfl _ _ _ rfl).elim
          all_goals cases h

/-- The stack pointer of every program that is entered. -/
theorem processExec_stack (h : (processExec fs filename args r).1 = .entered map entry stack) :
    stack = stackPointer args := by
  simp only [processExec] at h
  split at h
  · cases h
  · split at h
    · cases h
    · split at h
      · cases h
      · split at h
        · cases h
        · exact execElf_stack h

/-! ## Whole calls -/

/-- User mode has been entered. -/
def Entered (x : ExecExit × Loader) : Prop := ∃ map entry stack, x.1 = .entered map entry stack

/-- The call enters user mode in a state a program may rely on. -/
def StartsValid (args : Option (List UInt8)) (x : ExecExit × Loader) : Prop :=
  ∀ map entry stack, x.1 = .entered map entry stack → ∀ regs ∈ x.1.registers,
    ValidStart x.2.machine.mem (map.toNat / 4096) args regs

/-- Without arguments the pointer is the end of the stack page. -/
theorem StartsValid.arguments (h : StartsValid args x) (hargs : ArgsFit args)
    (hexit : x.1 = .entered map entry (stackPointer args)) :
    ∃ a ∈ args, StackString x.2.machine.mem (map.toNat / 4096) a (stackPointer args) :=
  (h map entry _ hexit _ (registers_eq hexit)).arguments.resolve_left (stackPointer_ne_zero hargs)

section Entry

variable (h : Entry r fs filename args c l' D x x') (hargs : ∀ a ∈ args, ShellString a)
  (hlow : ∀ s ∈ c.reached, s.vaddr.toNat < 2 ^ 47)

include h hargs hlow

theorem Entry.startsValid (hsome : args ≠ none) (htables : StackTables fs filename r.apart) :
    StartsValid args x := by
  obtain ⟨a, rfl⟩ := Option.ne_none_iff_exists'.mp hsome
  obtain ⟨n, _, hbytes, hcase⟩ := h.stack_cases (ShellString.argsFit hargs) hlow
  have hfits := htables c h.context h.header
  intro map entry stack hexit regs hregs
  rw [registers_eq h.jumped.exit] at hregs
  obtain rfl := Option.some_inj.mp hregs
  rw [h.jumped.exit] at hexit
  obtain ⟨rfl, _, _⟩ := ExecExit.entered.inj hexit
  rcases hcase with ⟨_, hstack⟩ | ⟨hshort, _⟩
  · rw [Context.map_div h.accepted]
    exact hstack.validStart (hargs a rfl) hbytes _
  · omega

theorem Entry.stackTables (hblank : BlankPages fs filename r.apart) (hvalid : StartsValid args x) :
    StackTables fs filename r.apart := by
  have hfit := ShellString.argsFit hargs
  obtain ⟨n, hfree, hbytes, hcase⟩ := h.stack_cases hfit hlow
  intro c' hcontext _
  rw [h.context] at hcontext
  obtain rfl := Option.some_inj.mp hcontext
  rcases hcase with ⟨hfits, _⟩ | ⟨_, htable⟩
  · exact hfits
  · have hword := present_stackPage hargs hbytes (hblank c h.context n hfree)
    obtain ⟨a, _, hstring⟩ := hvalid.arguments hfit h.jumped.exit
    rw [Context.map_div h.accepted] at hstring
    exact (htable.not_stackString hword hstring).elim

end Entry

/-- A program is given a valid argument pointer only by a call with arguments. With the pages of the
bitmap in use, such a call gives one if no page at or above the limit of the lower half is mapped
and the pages that are left for the stack are as many as the tables that are missing above it; and
if they are fewer it gives none, unless the stack page already held an entry for a page. -/
theorem argument_pointer_iff (fs : Files) (filename : List UInt8) (args : Option (List UInt8))
    (r : Machine) (hargs : ∀ a ∈ args, ShellString a)
    (hentered : Entered (processExec fs filename args r)) :
    (StartsValid args (processExec fs filename args r) → args ≠ none) ∧
      (args ≠ none → BitmapSafe r → bitmapTest r.bitmap 0 = true → RamdiskFits fs filename →
        LoadsLow fs filename r.apart →
        (StackTables fs filename r.apart → StartsValid args (processExec fs filename args r)) ∧
        (BlankPages fs filename r.apart → StartsValid args (processExec fs filename args r) →
          StackTables fs filename r.apart)) := by
  obtain ⟨map, entry, stack, hexit⟩ := hentered
  have hfit := ShellString.argsFit hargs
  constructor
  · intro hvalid
    obtain rfl := processExec_stack hexit
    obtain ⟨a, ha, _⟩ := hvalid.arguments hfit hexit
    rintro rfl
    cases ha
  · intro hsome hsafe hzero hfits hlow
    have hmaps := maps_of_loadsLow (zero_apart hzero) hlow args
    obtain ⟨c, l', D, hentry⟩ :=
      (processExec_alike hsafe hzero hfits.storesFit args).entry hfit hmaps hexit
    have hreached := hlow c hentry.context hentry.header
    exact ⟨hentry.startsValid hargs hreached hsome, hentry.stackTables hargs hreached⟩

/-! ## A program with an argument, and one without -/

theorem smallFile_entered (hargs : ArgsFit args) :
    Entered (processExec (sampleFiles smallFile) [0x61] args sampleMachine) := by
  obtain ⟨_, _, _, _, _, _, _, _, h⟩ := exec_loads smallFile_regular smallFile_delivers
    sampleMachine_safe (by decide) hargs (smallFile_allocs hargs)
  exact ⟨_, _, _, h.exit⟩

theorem smallFile_fits : RamdiskFits (sampleFiles smallFile) [0x61] := by
  unfold RamdiskFits
  decide +kernel

/-- All tables above the stack page can be allocated. -/
theorem smallFile_tables :
    StackTables (sampleFiles smallFile) [0x61] sampleMachine.apart := by
  have hargs : ArgsFit none := by simp [ArgsFit]
  obtain ⟨c, l, _, _, _, _, _, _, h⟩ := exec_loads smallFile_regular smallFile_delivers
    sampleMachine_safe (by decide) hargs (smallFile_allocs hargs)
  intro c' hcontext _
  rw [h.completes.context] at hcontext
  obtain rfl := Option.some_inj.mp hcontext
  have hroom := smallFile_stackRoom
  unfold StackRoom at hroom
  rw [h.completes.reached,
    h.completes.holds.remaining_eq smallFile_loadable.size smallFile_loadable.accepted]
  omega

theorem argument_pointer_iff_smallFile : StartsValid (some [0x78])
    (processExec (sampleFiles smallFile) [0x61] (some [0x78]) sampleMachine) := by
  have hargs : ∀ a ∈ some [0x78], ShellString a := by
    simp only [Option.mem_def, Option.some_inj, forall_eq']
    exact ⟨by decide, by decide⟩
  have hlow : LoadsLow (sampleFiles smallFile) [0x61] sampleMachine.apart :=
    smallFile_regular.loadsLow smallFile_delivers (by decide)
  exact ((argument_pointer_iff _ _ _ _ hargs (smallFile_entered (ShellString.argsFit hargs))).2
    (by simp) sampleMachine_safe (by decide) smallFile_fits hlow).1 smallFile_tables

/-- The shell passes no arguments for `exec`. -/
theorem no_arguments_no_pointer :
    Entered (processExec (sampleFiles smallFile) [0x61] none sampleMachine) ∧
      ¬ StartsValid none (processExec (sampleFiles smallFile) [0x61] none sampleMachine) := by
  have hargs : ArgsFit none := by simp [ArgsFit]
  have hentered := smallFile_entered hargs
  refine ⟨hentered, fun hvalid => ?_⟩
  obtain ⟨map, entry, stack, hexit⟩ := hentered
  obtain rfl := processExec_stack hexit
  obtain ⟨a, ha, _⟩ := hvalid.arguments hargs hexit
  cases ha

end LispDos.Raw
