import LispDos.Verification.Process.KernelHalf
import LispDos.Verification.Process.Segments
import Mathlib.Data.List.TakeWhile

/-! # Loading a regular file

The segments of a regular file lie in the lower half and their contents in the file. If
user mode is entered, or if no allocation fails, all of their pages have been loaded. -/

namespace LispDos.Process

open Memory Foundation

variable {fs : Files} {filename file : List UInt8} {m : Machine} {args : Option (List UInt8)}
  {s : SegPage}

/-- An ELF file with a whole header that passes the checks, and regular segments. -/
structure RegularElf (file : List UInt8) : Prop where
  long : 64 ≤ file.length
  accepted : HeaderAccepted (fileByte file) file.length
  regular : ∀ seg ∈ segments (fileByte file), seg.Regular file.length

/-- The pages of a file. -/
def filePlan (file : List UInt8) : List SegPage := pagesOf (segments (fileByte file))

section Plan

variable (hfile : RegularElf file)

include hfile

theorem RegularElf.allowed {seg : Segment} (h : seg ∈ segments (fileByte file)) :
    seg.allowed = true := by
  have hstart := (hfile.regular seg h).start
  rw [Segment.allowed, decide_eq_true_eq, BitVec.lt_def]
  exact hstart

theorem RegularElf.not_refused : refused (segments (fileByte file)) = false := by
  rw [refused, List.any_eq_false]
  intro seg hseg
  rw [hfile.allowed hseg]
  decide

/-- No segment is refused, so all of their pages are planned. -/
theorem RegularElf.plan_eq : filePlan file = (segments (fileByte file)).flatMap Segment.pages := by
  have hall : (segments (fileByte file)).takeWhile Segment.allowed = segments (fileByte file) :=
    List.takeWhile_eq_self_iff.mpr fun seg hseg => hfile.allowed hseg
  rw [filePlan, pagesOf, hall]

theorem RegularElf.mem_plan_iff : s ∈ filePlan file ↔
    s.seg ∈ segments (fileByte file) ∧ s.index < s.seg.pageCount := by
  rw [hfile.plan_eq]
  simp only [List.mem_flatMap, Segment.pages, List.mem_map, List.mem_range]
  constructor
  · rintro ⟨seg, hseg, j, hj, rfl⟩
    exact ⟨hseg, hj⟩
  · rintro ⟨hseg, hj⟩
    exact ⟨s.seg, hseg, s.index, hj, rfl⟩

variable (hs : s ∈ filePlan file)

include hs

theorem RegularElf.low : s.vaddr.toNat < 2 ^ 47 := by
  obtain ⟨hseg, hj⟩ := hfile.mem_plan_iff.mp hs
  exact (hfile.regular _ hseg).page_low hj

variable (hlt : file.length < 2 ^ 32)

include hlt

theorem RegularElf.faults : s.faults = false := by
  obtain ⟨hseg, hj⟩ := hfile.mem_plan_iff.mp hs
  exact (hfile.regular _ hseg).faults_eq hj hlt

theorem RegularElf.within : s.within file.length := by
  obtain ⟨hseg, hj⟩ := hfile.mem_plan_iff.mp hs
  exact (hfile.regular _ hseg).within hj hlt

end Plan

/-! ## Allocations -/

/-- No allocation of a call has failed, neither one of its own nor one in `vmm_map_page`. -/
structure NoAllocFails (r : ExecExit × Loader) : Prop where
  exit : r.1 ≠ .noFileMemory ∧ r.1 ≠ .noPagemap ∧ r.1 ≠ .noMemory ∧ r.1 ≠ .noStack
  tables : ∀ before map v, .map before map v ∈ r.2.log → ∀ a ∈ mapAllocs before map v, a ≠ 0#64

/-- User mode is entered, or no allocation fails. -/
def Succeeds (r : ExecExit × Loader) : Prop :=
  (∃ map entry stack, r.1 = .entered map entry stack) ∨ NoAllocFails r

/-- A file that has been found lies in the buffer. -/
theorem Delivers.holds (h : Delivers fs filename file) (hzero : bitmapTest m.pmm.bitmap 0 = true)
    {c : Context} (hcontext : contextOf fs filename m = some c) : c.Holds m file := by
  have hroom : (m.allocPages (BitVec.ofNat 64 (filePages file.length))).1 ≠ 0#64 := by
    intro hfail
    rw [← h.size] at hfail
    have hfetch : fetch fs filename m = none := by
      simp only [fetch, hfail, or_true, if_true]
    simp [contextOf, hfetch] at hcontext
  obtain ⟨c', hcontext', hholds⟩ := h.context hzero hroom
  rw [hcontext] at hcontext'
  rwa [Option.some_inj.mp hcontext']

/-- The pages of a regular file that are reached lie in the lower half. -/
theorem RegularElf.reached_plan (hfile : RegularElf file) {c : Context} (h : c.Holds m file) :
    ∀ s ∈ c.reached, s ∈ filePlan file := by
  have hplan : c.plan = filePlan file :=
    h.plan_eq (le_trans (by decide) hfile.long) hfile.accepted
  intro s hs
  rw [← hplan]
  exact (mem_of_reached hs).resolve_left (by simp)

theorem RegularElf.loadsLow (hfile : RegularElf file) (h : Delivers fs filename file)
    (hzero : bitmapTest m.pmm.bitmap 0 = true) : LoadsLow fs filename m :=
  fun _ hcontext _ s hs => hfile.low (hfile.reached_plan (h.holds hzero hcontext) s hs)

theorem Succeeds.room (h : Delivers fs filename file)
    (hgood : Succeeds (processExec fs filename args m)) :
    (m.allocPages (BitVec.ofNat 64 (filePages file.length))).1 ≠ 0#64 := by
  intro hfail
  have hpos := h.pos
  rw [← h.size] at hfail hpos
  have hexit : (processExec fs filename args m).1 = .noFileMemory := by
    simp only [processExec, if_neg hpos.ne', if_pos hfail]
  rcases hgood with ⟨map, entry, stack, hentered⟩ | hallocs
  · rw [hexit] at hentered
    cases hentered
  · exact hallocs.exit.1 hexit

theorem Succeeds.exits {r : ExecExit × Loader} (h : Succeeds r) :
    r.1 ≠ .noPagemap ∧ r.1 ≠ .noMemory ∧ r.1 ≠ .noStack := by
  rcases h with ⟨map, entry, stack, hentered⟩ | hallocs
  · simp [hentered]
  · exact hallocs.exit.2

/-- A table that could not be allocated is seen in the log. -/
theorem Succeeds.tables {r : ExecExit × Loader} (h : Succeeds r)
    (hnot : ∀ map entry stack, r.1 ≠ .entered map entry stack) {before : Machine} {map v : Word}
    (hmap : .map before map v ∈ r.2.log) : 0#64 ∉ mapAllocs before map v := by
  rcases h with ⟨map', entry, stack, hentered⟩ | hallocs
  · exact (hnot map' entry stack hentered).elim
  · exact fun hz => hallocs.tables before map v hmap _ hz rfl

/-- All pages of the file have been loaded, and what is left to do is to enter user mode. -/
structure Completes (fs : Files) (filename file : List UInt8) (args : Option (List UInt8))
    (m : Machine) (c : Context) (l : Loader) (pages S : List ℕ) : Prop where
  context : contextOf fs filename m = some c
  holds : c.Holds m file
  accepted : c.Accepted
  reached : c.reached = filePlan file
  starves : c.starves = false
  room : 0 < freePages c.machine
  left : freePages l.machine = c.remaining
  progress : Progress c.buf c.limit c.machine l.machine c.root pages S c.reached
  call : processExec fs filename args m = enter c.phys (filePages c.size) c.map args l

theorem Delivers.length_lt (h : Delivers fs filename file) : file.length < 2 ^ 32 := by
  rw [← h.size]
  exact fileSize_lt fs filename

/-- The number of pages left when the pages of the file are mapped. -/
def fileRemaining (file : List UInt8) (m : Machine) : ℕ :=
  remaining (freePages m - filePages file.length - 1) [] (filePlan file)

/-- There is memory for the stack page and the tables above it, too. -/
def StackRoom (file : List UInt8) (m : Machine) : Prop :=
  1 + tablesFor ((filePlan file).map SegPage.number) stackPage.number ≤ fileRemaining file m

theorem Context.Holds.remaining_eq {c : Context} (h : c.Holds m file) (hsize : 58 ≤ file.length)
    (haccepted : HeaderAccepted (fileByte file) file.length) :
    c.remaining = fileRemaining file m := by
  rw [Context.remaining, h.plan_eq hsize haccepted, h.free_eq, fileRemaining, filePlan]

/-- A file that can be loaded is loaded, and no table is missing. -/
theorem Loadable.completes (hload : Loadable file m) (h : Delivers fs filename file)
    (hzero : bitmapTest m.pmm.bitmap 0 = true)
    (hroom : (m.allocPages (BitVec.ofNat 64 (filePages file.length))).1 ≠ 0#64)
    (hrefused : refused (segments (fileByte file)) = false) (args : Option (List UInt8)) :
    ∃ c l pages S, Completes fs filename file args m c l pages S ∧
      ∀ before map v, .map before map v ∈ l.log → ∀ a ∈ mapAllocs before map v, a ≠ 0#64 := by
  obtain ⟨c, l, pages, S, hcontext, hholds, hc, hleft, hlogged, hp, hcall⟩ :=
    hload.call h hzero hroom args
  have hplan : c.reached = filePlan file := by
    rw [hholds.reached_eq hload.size hload.accepted, hload.all, filePlan]
  have hstarves : c.starves = false := by
    rw [Context.starves, hholds.plan_eq hload.size hload.accepted, hholds.free_eq]
    exact hload.starves
  have hplace : ∀ s ∈ c.reached, s.astray = false := by
    rw [hplan]
    exact hload.place
  have hpos : 0 < freePages c.machine := by
    obtain ⟨i, hfetched⟩ := hholds.fetched
    have hused := hfetched.left
    have hfits := hload.room
    rw [hholds.size] at hused
    omega
  rw [hrefused, if_neg (by simp)] at hcall
  exact ⟨c, l, pages, S, ⟨hcontext, hholds, hc, hplan, hstarves, hpos, hleft, hp, hcall⟩,
    hlogged.tables hstarves hplace⟩

/-- The end of a call for a file that has been loaded. -/
theorem Completes.enter_case {c : Context} {l : Loader} {pages S : List ℕ}
    (hdone : Completes fs filename file args m c l pages S) (hargs : ArgsFit args) :
    EnterCase c.machine c.root c.phys (filePages c.size) c.map args (filePlan file) l
      (processExec fs filename args m) := by
  have hcase := hdone.progress.toPlaced.enter_case (Context.map_div hdone.accepted) hargs c.phys
    (filePages c.size)
  rwa [← hdone.call, hdone.reached] at hcase

/-- With enough memory no allocation fails. -/
theorem Loadable.noAllocFails (hload : Loadable file m) (h : Delivers fs filename file)
    (hzero : bitmapTest m.pmm.bitmap 0 = true)
    (hroom : (m.allocPages (BitVec.ofNat 64 (filePages file.length))).1 ≠ 0#64)
    (hrefused : refused (segments (fileByte file)) = false) (hstack : StackRoom file m)
    (hargs : ArgsFit args) : NoAllocFails (processExec fs filename args m) := by
  obtain ⟨c, l, pages, S, hdone, htables⟩ := hload.completes h hzero hroom hrefused args
  have hleft := hdone.left
  rw [hdone.holds.remaining_eq hload.size hload.accepted] at hleft
  have hcase := hdone.enter_case hargs
  unfold StackRoom at hstack
  generalize processExec fs filename args m = r at hcase
  cases hcase with
  | full hfull => omega
  | starved m' pages' S' hpos hz hshort hstarved n hmisplaced => omega
  | stacked m' pages' S' n hallocs _ hstacked =>
      refine ⟨by simp [jump], ?_⟩
      intro before map v hmem
      simp only [jump, stackLog, List.mem_append, List.mem_singleton, reduceCtorEq, or_false] at hmem
      rcases hmem with hmem | hmem
      · exact htables before map v hmem
      · obtain ⟨rfl, rfl, rfl⟩ := Event.map.inj hmem
        exact hallocs

/-- The ends of the loading of a plan without pages in the upper half and without copies that
do not end. -/
inductive PlanEnd (c : Context) (l : Loader) : Option ExecExit → Prop where
  | full : PlanEnd c l (some .noMemory)
  | starved (exit : Option ExecExit) (before : Machine) (v : Word)
      (hexit : exit = none ∨ exit = some .noMemory ∨ exit = some .kernelSegment)
      (hmap : .map before c.map v ∈ l.log) (hzero : 0#64 ∈ mapAllocs before c.map v)
      (hstack : l.machine.allocPage.1 = 0#64) : PlanEnd c l exit
  | complete (pages S : List ℕ) (hstarves : c.starves = false) (hall : c.reached = c.plan)
      (hleft : freePages l.machine = c.remaining)
      (hp : Progress c.buf c.limit c.machine l.machine c.root pages S c.reached) : PlanEnd c l none

theorem Loaded.planEnd {c : Context} {exit : Option ExecExit} {l : Loader} (h : Loaded c exit l)
    (hrefused : refused (segments c.buf) = false)
    (hlow : ∀ s ∈ c.reached, s.vaddr.toNat < 2 ^ 47) (hfit : ∀ s ∈ c.reached, s.faults = false) :
    PlanEnd c l exit := by
  cases h with
  | high exit l before v hmap hv hreached hcopies =>
      exact (not_high hlow hreached).elim
  | faults l hlogged hfaults =>
      exact (not_faults hfit hfaults).elim
  | starved exit l pages S hexit hstarves hlogged before v hmap hzero hstarved =>
      exact .starved exit before v hexit hmap hzero
        (Machine.allocPage_full hstarved.zero_used hstarved.full).1
  | full l pages S hstarves hmore hlogged hfull hp => exact .full
  | complete l pages S hstarves hall hleft hlogged hp =>
      rw [hrefused]
      exact .complete pages S hstarves hall hleft hp

/-- A call that succeeds has loaded the whole plan. -/
theorem ElfCall.completes {c : Context} {r : ExecExit × Loader}
    (h : ElfCall c.machine c.phys c.size args r) (hof : c = Context.of c.machine c.phys c.size)
    (haccepted : HeaderAccepted c.buf c.size) (hrefused : refused (segments c.buf) = false)
    (hlow : ∀ s ∈ c.reached, s.vaddr.toNat < 2 ^ 47) (hfit : ∀ s ∈ c.reached, s.faults = false)
    (hgood : Succeeds r) :
    ∃ l pages S, c.Accepted ∧ c.reached = c.plan ∧ c.starves = false ∧
      0 < freePages c.machine ∧ freePages l.machine = c.remaining ∧
      Progress c.buf c.limit c.machine l.machine c.root pages S c.reached ∧
      r = enter c.phys (filePages c.size) c.map args l := by
  generalize hm₁ : c.machine = m₁ at h hof
  generalize hphys : c.phys = phys at h hof
  generalize hsize : c.size = size at h hof haccepted
  subst hof
  cases h with
  | rejected exit hheader => exact ((headerResult_error hheader).1 haccepted).elim
  | noPagemap hheader hfull => exact (hgood.exits.1 rfl).elim
  | stopped exit l hexit hheader hc hpos hloaded =>
      have hstop := hloaded.planEnd hrefused hlow hfit
      generalize hsome : some exit = e at hstop
      cases hstop with
      | full => exact (hgood.exits.2.1 (Option.some_inj.mp hsome)).elim
      | complete pages S hstarves hall hleft hp => cases hsome
      | starved e before v he hmap hzero hstack =>
          refine (hgood.tables ?_ hmap hzero).elim
          rintro map entry stack rfl
          rw [← hsome] at he
          rcases he with he | he | he
          all_goals cases he
  | faulted l hheader hc hpos hloaded =>
      have hstop := hloaded.planEnd hrefused hlow hfit
      cases hstop with
      | starved e before v he hmap hzero hstack =>
          rcases he with he | he | he
          all_goals cases he
  | entering l hheader hc hpos hloaded =>
      have hstop := hloaded.planEnd hrefused hlow hfit
      cases hstop with
      | starved e before v he hmap hzero hstack =>
          refine (hgood.exits.2.2 ?_).elim
          simp only [enter, if_pos hstack]
      | complete pages S hstarves hall hleft hp =>
          exact ⟨l, pages, S, hc, hall, hstarves, hpos, hleft, hp, rfl⟩

theorem RegularElf.completes (hfile : RegularElf file) (h : Delivers fs filename file)
    (hzero : bitmapTest m.pmm.bitmap 0 = true)
    (hgood : Succeeds (processExec fs filename args m)) :
    ∃ c l pages S, Completes fs filename file args m c l pages S := by
  have hlt := h.length_lt
  have hsize : 58 ≤ file.length := le_trans (by decide) hfile.long
  obtain ⟨c, hcontext, hholds, hcall⟩ := h.call hzero (Succeeds.room h hgood) args
  have haccepted := (hholds.accepted_iff hsize).mpr hfile.accepted
  have hplan : c.plan = filePlan file := hholds.plan_eq hsize hfile.accepted
  have hsub := hfile.reached_plan hholds
  have hrefused : refused (segments c.buf) = false := by
    rw [hholds.segments_eq hsize hfile.accepted]
    exact hfile.not_refused
  obtain ⟨l, pages, S, hc, hall, hstarves, hpos, hleft, hp, heq⟩ :=
    hcall.completes hholds.of haccepted hrefused (fun s hs => hfile.low (hsub s hs))
      (fun s hs => hfile.faults (hsub s hs) hlt) hgood
  exact ⟨c, l, pages, S, hcontext, hholds, hc, hall.trans hplan, hstarves, hpos, hleft, hp, heq⟩

/-! ## Programs that are entered -/

/-- The pages of a file have been loaded, none of them in the upper half, and user mode is
entered next. -/
structure Entering (fs : Files) (filename : List UInt8) (args : Option (List UInt8)) (m : Machine)
    (c : Context) (l : Loader) (pages S : List ℕ) : Prop where
  context : contextOf fs filename m = some c
  header : HeaderAccepted c.buf c.size
  accepted : c.Accepted
  fetched : ∃ i, Fetched m c.machine c.phys c.size i
  left : freePages l.machine = c.remaining
  progress : Progress c.buf c.limit c.machine l.machine c.root pages S c.reached
  call : processExec fs filename args m = enter c.phys (filePages c.size) c.map args l

theorem Loaded.progress {c : Context} {l : Loader} {phys map : Word} {count : ℕ}
    (h : Loaded c none l) (hlow : ∀ s ∈ c.reached, s.vaddr.toNat < 2 ^ 47)
    (hstack : (enter phys count map args l).1 ≠ .noStack) :
    freePages l.machine = c.remaining ∧
      ∃ pages S, Progress c.buf c.limit c.machine l.machine c.root pages S c.reached := by
  generalize hexit : (none : Option ExecExit) = exit at h
  cases h with
  | high exit l before v hmap hv hreached hcopies =>
      exact (not_high hlow hreached).elim
  | faults l hlogged hfaults => cases hexit
  | starved exit l pages S _ hstarves hlogged before v hmap hzero hstarved =>
      have hfull := (Machine.allocPage_full hstarved.zero_used hstarved.full).1
      exact (hstack (by simp only [enter, if_pos hfull])).elim
  | full l pages S hstarves hmore hlogged hfull hp => cases hexit
  | complete l pages S hstarves hall hleft hlogged hp => exact ⟨hleft, pages, S, hp⟩

theorem exec_entering {map entry stack : Word} {l : Loader}
    (hexec : processExec fs filename args m = (.entered map entry stack, l))
    (hzero : bitmapTest m.pmm.bitmap 0 = true) (hlow : LoadsLow fs filename m) :
    ∃ c l' pages S, Entering fs filename args m c l' pages S := by
  have hcall := processExec_call fs filename args m hzero
  rw [hexec] at hcall
  generalize hr : (ExecExit.entered map entry stack, l) = r at hcall
  cases hcall with
  | early exit hexit hfetch =>
      obtain ⟨rfl, rfl⟩ := Prod.mk.inj hr
      rcases hexit with hexit | hexit
      all_goals cases hexit
  | hangs m' hfetch hread hmem => cases hr
  | readFailed m₁ phys i hfetch hfetched hfilled => cases hr
  | elf m₁ phys i hfetch hfetched hfilled r hcall =>
      have hcontext : contextOf fs filename m =
          some (Context.of m₁ phys (fileSize fs filename).1) := by
        rw [contextOf, hfetch, Option.map_some]
      cases hcall with
      | rejected exit hheader =>
          obtain ⟨rfl, rfl⟩ := Prod.mk.inj hr
          obtain ⟨_, h | h | h⟩ := headerResult_error hheader
          all_goals cases h
      | noPagemap hheader hfull => cases hr
      | stopped exit l' hexit hheader hc hpos hloaded =>
          obtain ⟨rfl, rfl⟩ := Prod.mk.inj hr
          exact (hloaded.not_entered (hlow _ hcontext hheader) map entry stack rfl).elim
      | faulted l' hheader hc hpos hloaded => cases hr
      | entering l' hheader hc hpos hloaded =>
          obtain ⟨hleft, pages, S, hp⟩ := hloaded.progress (hlow _ hcontext hheader)
            (by rw [← hr]; simp)
          exact ⟨_, l', pages, S, hcontext, hheader, hc, ⟨i, hfetched⟩, hleft, hp,
            hexec.trans hr⟩

end LispDos.Process
