import LispDos.Verification.Raw.Arguments
import LispDos.Verification.Raw.Running

/-! # What a process leaves behind

A program that ends with system call 60 has its address space taken down and leaves the
allocator as it was before the call, unless a page had been lost while it was loaded. A
program that is aborted leaves its whole address space, and the processor in it. -/

namespace LispDos.Process

open Foundation Memory Syscall

variable {k k' u : Kernel} {q : Request} {events : List UserEvent} {ending : Option Ending}
  {calls : List Call} {ops : List Console.Op}

/-! ## Between calls -/

/-- The kernel between two calls: its page map is active, that page map, page 0 and the pages of
the bitmap are in use, and the cursor is on the screen. -/
structure Settled (k : Kernel) : Prop where
  cr3 : k.cr3 = pageAddr k.machine.kernelPml4
  anchored : Raw.Anchored k.machine
  small : k.machine.kernelPml4 < 2 ^ 52
  screen : k.display.OnScreen

theorem Settled.idle (h : Settled k) (hidle : Idle k k') : Settled k' := by
  have hbytes : k'.machine.bitmapBytes = k.machine.bitmapBytes :=
    congrArg (fun n => (n + 7) / 8) hidle.highest
  have hstores : ∀ t, k'.machine.Stores t ↔ k.machine.Stores t := by
    intro t
    rw [Raw.Machine.Stores, hbytes, hidle.bitmap, Raw.Machine.Stores]
  have hr := h.anchored
  refine ⟨?_, ⟨⟨⟨?_, hidle.bitmap ▸ hr.above⟩, ?_⟩, hidle.highest ▸ hr.pages,
    hidle.used 0 (.inl rfl) hr.zero, ?_⟩, hidle.kernel ▸ h.small, ?_⟩
  · rw [hidle.cr3, h.cr3, hidle.kernel]
  · intro t ht
    have ht' := (hstores t).mp ht
    exact hidle.used t (.inr (.inr ht')) (hr.used t ht')
  · rw [hstores, hidle.kernel]
    exact hr.kernel
  · rw [hidle.kernel]
    exact hidle.used _ (.inr (.inl rfl)) hr.pml4
  · have hcursor := hidle.cursor h.screen.cursor
    exact ⟨hidle.fb ▸ h.screen.geometry, by rwa [hidle.fb]⟩

/-! ## The end of a call -/

/-- The kernel's page map is active, and the same pages are free as before. -/
structure NoResidue (k k' : Kernel) : Prop where
  cr3 : k'.cr3 = pageAddr k'.machine.kernelPml4
  free : clearPages k'.machine.bitmap k'.machine.pmmHighestPage =
    clearPages k.machine.bitmap k.machine.pmmHighestPage

/-- The call has left nothing behind, and all that was in use before is as it was. -/
structure Closed (k k' : Kernel) : Prop where
  cr3 : k'.cr3 = pageAddr k'.machine.kernelPml4
  ended : Raw.Ended k.machine k'.machine
  shows : Shows k.display k'

theorem Closed.noResidue (h : Closed k k') : NoResidue k k' := by
  refine ⟨h.cr3, ?_⟩
  ext i
  rw [mem_clearPages, mem_clearPages, h.ended.retains.highest]
  refine and_congr_right fun hi => ?_
  rw [h.ended.restored.1 i hi]

theorem Closed.settled (h : Closed k k') (hsettled : Settled k) : Settled k' where
  cr3 := h.cr3
  anchored := h.ended.retains.anchored hsettled.anchored
  small := h.ended.retains.kernel ▸ hsettled.small
  screen := h.shows.onScreen hsettled.screen.geometry

/-- Messages of the kernel leave the cursor alone. -/
theorem aimed_execShows (fb : Console.Framebuffer) (exit : ExecExit) :
    ∀ op ∈ execShows exit, Aimed fb op := by
  unfold execShows
  split
  · simp
  · rw [List.forall_mem_singleton]
    exact aimed_print fb _

theorem aimed_shows (fb : Console.Framebuffer) (ending : Ending) :
    ∀ op ∈ ending.shows, Aimed fb op := by
  cases ending with
  | exit => simp [Ending.shows]
  | exception vector rip cr2 =>
      simp only [Ending.shows, List.forall_mem_cons, List.forall_mem_append, List.not_mem_nil,
        false_imp_iff, implies_true, and_true]
      exact ⟨aimed_print _ _, aimed_vgaPrintHex _ _, aimed_print _ _, aimed_vgaPrintHex _ _,
        aimed_print _ _, aimed_vgaPrintHex _ _, aimed_print _ _⟩

theorem showAll_shows (h : k.display.OnScreen) (hops : ∀ op ∈ ops, Aimed k.display.fb op) :
    Shows k.display (k.showAll ops).kernel :=
  (showAll_quiet h hops).serves.display

/-- The kernel once `process_exec` has ended. -/
theorem afterExec_spec (h : k.display.OnScreen) (exit : ExecExit) (l : Raw.Loader) :
    (afterExec k exit l).machine = l.machine ∧ (afterExec k exit l).cr3 = k.cr3 ∧
      Shows k.display (afterExec k exit l) := by
  have hscreen : ({ k with machine := l.machine } : Kernel).display.OnScreen := h
  have hquiet := showAll_quiet hscreen (aimed_execShows _ exit)
  exact ⟨hquiet.machine, hquiet.cr3, hquiet.serves.display⟩

/-- The kernel when a program starts. -/
theorem started_spec (h : k.display.OnScreen) (exit : ExecExit) (l : Raw.Loader) (map : Word) :
    ({ afterExec k exit l with cr3 := map } : Kernel).machine = l.machine ∧
      Shows k.display { afterExec k exit l with cr3 := map } := by
  obtain ⟨hmachine, -, hshows⟩ := afterExec_spec h exit l
  exact ⟨hmachine, hshows.congr rfl⟩

/-! ## One call -/

/-- The pages of the program lie in the lower half, none is mapped twice, no table is missing, and
it sets the cursor on the screen only. -/
structure Orderly (k : Kernel) (q : Request) (events : List UserEvent) (ending : Option Ending) :
    Prop where
  fits : RamdiskFits (q.files k) q.filename
  args : ArgsFit q.args
  low : LoadsLow (q.files k) q.filename k.machine.apart
  clean : LoadsClean (q.files k) q.filename k.machine.apart
  stack : ending = some .exit → StackClean (q.files k) q.filename k.machine.apart
  aimed : ∀ event ∈ events, EventAimed k.display.fb event

/-- The program at work: it is in its address space, and has changed nothing but its pages. -/
structure AtWork (s : Display) (r : Raw.Machine) (c : Context) (D : Set ℕ) (m' : Machine)
    (u : Kernel) : Prop where
  cr3 : u.cr3 = c.map
  running : Raw.Running r c D m' u.machine
  shows : Shows s u

theorem AtWork.step {s : Display} {r : Raw.Machine} {c : Context} {D : Set ℕ} {m' : Machine}
    {pages S : List ℕ} {event : UserEvent} (hlaunch : Raw.Launch r c D m' pages S)
    (hgeom : Console.Geometry s.fb) (h : AtWork s r c D m' u) (hstep : UserStep u event k')
    (haimed : EventAimed s.fb event) : AtWork s r c D m' k' := by
  have hroot : u.root = c.root := by rw [Kernel.root, h.cr3, Context.map_div hlaunch.accepted]
  have hshows := h.shows.step hgeom hstep haimed
  cases hstep with
  | store v p x low walk writable =>
      rw [hroot] at walk
      exact ⟨h.cr3, h.running.store hlaunch low walk x, hshows⟩
  | call dev num arg1 arg2 arg3 value returns =>
      have hserves := syscallHandlerC_serves (h.shows.onScreen hgeom) (h.shows.fb ▸ haimed) returns
      obtain ⟨base, stores, hlow, hmachine⟩ := hserves.stores
      refine ⟨hserves.cr3.trans h.cr3, ?_, hshows⟩
      rw [hmachine, hroot]
      exact h.running.storeVirts hlaunch stores hlow

/-- Where the kernel's page map is, and which page map is active, is not up to the program. -/
structure SameMaps (s : Display) (map : Word) (n : ℕ) (u : Kernel) : Prop where
  cr3 : u.cr3 = map
  kernel : u.machine.kernelPml4 = n
  shows : Shows s u

theorem SameMaps.step {s : Display} {map : Word} {n : ℕ} {event : UserEvent}
    (hgeom : Console.Geometry s.fb) (h : SameMaps s map n u) (hstep : UserStep u event k')
    (haimed : EventAimed s.fb event) : SameMaps s map n k' := by
  have hshows := h.shows.step hgeom hstep haimed
  cases hstep with
  | store v p x low walk writable => exact ⟨h.cr3, h.kernel, hshows⟩
  | call dev num arg1 arg2 arg3 value returns =>
      have hserves := syscallHandlerC_serves (h.shows.onScreen hgeom) (h.shows.fb ▸ haimed) returns
      obtain ⟨base, stores, _, hmachine⟩ := hserves.stores
      refine ⟨hserves.cr3.trans h.cr3, ?_, hshows⟩
      rw [hmachine]
      exact h.kernel

/-- A call that returns without having entered user mode. -/
theorem closed_of_returned {exit : ExecExit} {l : Raw.Loader} (hcall : q.exec k = (exit, l))
    (hreturns : exit.returns = true) (hr : Raw.Anchored k.machine) (hscreen : k.display.OnScreen)
    (horderly : Orderly k q events ending) :
    Raw.Ended k.machine (afterExec k exit l).machine ∧ (afterExec k exit l).cr3 = k.cr3 ∧
      Shows k.display (afterExec k exit l) := by
  obtain ⟨hmachine, hcr3, hshows⟩ := afterExec_spec hscreen exit l
  have hexec : Raw.processExec (q.files k) q.filename q.args k.machine = (exit, l) := hcall
  have hended := Raw.exec_ended hr horderly.fits.storesFit horderly.args horderly.low
    horderly.clean (by rwa [hexec])
  rw [hexec] at hended
  exact ⟨hmachine ▸ hended, hcr3, hshows⟩

/-- A program that has been entered is at work until it ends. -/
theorem atWork_of_entered {map entry stack : Word} {l : Raw.Loader}
    (hcall : q.exec k = (.entered map entry stack, l)) (hr : Raw.Anchored k.machine)
    (hscreen : k.display.OnScreen) (horderly : Orderly k q events ending)
    (hstack : StackClean (q.files k) q.filename k.machine.apart)
    (hsteps : Run UserStep { afterExec k (.entered map entry stack) l with cr3 := map } events u) :
    ∃ c D m' pages S, Raw.Launch k.machine c D m' pages S ∧ AtWork k.display k.machine c D m' u := by
  have hexec : Raw.processExec (q.files k) q.filename q.args k.machine =
    (.entered map entry stack, l) := hcall
  obtain ⟨hmachine, hshows⟩ := started_spec hscreen (.entered map entry stack) l map
  obtain ⟨c, D, m', pages, S, rfl, hlaunch, hrunning⟩ := Raw.exec_launch hr
    horderly.fits.storesFit horderly.args horderly.low horderly.clean hstack
    (congrArg Prod.fst hexec)
  rw [hexec] at hrunning
  have hgeom := hscreen.geometry
  have hstep : ∀ s event s', AtWork k.display k.machine c D m' s → UserStep s event s' →
      EventAimed k.display.fb event → AtWork k.display k.machine c D m' s' :=
    fun _ _ _ hs hstep haimed => hs.step hlaunch hgeom hstep haimed
  exact ⟨c, D, m', pages, S, hlaunch,
    hsteps.preserves hstep ⟨rfl, by rwa [hmachine], hshows⟩ horderly.aimed⟩

theorem returns_of_not_entered {exit : ExecExit} (hangs : exit ≠ .readHangs)
    (faults : exit ≠ .copyFaults) (enters : ∀ map entry stack, exit ≠ .entered map entry stack) :
    exit.returns = true := by
  cases exit with
  | readHangs => exact (hangs rfl).elim
  | copyFaults => exact (faults rfl).elim
  | entered map entry stack => exact (enters map entry stack rfl).elim
  | _ => rfl

/-- A call whose program, if there is one, ends with system call 60. -/
theorem Round.closed (h : Round k q events ending k') (hsettled : Settled k)
    (horderly : Orderly k q events ending)
    (hsurvives : ∀ e, ending = some e → e.isException = false) : Closed k k' := by
  have hr := hsettled.anchored
  cases h with
  | returned exit l call hangs faults enters =>
      obtain ⟨hended, hcr3, hshows⟩ := closed_of_returned call
        (returns_of_not_entered hangs faults enters) hr hsettled.screen horderly
      refine ⟨?_, hended, hshows⟩
      rw [hcr3, hsettled.cr3, hended.retains.kernel]
  | ran map entry stack l call _ u steps ending =>
      cases ending with
      | exception vector rip cr2 => exact absurd (hsurvives _ rfl) (by simp [Ending.isException])
      | exit =>
          obtain ⟨c, D, m', pages, S, hlaunch, hwork⟩ := atWork_of_entered call hr hsettled.screen
            horderly (horderly.stack rfl) steps
          have hended := hwork.running.ended hlaunch hr
          rw [← hwork.cr3] at hended
          refine ⟨?_, hended, hwork.shows.congr rfl⟩
          show pageAddr u.machine.kernelPml4 = pageAddr (Raw.vmmFreePagemap u.machine u.cr3).kernelPml4
          rw [hended.retains.kernel, hwork.running.kernel hlaunch]

/-- However the program ends, what was in use before the call is as it was. -/
theorem Round.retains (h : Round k q events ending k') (hr : Raw.Anchored k.machine)
    (hscreen : k.display.OnScreen) (horderly : Orderly k q events ending)
    (hstack : StackClean (q.files k) q.filename k.machine.apart) :
    Raw.Retains k.machine k'.machine ∧ Shows k.display k' := by
  cases h with
  | returned exit l call hangs faults enters =>
      obtain ⟨hended, -, hshows⟩ := closed_of_returned call
        (returns_of_not_entered hangs faults enters) hr hscreen horderly
      exact ⟨hended.retains, hshows⟩
  | ran map entry stack l call _ u steps ending =>
      obtain ⟨c, D, m', pages, S, hlaunch, hwork⟩ :=
        atWork_of_entered call hr hscreen horderly hstack steps
      cases ending with
      | exit =>
          have hended := hwork.running.ended hlaunch hr
          rw [← hwork.cr3] at hended
          exact ⟨hended.retains, hwork.shows.congr rfl⟩
      | exception vector rip cr2 =>
          have hgeom := hscreen.geometry
          have hscreen' := hwork.shows.onScreen hgeom
          have haimed := aimed_shows u.display.fb (.exception vector rip cr2)
          refine ⟨?_, hwork.shows.trans (showAll_shows hscreen' haimed)⟩
          rw [Ending.handle, (showAll_quiet hscreen' haimed).machine]
          exact hwork.running.retains hlaunch hr

/-- After an exception the processor is still in the address space of the program. -/
theorem Round.cr3_of_exception {vector rip cr2 : Word}
    (h : Round k q events (some (.exception vector rip cr2)) k') (hsettled : Settled k)
    (horderly : Orderly k q events (some (.exception vector rip cr2))) :
    k'.cr3 ≠ pageAddr k'.machine.kernelPml4 := by
  cases h with
  | ran map entry stack l call _ u steps _ =>
      have hcall : Raw.processExec (q.files k) q.filename q.args k.machine =
        (.entered map entry stack, l) := call
      obtain ⟨⟨n, hn, rfl, hclear⟩, hkernel⟩ := Raw.entered_maps hsettled.anchored
        horderly.fits.storesFit horderly.args horderly.low (congrArg Prod.fst hcall)
      rw [hcall] at hkernel
      obtain ⟨hmachine, hshows⟩ :=
        started_spec hsettled.screen (.entered (pageAddr n) entry stack) l (pageAddr n)
      have hgeom := hsettled.screen.geometry
      have hstep : ∀ s event s', SameMaps k.display (pageAddr n) k.machine.kernelPml4 s →
          UserStep s event s' → EventAimed k.display.fb event →
            SameMaps k.display (pageAddr n) k.machine.kernelPml4 s' :=
        fun _ _ _ hs hstep haimed => hs.step hgeom hstep haimed
      have hsame := steps.preserves hstep ⟨rfl, by rw [hmachine, hkernel], hshows⟩ horderly.aimed
      have hquiet := showAll_quiet (hsame.shows.onScreen hgeom)
        (aimed_shows _ (.exception vector rip cr2))
      intro hcr3
      rw [Ending.handle, hquiet.cr3, hquiet.machine, hsame.cr3, hsame.kernel] at hcr3
      have heq := pageAddr_injOn (hn.trans (by decide)) hsettled.small hcr3
      exact ne_of_used hsettled.anchored.pml4_test hclear heq.symm

/-! ## Sessions -/

/-- The kernel on the small machine, with an empty volume. -/
def sampleKernel : Kernel where
  machine := Raw.sampleMachine
  cr3 := pageAddr 15
  display := ⟨Console.vgaMode, 0xFFFF8000FD000000#64, fun _ _ => 0, .start⟩
  bpb := emptyBpb
  disk := fun _ => Sector.zero

def smallRequest : Request := ⟨some (archive smallFile), [0x61], none⟩

theorem sampleMachine_anchored : Raw.Anchored Raw.sampleMachine where
  toBitmapSafe := Raw.sampleMachine_safe
  pages := by decide
  zero := by
    rw [mem_clearPages]
    decide
  pml4 := by
    rw [mem_clearPages]
    decide

theorem sampleKernel_settled : Settled sampleKernel where
  cr3 := rfl
  anchored := sampleMachine_anchored
  small := by decide
  screen := ⟨⟨by decide, by decide, by decide⟩, ⟨by decide, by decide⟩⟩

/-- A call for the small program that ends at once. -/
theorem smallRequest_round (ending : Ending) :
    ∃ k', Round sampleKernel smallRequest [] (some ending) k' := by
  have hargs : ArgsFit none := by simp [ArgsFit]
  obtain ⟨map, entry, stack, hexit⟩ : Raw.Entered (smallRequest.exec sampleKernel) :=
    Raw.smallFile_entered hargs
  generalize hcall : smallRequest.exec sampleKernel = r at hexit
  obtain ⟨exit, l⟩ := r
  obtain rfl : exit = .entered map entry stack := hexit
  exact ⟨_, .ran map entry stack l hcall [] _ (.nil _) ending⟩

theorem smallRequest_session {ending : Ending} {k' : Kernel}
    (hround : Round sampleKernel smallRequest [] (some ending) k') :
    Session sampleKernel [⟨sampleKernel, smallRequest, [], some ending, k'⟩] :=
  .call _ _ _ ⟨rfl, rfl, rfl, rfl, fun _ _ h => h, rfl, id⟩ hround (.done _)

theorem smallRequest_orderly (ending : Ending) :
    Orderly sampleKernel smallRequest [] (some ending) := by
  obtain ⟨c, l, pages, S, hdone, _⟩ := Raw.smallFile_loadable.completes smallFile_delivers
    (by decide) Raw.smallFile_room smallFile_regular.not_refused none
  have hcontext : ∀ c', contextOf (sampleFiles smallFile) [0x61] Raw.sampleMachine.apart = some c' →
      c' = c := by
    intro c' hc'
    rw [hdone.context] at hc'
    exact (Option.some_inj.mp hc').symm
  have hplan : (filePlan smallFile).map SegPage.number = [0x400] := by decide +kernel
  have hargs : ArgsFit none := by simp [ArgsFit]
  refine ⟨Raw.smallFile_fits, hargs, ?_, ?_, fun _ => ?_, by simp⟩
  · exact Raw.smallFile_loadable.loadsLow smallFile_delivers (by decide) Raw.smallFile_room
  · intro c' hc' _
    obtain rfl := hcontext c' hc'
    refine ⟨hdone.starves, ?_⟩
    rw [hdone.reached, hplan]
    exact List.nodup_singleton _
  · intro c' hc' _
    obtain rfl := hcontext c' hc'
    have hroom := Raw.smallFile_stackRoom
    unfold StackRoom at hroom
    rw [hdone.reached,
      hdone.holds.remaining_eq Raw.smallFile_loadable.size Raw.smallFile_loadable.accepted]
    refine ⟨?_, fun _ => hroom⟩
    rw [hplan]
    decide

end LispDos.Process
