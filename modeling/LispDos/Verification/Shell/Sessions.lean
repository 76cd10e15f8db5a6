import LispDos.Verification.Process.Lifecycle
import LispDos.Verification.Shell.Calls
import LispDos.Verification.Shell.Shown

/-! # Sessions

A session of the shell on a volume that was formatted, with the programs that are started in it, is
one of the ideal system. -/

namespace LispDos.Shell

open Console Foundation Memory Process Syscall

variable {b : Bpb} {s : Display} {k k' : Kernel} {i : Ideal b} {ramdisk : Option Tarfs.Ramdisk}
  {es : Option (List Tarfs.Entry)} {filename line keys : List UInt8} {args : Option (List UInt8)}
  {e : Effects} {q : Process.Request}

/-! ## The archive -/

/-- There is no ramdisk, or it is the image of the archive. -/
inductive Mounted : Option Tarfs.Ramdisk → Option (List Tarfs.Entry) → Prop where
  | none : Mounted none none
  | archive (r : Tarfs.Ramdisk) (es : List Tarfs.Entry) (rest : List UInt8)
      (holds : Tarfs.Holds r es rest) : Mounted (some r) (some es)

theorem Ideal.length_archived_lt (es : Option (List Tarfs.Entry)) (filename : List UInt8) :
    (Ideal.archived es filename).length < 2 ^ 31 := by
  rw [Ideal.archived]
  cases (es.getD []).find? fun e => e.name = filename with
  | none => exact Nat.two_pow_pos 31
  | some e => exact e.data_length

theorem readAnswer_nil : Fat16.readAnswer [] = (0, []) := by
  rw [Fat16.readAnswer]
  decide

/-- Look-ups in the ramdisk find the data of the archive. -/
theorem Mounted.lookup (h : Mounted ramdisk es) (hfilename : 0 ∉ filename) :
    Tarfs.tarfsGetFileSize ramdisk filename = (Ideal.archived es filename).length ∧
      Tarfs.tarfsReadFile ramdisk filename = Fat16.readAnswer (Ideal.archived es filename) := by
  cases h with
  | none => exact ⟨rfl, readAnswer_nil.symm⟩
  | archive r es rest holds =>
      have hlookup := holds.lookup hfilename
      rw [Ideal.archived, Option.getD_some]
      unfold Tarfs.tarfsGetFileSize Tarfs.tarfsReadFile
      cases hfind : es.find? fun e => e.name = filename with
      | none =>
          rw [hfind] at hlookup
          rw [hlookup]
          exact ⟨rfl, readAnswer_nil.symm⟩
      | some e =>
          rw [hfind] at hlookup
          obtain ⟨start, hlookup, hdata⟩ := hlookup
          rw [hlookup]
          refine ⟨rfl, ?_⟩
          rw [Option.elim_some, Fat16.readAnswer, Prod.mk.injEq]
          refine ⟨rfl, List.map_congr_left ?_⟩
          intro i hi
          rw [hdata i (List.mem_range.mp hi)]

theorem Mounted.dir (h : Mounted ramdisk es) {printed : List Op} (hdir : RamdiskDir ramdisk printed) :
    printed = es.elim Ideal.noArchive Tarfs.listing := by
  cases h with
  | none => exact hdir
  | archive r es rest holds => exact (holds.tarfsDir_iff printed).mp hdir

theorem Mounted.type (h : Mounted ramdisk es) (hfilename : 0 ∉ filename) {printed : List Op}
    (htype : RamdiskType filename ramdisk printed) :
    printed = es.elim Ideal.noArchive fun es => Tarfs.typing es filename := by
  cases h with
  | none => exact htype
  | archive r es rest holds => exact (holds.tarfsType_iff hfilename printed).mp htype

/-- What the commands show does not set the cursor. -/
theorem Mounted.aimed (h : Mounted ramdisk es) {arg : List UInt8} (harg : 0 ∉ arg)
    {command : Builtin} {printed : List Op} (hshows : Shows ramdisk k arg command printed)
    (fb : Framebuffer) : AllAimed fb printed := by
  have harchive : ∀ {f : List Tarfs.Entry → List Op}, (∀ es, AllAimed fb (f es)) →
      AllAimed fb (es.elim Ideal.noArchive f) := by
    intro f hf
    cases es with
    | none => simp [Ideal.noArchive]
    | some es => exact hf es
  cases hshows with
  | dir printed tarfs =>
      rw [h.dir tarfs, allAimed_append]
      exact ⟨harchive allAimed_listing, allAimed_fat16Dir _ _⟩
  | type printed tarfs =>
      rw [h.type harg tarfs]
      exact harchive fun es => allAimed_typing es arg
  | _ => simp

/-! ## Conditions -/

/-- The pages of a program that is started lie in the lower half, none is mapped twice, the stack
page is none of them, and there is a page for each table that is missing. -/
structure Start.Clean (t : Start) : Prop where
  low : LoadsLow (t.request.files t.kernel) t.request.filename t.kernel.machine.apart
  clean : LoadsClean (t.request.files t.kernel) t.request.filename t.kernel.machine.apart
  stack : StackClean (t.request.files t.kernel) t.request.filename t.kernel.machine.apart

/-- Programs tear no file, have all their pages for themselves, and set the cursor on the screen
only. -/
structure Effects.Orderly (b : Bpb) (fb : Framebuffer) (e : Effects) : Prop where
  saves : ∀ save ∈ e.saves, save.Sound b
  starts : ∀ start ∈ e.starts, start.Clean
  aimed : ∀ event ∈ e.events, EventAimed fb event

/-! ## Programs -/

theorem ProgramStep.userStep (h : ProgramStep k e k') :
    ∃ event, e.events = [event] ∧ UserStep k event k' := by
  cases h with
  | store v x k' step => exact ⟨_, rfl, step⟩
  | call dev num arg1 arg2 arg3 value returns =>
      exact ⟨_, rfl, .call dev num arg1 arg2 arg3 value returns⟩

theorem run_userStep {effects : List Effects} (h : Run ProgramStep k effects k') :
    Run UserStep k (effects.flatMap (·.events)) k' := by
  induction h with
  | nil k => exact .nil k
  | cons first _ ih =>
      obtain ⟨event, hevents, hstep⟩ := first.userStep
      rw [List.flatMap_cons, hevents]
      exact .cons hstep ih

/-- A program that the shell starts is a round of the life of a process. -/
theorem Exec.round (h : Exec q k e k') :
    (∃ ending, Process.Round k q e.events ending k') ∧ ⟨k, q⟩ ∈ e.starts := by
  cases h with
  | returned exit l call hangs faults enters =>
      exact ⟨⟨none, .returned exit l call hangs faults enters⟩, List.mem_singleton_self _⟩
  | ran map entry stack l call effects u steps ending =>
      exact ⟨⟨some ending, .ran map entry stack l call _ u (run_userStep steps) ending⟩,
        List.mem_singleton_self _⟩

/-- What was in use before a program is as it was after it. -/
theorem Exec.retains (h : Exec ⟨ramdisk, filename, args⟩ k e k') (hmounted : Mounted ramdisk es)
    (hfilename : 0 ∉ filename) (hargs : ArgsFit args) (hr : Raw.Anchored k.machine)
    (hscreen : k.display.OnScreen) (horderly : e.Orderly b k.display.fb) :
    Raw.Retains k.machine k'.machine := by
  obtain ⟨⟨ending, hround⟩, hin⟩ := h.round
  have hstart := horderly.starts _ hin
  have hfits : RamdiskFits ⟨k.bpb, k.disk, ramdisk⟩ filename := by
    have hlt := Ideal.length_archived_lt es filename
    rw [RamdiskFits, (hmounted.lookup hfilename).1]
    omega
  exact (hround.retains hr hscreen ⟨hfits, hargs, hstart.low, hstart.clean, fun _ => hstart.stack,
    horderly.aimed⟩ hstart.stack).1

namespace Realizes

/-- The size and the data that the loader gets are those of the program, wherever it lies. -/
theorem image (h : Realizes s k i) (hmounted : Mounted ramdisk es) (hfilename : 0 ∉ filename) :
    ∃ useTarfs, fileSize ⟨k.bpb, k.disk, ramdisk⟩ filename = ((i.image es filename).length, useTarfs) ∧
      Process.readFile ⟨k.bpb, k.disk, ramdisk⟩ filename useTarfs =
        some (Fat16.readAnswer (i.image es filename)) := by
  obtain ⟨hsize, hread⟩ := hmounted.lookup hfilename
  unfold fileSize Process.readFile
  simp only [h.getFileSize, hsize, hread, h.readFile, List.length_eq_zero_iff, Ideal.image]
  split_ifs with hempty
  · refine ⟨true, ?_, rfl⟩
    have hlt := Ideal.length_archived_lt es filename
    rw [Nat.mod_eq_of_lt (by omega)]
  · exact ⟨false, rfl, rfl⟩

/-- The loader sees the contents of the program only. -/
theorem exec (h : Realizes s k i) (hmounted : Mounted ramdisk es) (hfilename : 0 ∉ filename) :
    (⟨ramdisk, filename, args⟩ : Process.Request).exec k =
      Ideal.start (i.image es filename) args i.machine := by
  obtain ⟨useTarfs, hsize, hread⟩ := h.image hmounted hfilename
  show Raw.processExec ⟨k.bpb, k.disk, ramdisk⟩ filename args k.machine = _
  unfold Raw.processExec Ideal.start
  simp only [hsize, hread, h.machine, List.length_eq_zero_iff, readAnswer_fst]

theorem setCr3 (h : Realizes s k i) (map : Word) :
    Realizes s { k with cr3 := map } { i with cr3 := map } :=
  ⟨h.bpb, h.machine, rfl, h.shows.congr rfl, h.maxRows, h.volume⟩

theorem showAll (h : Realizes s k i) (hgeom : Geometry s.fb) {ops : List Op}
    (hops : AllAimed s.fb ops) : Realizes s (k.showAll ops).kernel i :=
  h.quiet (showAll_quiet (h.shows.onScreen hgeom) (h.shows.fb ▸ hops))

/-- The kernel once `process_exec` has ended. -/
theorem afterExec (h : Realizes s k i) (hgeom : Geometry s.fb) (exit : ExecExit) (l : Raw.Loader) :
    Realizes s (Process.afterExec k exit l) { i with machine := l.machine } := by
  have hloaded : Realizes s { k with machine := l.machine } { i with machine := l.machine } :=
    ⟨h.bpb, rfl, h.cr3, h.shows.congr rfl, h.maxRows, h.volume⟩
  exact hloaded.showAll hgeom (aimed_execShows s.fb exit)

theorem step {u : Kernel} (h : Realizes s k i) (hgeom : Geometry s.fb) (hstep : ProgramStep k e u)
    (hgood : (∀ save ∈ e.saves, save.Sound b) ∧ ∀ event ∈ e.events, EventAimed s.fb event) :
    ∃ i', i.ProgramStep e.toSeen i' ∧ Realizes s u i' := by
  obtain ⟨hsaves, haimed⟩ := hgood
  cases hstep with
  | store v x u step =>
      cases step with
      | store _ p _ low walk writable =>
          rw [h.machine, h.root] at walk writable
          refine ⟨_, .store v p x low walk writable, ?_⟩
          rw [← h.machine]
          exact h.setMem _
  | call dev num arg1 arg2 arg3 value returns =>
      rw [List.forall_mem_singleton] at haimed
      obtain ⟨i', hcall, hrealizes⟩ := h.call hgeom haimed hsaves value returns
      exact ⟨i', .call dev num arg1 arg2 arg3 value _ i' hcall, hrealizes⟩

theorem ended (h : Realizes s k i) (hgeom : Geometry s.fb) (ending : Ending) :
    Realizes s (ending.handle k) (i.ended ending) := by
  cases ending with
  | exit =>
      refine ⟨h.bpb, ?_, ?_, h.shows.congr rfl, h.maxRows, h.volume⟩
      · show Raw.vmmFreePagemap k.machine k.cr3 = Raw.vmmFreePagemap i.machine i.cr3
        rw [h.machine, h.cr3]
      · show pageAddr k.machine.kernelPml4 = pageAddr i.machine.kernelPml4
        rw [h.machine]
  | exception vector rip cr2 => exact h.showAll hgeom (aimed_shows s.fb _)

/-- The shell goes on where a program has ended. -/
theorem run_program (h : Realizes s k i) (hgeom : Geometry s.fb) (hmounted : Mounted ramdisk es)
    (hfilename : 0 ∉ filename) (hexec : Exec ⟨ramdisk, filename, args⟩ k e k')
    (horderly : e.Orderly b s.fb) :
    ∃ i', i.Exec es filename args e.toSeen i' ∧ Realizes s k' i' := by
  cases hexec with
  | returned exit l call hangs faults enters =>
      rw [h.exec hmounted hfilename] at call
      exact ⟨_, .returned exit l call faults enters, h.afterExec hgeom exit l⟩
  | ran map entry stack l call effects u steps ending =>
      rw [h.exec hmounted hfilename] at call
      have hentered := (h.afterExec hgeom (.entered map entry stack) l).setCr3 map
      obtain ⟨u', hrun, hrealizes⟩ := steps.simulate (Realizes s) Effects.toSeen
        (fun e => (∀ save ∈ e.saves, save.Sound b) ∧ ∀ event ∈ e.events, EventAimed s.fb event)
        (fun _ _ _ _ hrel hstep hgood => hrel.step hgeom hstep hgood) hentered fun e he =>
          ⟨fun save hs => horderly.saves save (List.mem_flatMap.mpr ⟨e, he, hs⟩),
            fun event hs => horderly.aimed event (List.mem_flatMap.mpr ⟨e, he, hs⟩)⟩
      refine ⟨u'.ended ending, ?_, hrealizes.ended hgeom ending⟩
      have hran := Ideal.Exec.ran map entry stack l call _ u' hrun ending
      simp only [List.flatMap_map] at hran
      exact hran

/-! ## Rounds -/

theorem showAll_machine (h : Realizes s k i) (hgeom : Geometry s.fb) {ops : List Op}
    (hops : AllAimed s.fb ops) : (k.showAll ops).kernel.machine = k.machine :=
  (showAll_quiet (h.shows.onScreen hgeom) (h.shows.fb ▸ hops)).machine

theorem delete (h : Realizes s k i) (filename : List UInt8) :
    ((fat16DeleteFile k.bpb k.disk filename).1 = 1 ↔
        (i.store.find (formatFatName filename)).isSome = true) ∧
      Realizes s { k with disk := (fat16DeleteFile k.bpb k.disk filename).2 }
        { i with store := i.store.delete (formatFatName filename) } := by
  obtain ⟨chain, hvolume⟩ := h.volume
  obtain ⟨hresult, hholds⟩ := hvolume.delete filename
  rw [h.bpb, hresult]
  refine ⟨?_, rfl, h.machine, h.cr3, h.shows.congr rfl, h.maxRows, hholds⟩
  split_ifs with hfound
  · exact iff_of_true rfl hfound
  · exact iff_of_false (by decide) hfound

/-- The ideal system shows the same. -/
theorem shown {command : Builtin} (h : Realizes s k i) (hmounted : Mounted ramdisk es)
    {arg : List UInt8} (harg : 0 ∉ arg) {printed : List Op}
    (hshows : Shows ramdisk k arg command printed) : i.Does es arg command ⟨printed, []⟩ i := by
  cases hshows with
  | echo => exact .echo
  | clear => exact .clear
  | dir printed tarfs =>
      obtain ⟨chain, hvolume⟩ := h.volume
      rw [hmounted.dir tarfs, h.bpb, hvolume.dir_eq]
      exact .dir
  | type printed tarfs =>
      rw [hmounted.type harg tarfs]
      exact .type
  | usage empty => exact .usage empty
  | poweroff => exact .poweroff
  | reboot => exact .reboot
  | invalid => exact .invalid

/-- A command does what it does in the ideal system, and leaves what is in use as it is. -/
theorem does {command : Builtin} (h : Realizes s k i) (hgeom : Geometry s.fb)
    (hr : Raw.Anchored k.machine) (hmounted : Mounted ramdisk es) {arg : List UInt8} (harg : 0 ∉ arg)
    (hlength : arg.length < 4096) (hdoes : Does ramdisk k arg command e k')
    (horderly : e.Orderly b s.fb) :
    ∃ i', i.Does es arg command e.toSeen i' ∧ Realizes s k' i' ∧
      Raw.Retains k.machine k'.machine := by
  have hscreen := h.shows.onScreen hgeom
  have hargs : ArgsFit (some arg) := by
    intro a ha
    obtain rfl := Option.some_inj.mp ha
    exact hlength
  have hnone : ArgsFit none := by simp [ArgsFit]
  have hfb : e.Orderly b k.display.fb := h.shows.fb ▸ horderly
  cases hdoes with
  | shows _ printed shows =>
      have haimed := hmounted.aimed harg shows s.fb
      refine ⟨i, h.shown hmounted harg shows, h.showAll hgeom haimed, ?_⟩
      rw [h.showAll_machine hgeom haimed]
      exact hr.retains
  | edit e k' exec =>
      obtain ⟨i', hexec, hrealizes⟩ := h.run_program hgeom hmounted (by decide) exec horderly
      exact ⟨i', .edit _ i' hexec, hrealizes,
        exec.retains hmounted (by decide) hargs hr hscreen hfb⟩
  | lisp e k' exec =>
      obtain ⟨i', hexec, hrealizes⟩ := h.run_program hgeom hmounted (by decide) exec horderly
      exact ⟨i', .lisp _ i' hexec, hrealizes,
        exec.retains hmounted (by decide) hargs hr hscreen hfb⟩
  | exec e k' exec =>
      obtain ⟨i', hexec, hrealizes⟩ := h.run_program hgeom hmounted harg exec horderly
      exact ⟨i', .exec _ i' hexec, hrealizes, exec.retains hmounted harg hnone hr hscreen hfb⟩
  | rm given =>
      obtain ⟨hfound, hrealizes⟩ := h.delete arg
      have haimed : AllAimed s.fb (removed (fat16DeleteFile k.bpb k.disk arg).1) :=
        allAimed_removed _
      have hremoved : removed (fat16DeleteFile k.bpb k.disk arg).1 =
          if (i.store.find (formatFatName arg)).isSome then
            [.print (kernelText "Arquivo removido.\n")]
          else [.print (kernelText "Arquivo nao encontrado ou erro ao remover.\n")] := by
        simp only [removed, hfound]
      have hdoes : i.Does es arg .rm _ _ := .rm given
      rw [← hremoved] at hdoes
      refine ⟨_, hdoes, hrealizes.showAll hgeom haimed, ?_⟩
      rw [hrealizes.showAll_machine hgeom haimed]
      exact hr.retains

end Realizes

/-- The line that has been read, and what has been shown. -/
theorem Arrays.reads.spec {a : Arrays} {l : Line} (h : a.reads keys l) (hkeys : 0x0A ∉ keys) :
    l.screen = Ideal.typed keys ∧ Holds l (editLine keys) := by
  obtain ⟨hscreen, hholds⟩ := (holds_start a [.print (kernelText "C:\\> ")]).read_screen hkeys h
  exact ⟨hscreen, hholds⟩

theorem length_argument_le (line : List UInt8) : (Ideal.argument line).length ≤ line.length := by
  have htake := (List.takeWhile_sublist (· ≠ (0 : UInt8))
    (l := (line.dropWhile (· ≠ 0x20)).drop 1)).length_le
  have hdrop := (List.dropWhile_sublist (· ≠ (0x20 : UInt8)) (l := line)).length_le
  rw [List.length_drop] at htake
  rw [Ideal.argument, cString]
  omega

/-- What is seen of a round. -/
def Turn.seen (t : Turn) : Ideal.Turn := ⟨t.keys, t.effects.toSeen, t.goesOn⟩

/-- A round is one of the ideal system, and leaves what is in use as it is. -/
theorem Realizes.round {t : Turn} (h : Realizes s k i) (hgeom : Geometry s.fb)
    (hr : Raw.Anchored k.machine) (hmounted : Mounted ramdisk es) (hround : Round ramdisk k t k')
    (horderly : t.effects.Orderly b s.fb) :
    ∃ i', i.Round es t.seen i' ∧ Realizes s k' i' ∧ Raw.Retains k.machine k'.machine := by
  cases hround with
  | empty a keys hkeys l read len =>
      obtain ⟨hscreen, hline⟩ := read.spec hkeys
      rw [hline.cmdLen, List.length_eq_zero_iff] at len
      have haimed : AllAimed s.fb l.screen := hscreen ▸ allAimed_typed keys
      refine ⟨i, ?_, h.showAll hgeom haimed, ?_⟩
      · rw [Turn.seen, Effects.only, hscreen]
        exact .empty keys hkeys len
      · rw [h.showAll_machine hgeom haimed]
        exact hr.retains
  | command a keys hkeys l read len cmdName arg words builtin chosen e k' does =>
      obtain ⟨hscreen, hline⟩ := read.spec hkeys
      have hroom := hline.room
      rw [hline.cmdLen] at words len
      rw [Ne, List.length_eq_zero_iff] at len
      obtain ⟨rest, hrest⟩ := hline.text
      rw [← hrest] at words
      obtain ⟨⟨xs, p, rfl, hword⟩, harg⟩ := words_of_split a.cmdName_length a.args_length words
      have hbuiltin := select_comparisons chosen
      rw [hword] at hbuiltin
      have haimed : AllAimed s.fb l.screen := hscreen ▸ allAimed_typed keys
      have htyped := h.showAll hgeom haimed
      have hmachine := h.showAll_machine hgeom haimed
      rw [harg] at does
      subst hbuiltin
      have hzero : 0 ∉ Ideal.argument (editLine keys) := zero_not_mem_cString _
      have hlength := length_argument_le (editLine keys)
      obtain ⟨i', hdoes, hrealizes, hretains⟩ := htyped.does hgeom (hmachine ▸ hr) hmounted hzero
        (by omega) does ⟨horderly.saves, horderly.starts, horderly.aimed⟩
      refine ⟨i', ?_, hrealizes, hmachine ▸ hretains⟩
      rw [Turn.seen, hscreen]
      exact .command keys hkeys len _ i' hdoes

/-! ## Sessions -/

/-- The kernel and the ideal system in a session that began with the kernel `k₀`. -/
structure Follows (k₀ k : Kernel) (i : Ideal k₀.bpb) : Prop extends Realizes k₀.display k i where
  retains : Raw.Retains k₀.machine k.machine

/-- A kernel with a volume without files. -/
def idleKernel : Kernel :=
  { sampleKernel with bpb := Fat16.smallBpb 6, disk := Fat16.blankDisk }

theorem idleKernel_settled : Settled idleKernel where
  cr3 := rfl
  anchored := sampleMachine_anchored
  small := sampleKernel_settled.small
  screen := sampleKernel_settled.screen

/-- What `dir` shows of the archive and the volume. -/
def sampleListing : List Op :=
  Tarfs.listing Tarfs.sampleEntries ++ fat16Dir (Fat16.smallBpb 6) Fat16.blankDisk

/-- The listing does not depend on what has been shown before it. -/
theorem sampleListing_shows (keys arg : List UInt8) :
    Shows (some Tarfs.sampleRamdisk) (idleKernel.showAll (Ideal.typed keys)).kernel arg .dir
      sampleListing := by
  have hquiet := showAll_quiet idleKernel_settled.screen (allAimed_typed keys)
  have htarfs : RamdiskDir (some Tarfs.sampleRamdisk) (Tarfs.listing Tarfs.sampleEntries) :=
    (Tarfs.sampleRamdisk_holds.tarfsDir_iff _).mpr rfl
  have hlisting : sampleListing = Tarfs.listing Tarfs.sampleEntries ++
      fat16Dir (idleKernel.showAll (Ideal.typed keys)).kernel.bpb
        (idleKernel.showAll (Ideal.typed keys)).kernel.disk := by
    rw [hquiet.volume.1, hquiet.volume.2]
    rfl
  rw [hlisting]
  exact .dir _ htarfs

theorem dir_round : ∃ k', Round (some Tarfs.sampleRamdisk) idleKernel
    ⟨kernelText "dir", .only (Ideal.typed (kernelText "dir") ++ sampleListing), true⟩ k' := by
  have hkeys : 0x0A ∉ kernelText "dir" := by decide
  obtain ⟨l, hread, hholds⟩ :=
    (holds_start Arrays.clear [.print (kernelText "C:\\> ")]).read hkeys
  have hreads : Arrays.clear.reads (kernelText "dir") l := hread
  have hscreen := (hreads.spec hkeys).1
  have hline : (kernelText "dir").foldl editKey [] = kernelText "dir" := by decide
  rw [hline] at hholds
  obtain ⟨rest, hrest⟩ := hholds.text
  obtain ⟨p, q, hsplit⟩ := split_word rest Arrays.clear.cmdName Arrays.clear.args
    (show 0x20 ∉ kernelText "dir" by decide) Arrays.clear.cmdName_length Arrays.clear.args_length
  rw [hrest, ← hholds.cmdLen] at hsplit
  have hselect : select ((kernelText "dir").take 31 ++ 0 :: p) comparisons = some .dir := by
    rw [select_eq (by decide)]
    decide
  have hshows := sampleListing_shows (kernelText "dir") (cString (0 :: q))
  rw [← hscreen] at hshows ⊢
  exact ⟨_, .command Arrays.clear _ hkeys l hreads (by rw [hholds.cmdLen]; decide) _ _ hsplit _
    hselect (.only sampleListing) _ (.shows _ _ hshows)⟩

end LispDos.Shell
