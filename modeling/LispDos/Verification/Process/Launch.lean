import LispDos.Verification.Process.Cleanup
import LispDos.Verification.Process.StaleMemory

/-! # Programs that are launched

What is known of a program when it is entered: its address space lies on pages that were free, the
kernel's page map is where it was, and if its loading is clean every page that has been taken for it
is part of its address space. -/

namespace LispDos.Process

open Memory Foundation

variable {m m₁ m' : Machine} {pages S : List ℕ} {map : Word} {i : ℕ} {fs : Files}
  {filename : List UInt8} {args : Option (List UInt8)} {c : Context} {l : Loader}

/-! ## The kernel's page map -/

theorem vmmMapPage_kernelPml4 (m : Machine) (map v paddr flags : Word) :
    (vmmMapPage m map v paddr flags).kernelPml4 = m.kernelPml4 := by
  simp only [vmmMapPage, openTable_kernelPml4]

theorem foldl_freePage_kernelPml4 (ws : List Word) (m : Machine) :
    (ws.foldl Machine.freePage m).kernelPml4 = m.kernelPml4 := by
  induction ws generalizing m with
  | nil => rfl
  | cons w ws ih =>
      rw [List.foldl_cons, ih]
      rfl

theorem freeFile_kernelPml4 (phys : Word) (count : ℕ) (m : Machine) :
    (freeFile phys count m).kernelPml4 = m.kernelPml4 := by
  rw [freeFile, ← List.foldl_map]
  exact foldl_freePage_kernelPml4 _ m

theorem vmmFreePagemap_kernelPml4 (m : Machine) (map : Word) :
    (vmmFreePagemap m map).kernelPml4 = m.kernelPml4 := by
  rw [vmmFreePagemap_eq, foldl_freePage_kernelPml4]

theorem vmmNewPagemap_kernelPml4 (m : Machine) :
    (vmmNewPagemap m).2.kernelPml4 = m.kernelPml4 := by
  simp only [vmmNewPagemap]
  split
  · rfl
  · rfl

theorem checkMagic_machine (phys : Word) (magic : List (Word × Word)) (l : Loader) :
    (checkMagic phys magic l).2.machine = l.machine := by
  induction magic generalizing l with
  | nil => rfl
  | cons e magic ih =>
      obtain ⟨offset, c⟩ := e
      simp only [checkMagic]
      split
      · rw [ih]
        rfl
      · rfl

theorem checkHeader_machine (phys : Word) (size : ℕ) (l : Loader) :
    (checkHeader phys size l).2.machine = l.machine := by
  simp only [checkHeader]
  split_ifs
  all_goals exact checkMagic_machine phys elfMagic l

/-- Loading does not change where the kernel's page map is. -/
theorem loadHeaders_kernelPml4 (phys map phoff : Word) (n i : ℕ) (l : Loader) :
    (loadHeaders phys map phoff n i l).Yields
      (fun l' => l'.machine.kernelPml4 = l.machine.kernelPml4)
      (fun _ l' => l'.machine.kernelPml4 = l.machine.kernelPml4) := by
  refine loadHeaders_keeps (J := fun l' => l'.machine.kernelPml4 = l.machine.kernelPml4)
    (fun _ _ _ h => h) ?_ (fun _ h => h) phoff n i l rfl
  intro seg j l' h
  have hmapped := (vmmMapPage_kernelPml4 l'.machine.allocPage.2 map (seg.page j)
    l'.machine.allocPage.1 userFlags).trans h
  simp only [loadPage]
  split
  · exact h
  · split
    · exact hmapped
    · split
      · exact hmapped
      · exact hmapped

theorem enter_kernelPml4 (phys : Word) (count : ℕ) (map : Word) (args : Option (List UInt8))
    (l : Loader) :
    (enter phys count map args l).2.machine.kernelPml4 = l.machine.kernelPml4 := by
  simp only [enter]
  split
  · simp only [vmmFreePagemap_kernelPml4, freeFile_kernelPml4, Machine.allocPage_kernelPml4]
  · have hstack : ∀ page : Word, (mapStack map page args l.machine.allocPage.2).kernelPml4 =
        l.machine.kernelPml4 := by
      intro page
      have hmapped := vmmMapPage_kernelPml4 l.machine.allocPage.2 map userStack page userFlags
      cases args with
      | none => exact hmapped
      | some a => exact hmapped
    simp only [Loader.field, freeFile_kernelPml4, hstack]

theorem execElf_kernelPml4 (phys : Word) (size : ℕ) (args : Option (List UInt8)) (m : Machine) :
    (execElf phys size args m).2.machine.kernelPml4 = m.kernelPml4 := by
  have hheader := congrArg Machine.kernelPml4 (checkHeader_machine phys size ⟨m, []⟩)
  simp only [execElf]
  split
  · rw [freeFile_kernelPml4, hheader]
  · rename_i phoff _
    have hnew := (vmmNewPagemap_kernelPml4 (checkHeader phys size ⟨m, []⟩).2.machine).trans hheader
    split
    · rw [freeFile_kernelPml4, hnew]
    · have hload := loadHeaders_kernelPml4 phys
        (vmmNewPagemap (checkHeader phys size ⟨m, []⟩).2.machine).1 phoff 65536 0
        { (checkHeader phys size ⟨m, []⟩).2 with
          machine := (vmmNewPagemap (checkHeader phys size ⟨m, []⟩).2.machine).2 }
      generalize loadHeaders phys _ phoff 65536 0 _ = step at hload ⊢
      cases step with
      | go l => exact (enter_kernelPml4 _ _ _ _ _).trans (Eq.trans hload hnew)
      | stop exit l =>
          have hl : l.machine.kernelPml4 = m.kernelPml4 := Eq.trans hload hnew
          cases exit
          case copyFaults => exact hl
          all_goals
            simp only [vmmFreePagemap_kernelPml4, freeFile_kernelPml4]
            exact hl

theorem processExec_kernelPml4 (fs : Files) (filename : List UInt8) (args : Option (List UInt8))
    (m : Machine) : (processExec fs filename args m).2.machine.kernelPml4 = m.kernelPml4 := by
  simp only [processExec]
  split
  · rfl
  · split
    · rfl
    · split
      · rfl
      · split
        · exact freeFile_kernelPml4 _ _ _
        · exact execElf_kernelPml4 _ _ _ _

/-! ## Memory in use -/

/-- A loading that ends leaves what was in use alone. -/
theorem Loaded.guarded_of_ends {exit : Option ExecExit} (h : Loaded c exit l)
    (hlow : ∀ s ∈ c.reached, s.vaddr.toNat < 2 ^ 47) (hexit : exit ≠ some .copyFaults) :
    Guarded c.machine l.machine c.root := by
  cases h with
  | high exit l before v hmap hv hreached hcopies => exact (not_high hlow hreached).elim
  | faults l hlogged hfaults => exact (hexit rfl).elim
  | starved exit l pages S hexit hstarves hlogged before v hmap hzero hstarved =>
      exact hstarved.guarded
  | full l pages S hstarves hmore hlogged hfull hp => exact hp.half.guarded
  | complete l pages S hstarves hall hleft hlogged hp => exact hp.half.guarded

theorem ElfCall.frame {phys : Word} {size t : ℕ} {r : ExecExit × Loader}
    (hcall : ElfCall m₁ phys size args r) (hargs : ArgsFit args)
    (hlow : HeaderAccepted (byteAt m₁.mem phys) size →
      ∀ s ∈ (Context.of m₁ phys size).reached, s.vaddr.toNat < 2 ^ 47)
    (hreturns : r.1.returns = true) (ht : bitmapTest m₁.pmm.bitmap t = true) (hne : t ≠ 0) :
    r.2.machine.mem t = m₁.mem t := by
  cases hcall with
  | rejected exit hheader => rw [freeFile_mem]
  | noPagemap haccepted hfull => rw [freeFile_mem]
  | stopped exit l hexit haccepted hc hpos hloaded =>
      have hends : some exit ≠ some .copyFaults := fun heq => hexit (Option.some_inj.mp heq)
      simp only [release_mem]
      exact (hloaded.guarded_of_ends (hlow haccepted) hends).frame t ht hne
  | faulted l haccepted hc hpos hloaded => cases hreturns
  | entering l haccepted hc hpos hloaded =>
      obtain ⟨m', hguarded, hmem, -⟩ := hloaded.enter_guarded hc (hlow haccepted) hargs
      rw [Context.of_phys, Context.of_size] at hmem
      rw [hmem]
      exact hguarded.frame t ht hne

/-- A call that returns without having entered user mode leaves the pages that were in use alone. -/
theorem processExec_frame (hzero : bitmapTest m.pmm.bitmap 0 = true) (hfits : StoresFit fs filename)
    (hargs : ArgsFit args) (hlow : LoadsLow fs filename m)
    (hreturns : (processExec fs filename args m).1.returns = true) {t : ℕ}
    (ht : bitmapTest m.pmm.bitmap t = true) (hne : t ≠ 0) :
    (processExec fs filename args m).2.machine.mem t = m.mem t := by
  have hcall := processExec_call fs filename args m hzero
  generalize processExec fs filename args m = r at hcall hreturns ⊢
  cases hcall with
  | early exit hexit hfetch => rfl
  | hangs m' hfetch hread hmem => cases hreturns
  | readFailed m₁ phys i hfetch hfetched hfilled =>
      rw [freeFile_mem, hfilled.frame hfetched hfits ht]
  | elf m₁ phys i hfetch hfetched hfilled r hcall =>
      have hcontext : contextOf fs filename m =
          some (Context.of m₁ phys (fileSize fs filename).1) := by
        rw [contextOf, hfetch, Option.map_some]
      rw [hcall.frame hargs (hlow _ hcontext) hreturns ?_ hne, hfilled.frame hfetched hfits ht]
      rw [hfetched.took.bits, ht, Bool.or_true]

/-! ## Programs that are entered -/

/-- If the file of the call is accepted, the stack page is none of its pages, and if there is
memory for the stack page there is memory for the tables above it. -/
def StackClean (fs : Files) (filename : List UInt8) (m : Machine) : Prop :=
  ∀ c, contextOf fs filename m = some c → HeaderAccepted c.buf c.size →
    stackPage.number ∉ c.reached.map SegPage.number ∧
      (0 < c.remaining →
        1 + tablesFor (c.reached.map SegPage.number) stackPage.number ≤ c.remaining)

/-- A program has been entered: its address space, none of whose pages is lost, and the machine
before the file buffer was freed. -/
structure Launched (fs : Files) (filename : List UInt8) (m : Machine) (map : Word) (l : Loader)
    (c : Context) (m' : Machine) (pages S : List ℕ) : Prop where
  context : contextOf fs filename m = some c
  fetched : ∃ i, Fetched m c.machine c.phys c.size i
  accepted : c.Accepted
  pos : 0 < c.root
  map_eq : map = c.map
  machine : l.machine = freeFile c.phys (filePages c.size) m'
  half : Half c.machine m' c.root pages S
  all : ∀ x ∈ pages, x ∈ S

theorem exec_launched {entry stack : Word}
    (hexec : processExec fs filename args m = (.entered map entry stack, l))
    (hzero : bitmapTest m.pmm.bitmap 0 = true) (hargs : ArgsFit args)
    (hlow : LoadsLow fs filename m) (hclean : LoadsClean fs filename m)
    (hstack : StackClean fs filename m) :
    ∃ c m' pages S, Launched fs filename m map l c m' pages S := by
  obtain ⟨c, l', pages, S, henters⟩ := exec_entering hexec hzero hlow
  obtain ⟨i, hfetched⟩ := henters.fetched
  obtain ⟨hnot, hroom⟩ := hstack c henters.context henters.header
  have hnodup := (hclean c henters.context henters.header).nodup
  have hleft := henters.left
  have hcase := henters.progress.toPlaced.enter_case (Context.map_div henters.accepted) hargs c.phys
    (filePages c.size)
  rw [← henters.call, hexec] at hcase
  generalize hr : (ExecExit.entered map entry stack, l) = r at hcase
  cases hcase with
  | full hfull => cases hr
  | starved m' pages S hpos hzero hshort hstarved => omega
  | stacked m' pages S n hallocs _ hstacked =>
      cases hr
      have hplaced := hstacked.placed
      have hroot : 0 < c.root := Nat.pos_of_ne_zero (hplaced.half.ne_zero (lowerPath_nil 4) rfl)
      have hall : ((c.reached ++ [stackPage]).map SegPage.number).Nodup := by
        rw [List.map_append, List.map_singleton, List.nodup_append_comm, List.singleton_append,
          List.nodup_cons]
        exact ⟨hnot, hnodup⟩
      exact ⟨c, m', pages, S, henters.context, ⟨i, hfetched⟩, henters.accepted, hroot, rfl, rfl,
        hplaced.half, hplaced.leaks.mpr hall⟩

/-! ## The pages of the address space -/

/-- Loading does not enter user mode by itself. -/
theorem loadHeaders_not_entered (phys map phoff : Word) (n i : ℕ) (l : Loader)
    (map' entry stack : Word) :
    (loadHeaders phys map phoff n i l).Yields (fun _ => True)
      (fun exit _ => exit ≠ .entered map' entry stack) := by
  refine loadHeaders_keeps (J := fun _ => True) (fun _ _ _ h => h) ?_ (fun _ _ => by simp)
    phoff n i l trivial
  intro seg j l' _
  simp only [loadPage]
  split
  · simp [Step.Yields]
  · split
    · trivial
    · split
      · simp [Step.Yields]
      · trivial

theorem execElf_entered {phys : Word} {size : ℕ} {entry stack : Word}
    (h : (execElf phys size args m).1 = .entered map entry stack) :
    (vmmNewPagemap m).1 = map ∧ map ≠ 0#64 ∧ stack = stackPointer args := by
  have hmachine := checkHeader_machine phys size ⟨m, []⟩
  simp only [execElf] at h
  split at h
  · rename_i exit hheader
    have herror : exit ≠ .entered map entry stack := by
      rintro rfl
      simp only [checkHeader] at hheader
      split_ifs at hheader
      all_goals cases hheader
    exact (herror h).elim
  · rename_i phoff _
    rw [hmachine] at h
    split at h
    · cases h
    · rename_i hok
      have hload := loadHeaders_not_entered phys (vmmNewPagemap m).1 phoff 65536 0
        { (checkHeader phys size ⟨m, []⟩).2 with machine := (vmmNewPagemap m).2 } map entry stack
      generalize loadHeaders phys _ phoff 65536 0 _ = step at hload h
      cases step with
      | go l =>
          obtain ⟨hmap, hstack⟩ := enter_entered h
          exact ⟨hmap.symm, hmap ▸ hok, hstack⟩
      | stop exit l =>
          cases exit
          case entered map' entry' stack' => exact (hload h).elim
          all_goals cases h

/-- A program that is entered has been read into the file buffer. -/
theorem processExec_execElf {entry stack : Word}
    (h : (processExec fs filename args m).1 = .entered map entry stack) :
    let buf := m.allocPages (BitVec.ofNat 64 (filePages (fileSize fs filename).1))
    buf.1 ≠ 0#64 ∧ ∃ stores,
      (execElf buf.1 (fileSize fs filename).1 args
        { buf.2 with mem := storeAt buf.2.mem buf.1 stores }).1 = .entered map entry stack := by
  simp only [processExec] at h
  split at h
  · cases h
  · split at h
    · cases h
    · rename_i hok
      split at h
      · cases h
      · split at h
        · cases h
        · exact ⟨hok, _, h⟩

/-- The address space of a program that is entered lies on a page that was free. -/
theorem processExec_entered {entry stack : Word}
   
    (h : processExec fs filename args m = (.entered map entry stack, l))
    (hzero : bitmapTest m.pmm.bitmap 0 = true) :
    ∃ n < 2 ^ 40, map = pageAddr n ∧ bitmapTest m.pmm.bitmap n = false := by
  obtain ⟨hok, stores, helf⟩ := processExec_execElf (congrArg Prod.fst h)
  obtain ⟨hnew, hne, _⟩ := execElf_entered helf
  obtain ⟨hfail, _⟩ | ⟨_, i, hfetched⟩ := bufferCases hzero (fileSize_lt fs filename)
  · exact (hok hfail).elim
  · have htook := (hfetched (storeAt m.mem
      (m.allocPages (BitVec.ofNat 64 (filePages (fileSize fs filename).1))).1 stores)).took
    obtain ⟨n, _, hn, haddr, hhalf, _, _⟩ := Half.new
      ((hfetched _).ready hzero).zero (hnew.trans_ne hne)
    refine ⟨n, hn, hnew.symm.trans haddr, ?_⟩
    have hclear := hhalf.took.clear n (List.mem_singleton_self n)
    rw [htook.bits, Bool.or_eq_false_iff] at hclear
    exact hclear.2

end LispDos.Process
