import LispDos.Verification.Process.Cleanup
import LispDos.Verification.Process.KernelHalf
import LispDos.Verification.Raw.Loading

/-! # Whole calls beside the bitmap

A call of `process_exec` on the machine with one memory and on the one that is taken apart. While
the pages of the bitmap are in use, the two calls end in the same way, unless a page at or above the
limit of the lower half is mapped. -/

namespace LispDos.Raw

open Foundation Memory Process

variable {H D : Set ℕ} {r r' r₁ : Machine} {m m' m₁ : Memory.Machine} {c : Context} {i n t size : ℕ}
  {pages S : List ℕ} {phys map : Word} {l : Loader} {l' : Process.Loader} {mem mem' : PhysMem}
  {buf : ℕ → UInt8} {args : Option (List UInt8)} {limit root : ℕ}

/-! ## The file buffer -/

/-- What stores leave in a page does not depend on the other pages. -/
theorem storeAt_page (hsame : mem t = mem' t) (phys : Word) (stores : List Store) :
    storeAt mem phys stores t = storeAt mem' phys stores t := by
  induction stores generalizing mem mem' with
  | nil => exact hsame
  | cons s stores ih =>
      refine ih ?_
      simp only
      by_cases ht : (phys + BitVec.ofNat 64 s.1).toNat / 4096 = t
      · exact storeByte_page s.2 hsame ht
      · rw [storeByte_other mem s.2 (Ne.symm ht), storeByte_other mem' s.2 (Ne.symm ht), hsame]

/-- The loop that frees the file buffer. -/
theorem freeFile_eq (i n : ℕ) (hn : i + n ≤ 2 ^ 40) (r : Machine) :
    freeFile (pageAddr i) n r = ((List.range' i n).map pageAddr).foldl pmmFreePage r := by
  rw [row_pages hn, List.foldl_map]
  rfl

theorem Sim.freeFile (h : Sim H r m) (hn : i + n ≤ 2 ^ 40)
    (hpages : ∀ j ∈ List.range' i n, Freeable r j) :
    Sim H (freeFile (pageAddr i) n r) (Process.freeFile (pageAddr i) n m) := by
  rw [freeFile_eq i n hn, Process.freeFile_eq i n hn]
  refine h.freePages fun w hw => ?_
  obtain ⟨j, hj, rfl⟩ := List.mem_map.mp hw
  have hlt := (List.mem_range'_1.mp hj).2
  rw [pageAddr_div (by omega)]
  exact hpages j hj

theorem freeFile_kept (hn : i + n ≤ 2 ^ 40) (hpages : ∀ j ∈ List.range' i n, Freeable r j) :
    Kept r (freeFile (pageAddr i) n r) := by
  rw [freeFile_eq i n hn]
  refine kept_foldl fun w hw => ?_
  obtain ⟨j, hj, rfl⟩ := List.mem_map.mp hw
  have hlt := (List.mem_range'_1.mp hj).2
  rw [pageAddr_div (by omega)]
  exact hpages j hj

/-! ## The header -/

/-- Loaders that have only read, on the machines `r` and `m`. -/
structure Reading (Before : Word → Machine → Memory.Machine → Prop) (r : Machine)
    (m : Memory.Machine) (l : Loader) (l' : Process.Loader) : Prop where
  left : l.machine = r
  right : l'.machine = m
  logs : LogAlike Before l.log l'.log

/-- The exit of checks that fail. -/
def checkExit : Except ExecExit Word → Option ExecExit
  | .error exit => some exit
  | .ok _ => none

section Header

variable {Before : Word → Machine → Memory.Machine → Prop}
  (hbytes : ∀ k < 4096, byteAt r.mem phys k = byteAt m.mem phys k)

include hbytes

theorem Reading.field (h : Reading Before r m l l') (offset : Word) (n : ℕ)
    (hin : offset.toNat + n ≤ 4096) :
    (l.field phys offset n).1 = (l'.field phys offset n).1 ∧
      Reading Before r m (l.field phys offset n).2 (l'.field phys offset n).2 := by
  refine ⟨?_, h.left, h.right, h.logs.append (.singleton (.field offset n))⟩
  simp only [Loader.field, Process.Loader.field, loadField, h.left, h.right]
  refine leField_congr n fun k hk => ?_
  rw [byteAt_add, byteAt_add, hbytes _ (by omega)]

theorem Reading.checkMagic (h : Reading Before r m l l') (magic : List (Word × Word))
    (hsmall : ∀ e ∈ magic, e.1.toNat < 4096) :
    (checkMagic phys magic l).1 = (Process.checkMagic phys magic l').1 ∧
      Reading Before r m (checkMagic phys magic l).2 (Process.checkMagic phys magic l').2 := by
  induction magic generalizing l l' with
  | nil => exact ⟨rfl, h⟩
  | cons e magic ih =>
      obtain ⟨hhead, htail⟩ := List.forall_mem_cons.mp hsmall
      obtain ⟨hfst, hread⟩ := h.field hbytes e.1 1 (Nat.succ_le_of_lt hhead)
      simp only [Raw.checkMagic, Process.checkMagic, hfst]
      split
      · exact ih hread htail
      · exact ⟨rfl, hread⟩

theorem Reading.checkHeader (h : Reading Before r m l l') (size : ℕ) :
    (checkHeader phys size l).1 = checkExit (Process.checkHeader phys size l').1 ∧
      Reading Before r m (checkHeader phys size l).2 (Process.checkHeader phys size l').2 := by
  obtain ⟨hident, h₀⟩ := h.checkMagic hbytes elfMagic
    fun e he => (elfMagic_lt e he).trans (by decide)
  obtain ⟨hphoff, h₁⟩ := h₀.field hbytes 32#64 8 (by decide)
  obtain ⟨hphnum, h₂⟩ := h₁.field hbytes 56#64 2 (by decide)
  obtain ⟨hentry, h₃⟩ := h₂.field hbytes 24#64 8 (by decide)
  simp only [Raw.checkHeader, Process.checkHeader, hident, hphoff, hphnum, hentry]
  split_ifs
  · exact ⟨rfl, h₀⟩
  · exact ⟨rfl, h₁⟩
  · exact ⟨rfl, h₂⟩
  · exact ⟨rfl, h₃⟩
  · exact ⟨rfl, h₃⟩

end Header

/-! ## Loading -/

section Rounded

variable (h : Rounded H m₁ root D r m)

include h

theorem Rounded.sim : Sim (H ∪ D) r m := by
  cases h with
  | going pages S going => exact going.sim
  | stuck pages S stuck => exact stuck.sim

theorem Rounded.stores : ∀ t, r.Stores t → t ∈ H := by
  cases h with
  | going pages S going => exact going.stores
  | stuck pages S stuck => exact stuck.stores

theorem Rounded.took : ∃ pages, Took m₁.pmm m.pmm pages ∧ ∀ x ∈ D, x ∈ pages := by
  cases h with
  | going pages S going => exact ⟨pages, going.half.took, fun x hx => (going.dirty x hx).1⟩
  | stuck pages S stuck => exact ⟨pages, stuck.starved.took, fun x hx => (stuck.dirty x hx).1⟩

theorem Rounded.guarded : Guarded m₁ m root := by
  cases h with
  | going pages S going => exact going.half.guarded
  | stuck pages S stuck => exact stuck.starved.guarded

theorem Rounded.dirty : ∀ x ∈ D, bitmapTest m₁.pmm.bitmap x = false := by
  obtain ⟨pages, took, hdirty⟩ := h.took
  exact fun x hx => took.clear x (hdirty x hx)

/-- The PML4 is none of the pages that differ. -/
theorem Rounded.root_not_mem (hground : Ground H m₁ phys limit buf) : root ∉ H ∪ D := by
  cases h with
  | going pages S going => exact going.table hground (lowerPath_nil 3) rfl
  | stuck pages S stuck =>
      rintro (hin | hin)
      · exact hground.not_mem stuck.starved.took
          (stuck.starved.sub root stuck.starved.root_mem) hin
      · exact (stuck.dirty root hin).2 rfl

end Rounded

/-- The two machines once the file is in its buffer, on the pages from `i` on. -/
structure InBuffer (H : Set ℕ) (r₁ : Machine) (c : Context) (i : ℕ) : Prop where
  sim : Sim H r₁ c.machine
  ground : Ground H c.machine c.phys c.limit c.buf
  kernel : c.machine.kernelPml4 ∉ H
  addr : c.phys = pageAddr i
  bound : i + filePages c.size ≤ 2 ^ 40
  row : ∀ j ∈ List.range' i (filePages c.size), j < c.machine.pmm.highestPage ∧ j ∉ H

section InBuffer

variable (hin : InBuffer H r₁ c i)

include hin

/-- The pages of the buffer can be freed as long as the machines differ on the pages of the
bitmap and on new ones. -/
theorem InBuffer.freeable (hsim : Sim (H ∪ D) r m) (hstores : ∀ t, r.Stores t → t ∈ H)
    (hhighest : m.pmm.highestPage = c.machine.pmm.highestPage) :
    ∀ j ∈ List.range' i (filePages c.size), Freeable r j := by
  intro j hj
  obtain ⟨hlt, hnot⟩ := hin.row j hj
  refine ⟨?_, fun hs => hnot (hstores j hs)⟩
  rw [hsim.alike.highest, hhighest]
  exact hlt

theorem InBuffer.freed (hsim : Sim (H ∪ D) r m) (hstores : ∀ t, r.Stores t → t ∈ H)
    (hhighest : m.pmm.highestPage = c.machine.pmm.highestPage) :
    Sim (H ∪ D) (freeFile c.phys (filePages c.size) r)
        (Process.freeFile c.phys (filePages c.size) m) ∧
      Kept r (freeFile c.phys (filePages c.size) r) := by
  have hfree := hin.freeable hsim hstores hhighest
  rw [hin.addr]
  exact ⟨hsim.freeFile hin.bound hfree, freeFile_kept hin.bound hfree⟩

theorem InBuffer.freeRounded (h : Rounded H c.machine root D r m) :
    Sim (H ∪ D) (freeFile c.phys (filePages c.size) r)
      (Process.freeFile c.phys (filePages c.size) m) := by
  obtain ⟨pages, took, -⟩ := h.took
  exact (hin.freed h.sim h.stores took.highest).1

/-- An address space whose tables lie apart from what differs is torn down in the same way. -/
theorem Going.release (h : Going H c.machine c.root pages S D r m) (hc : c.Accepted) :
    Sim (H ∪ D) (vmmFreePagemap (freeFile c.phys (filePages c.size) r) c.map)
      (Memory.vmmFreePagemap (Process.freeFile c.phys (filePages c.size) m) c.map) := by
  obtain ⟨hsim, hkept⟩ := hin.freed h.sim h.stores h.half.took.highest
  refine hsim.freePagemap ?_
  rw [Context.map_div hc, freeFile_mem]
  constructor
  · exact fun q t hq ht => h.table hin.ground hq ht
  · intro q x hq hx
    have hpage := h.half.mem_pages hq hx
    refine hkept.freeable_iff.mpr ⟨?_, ?_⟩
    · rw [h.sim.alike.highest, h.half.took.highest]
      exact h.half.took.below x hpage
    · exact fun hs => hin.ground.not_mem h.half.took hpage (h.stores x hs)

end InBuffer

/-! ## After the file has been read -/

/-- The ends of the two calls once the file is in its buffer. -/
inductive ElfAlike (H : Set ℕ) (c : Context) (args : Option (List UInt8)) :
    ExecExit × Loader → ExecExit × Process.Loader → Prop where
  | returned (exit : ExecExit) (l : Loader) (l' : Process.Loader) (D : Set ℕ)
      (hexit : ∀ map entry stack, exit ≠ .entered map entry stack)
      (logs : LogAlike (MapsOn H c.machine) l.log l'.log) (sim : Sim (H ∪ D) l.machine l'.machine)
      (dirty : ∀ x ∈ D, bitmapTest c.machine.pmm.bitmap x = false) :
      ElfAlike H c args (exit, l) (exit, l')
  /-- A table was missing, and the address space is torn down. -/
  | torn (exit : ExecExit) (l : Loader) (l' : Process.Loader)
      (hexit : ∀ map entry stack, exit ≠ .entered map entry stack)
      (hheader : HeaderAccepted c.buf c.size) (hstarves : c.starves = true)
      (logs : LogAlike (MapsOn H c.machine) l.log l'.log) : ElfAlike H c args (exit, l) (exit, l')
  | faults (l : Loader) (l' : Process.Loader) (hheader : HeaderAccepted c.buf c.size)
      (hloaded : Loaded c (some .copyFaults) l')
      (logs : LogAlike (MapsOn H c.machine) l.log l'.log) :
      ElfAlike H c args (.copyFaults, l) (.copyFaults, l')
  | strayed (x : ExecExit × Loader) (x' : ExecExit × Process.Loader) (h : Strays x.2.log)
      (h' : Strays' x'.2.log) : ElfAlike H c args x x'
  | entered (l : Loader) (l' : Process.Loader) (pages S : List ℕ) (D : Set ℕ)
      (hheader : HeaderAccepted c.buf c.size) (hc : c.Accepted)
      (going : Going H c.machine c.root pages S D l.machine l'.machine)
      (hok : l'.machine.allocPage.1 ≠ 0#64) (hloaded : Loaded c none l')
      (logs : LogAlike (MapsOn H c.machine) l.log l'.log) (clean : CopiesIn c.limit l'.log → D = ∅) :
      ElfAlike H c args (enter c.phys (filePages c.size) c.map args l)
        (Process.enter c.phys (filePages c.size) c.map args l')

/-- An event that is read again. -/
theorem LogAlike.again {Before : Word → Machine → Memory.Machine → Prop} {log : List Event}
    {log' : List Process.Event} {e : Event} {e' : Process.Event} (h : LogAlike Before log log')
    (halike : EventAlike Before e e') (hin : e' ∈ log') : LogAlike Before (log ++ [e]) log' := by
  constructor
  · intro x hx
    rcases List.mem_append.mp hx with hx | hx
    · exact h.left x hx
    · exact ⟨e', hin, List.mem_singleton.mp hx ▸ halike⟩
  · intro x hx
    obtain ⟨y, hy, hxy⟩ := h.right x hx
    exact ⟨y, List.mem_append_left _ hy, hxy⟩

/-- A page at or above the limit has been mapped on both machines. -/
theorem LogAlike.strays {Before : Word → Machine → Memory.Machine → Prop} {log : List Event}
    {log' : List Process.Event} (h : LogAlike Before log log') (hstrays : Strays' log') :
    Strays log := by
  obtain ⟨before, map, v, hin, hv⟩ := hstrays
  obtain ⟨e, he, halike⟩ := h.right _ hin
  cases halike with
  | map before' _ _ _ _ => exact ⟨before', map, v, he, hv⟩

/-- When the loading is stuck a table is missing, or the lower half has been left. -/
theorem Stuck.starves (h : Stuck H c.machine c.root pages S D r l'.machine) {exit : Option ExecExit}
    (hloaded : Loaded c exit l') (hexit : exit ≠ some .copyFaults) :
    c.starves = true ∨ Strays' l'.log := by
  obtain ⟨q, hq, _, hzero⟩ := h.starved.leads l'.machine.mem fun _ _ => rfl
  cases hloaded with
  | high _ _ before v hmap hv _ _ => exact .inr ⟨before, c.map, v, hmap, hv⟩
  | faults _ _ _ => exact (hexit rfl).elim
  | starved _ _ _ _ _ hstarves _ _ _ _ _ _ => exact .inl hstarves
  | full _ _ _ _ _ _ _ hp => exact (hp.half.ne_zero hq hzero rfl).elim
  | complete _ _ _ _ _ _ _ hp => exact (hp.half.ne_zero hq hzero rfl).elim

section Enter

variable {phys map : Word} {count : ℕ}

theorem enter_log (l : Loader) : ∀ e ∈ l.log, e ∈ (enter phys count map args l).2.log := by
  intro e he
  simp only [enter]
  split
  · exact he
  · exact List.mem_append_left _ (List.mem_append_left _ he)

theorem enter_log' (l : Process.Loader) :
    ∀ e ∈ l.log, e ∈ (Process.enter phys count map args l).2.log := by
  intro e he
  simp only [Process.enter]
  split
  · exact he
  · exact List.mem_append_left _ (List.mem_append_left _ he)

end Enter

section Elf

variable (hin : InBuffer H r₁ c i)

include hin

/-- A call that stops tears its address space down on both machines, unless a table was
missing. -/
theorem Paired.release (h : Paired H c.machine c.root c.limit l l') (hc : c.Accepted)
    (hheader : HeaderAccepted c.buf c.size) {exit : ExecExit} {loaded : Option ExecExit}
    (hloaded : Loaded c loaded l') (hfaults : loaded ≠ some .copyFaults)
    (hexit : ∀ map entry stack, exit ≠ .entered map entry stack) :
    ElfAlike H c args
      (exit, ⟨vmmFreePagemap (freeFile c.phys (filePages c.size) l.machine) c.map, l.log⟩)
      (exit, ⟨Memory.vmmFreePagemap (Process.freeFile c.phys (filePages c.size) l'.machine) c.map,
        l'.log⟩) := by
  obtain ⟨D, hstate, -⟩ := h.state
  have hdirty := hstate.dirty
  cases hstate with
  | going pages S going => exact .returned exit _ _ D hexit h.logs (going.release hin hc) hdirty
  | stuck pages S stuck =>
      rcases stuck.starves hloaded hfaults with hstarves | hstrays
      · exact .torn exit _ _ hexit hheader hstarves h.logs
      · exact .strayed _ _ (h.logs.strays hstrays) hstrays

/-- The end of a call whose pages have been loaded. -/
theorem Paired.enter (h : Paired H c.machine c.root c.limit l l') (hc : c.Accepted)
    (hheader : HeaderAccepted c.buf c.size) (hloaded : Loaded c none l') :
    ElfAlike H c args (enter c.phys (filePages c.size) c.map args l)
      (Process.enter c.phys (filePages c.size) c.map args l') := by
  obtain ⟨D, hstate, hclean⟩ := h.state
  have hsim := hstate.sim.allocPage
  have hzero : bitmapTest l'.machine.pmm.bitmap 0 = true := by
    obtain ⟨pages, took, -⟩ := hstate.took
    rw [took.bits, hc.zero, Bool.or_true]
  obtain ⟨hfull, hsame, hnone⟩ | ⟨n, _, _, _, hok, _, _⟩ := l'.machine.allocPage_cases hzero
  · have hmachine : Rounded H c.machine c.root D (pmmAllocPage l.machine).2 l'.machine := by
      rw [hsame] at hsim
      cases hstate with
      | going pages S going =>
          exact .going pages S ⟨going.half, hsim.2, fun t ht => going.stores t (stores_alloc.mp ht),
            going.dirty⟩
      | stuck pages S stuck =>
          exact .stuck pages S ⟨stuck.starved, hsim.2,
            fun t ht => stuck.stores t (stores_alloc.mp ht), stuck.dirty⟩
    have hpaired : Paired H c.machine c.root c.limit { l with machine := (pmmAllocPage l.machine).2 }
        l' := ⟨h.logs, D, hmachine, hclean⟩
    simp only [Raw.enter, Process.enter, if_pos (hsim.1.trans hfull), if_pos hfull, hsame]
    exact hpaired.release hin hc hheader hloaded (by simp) (by simp)
  · cases hstate with
    | going pages S going =>
        exact .entered l l' pages S D hheader hc going hok hloaded h.logs hclean
    | stuck pages S stuck =>
        exact (hok (Machine.allocPage_full stuck.starved.zero_used stuck.starved.full).1).elim

omit hin in
/-- A loading that stops does not enter user mode, or the lower half has been left. -/
theorem not_entered_or_strays {exit : ExecExit} (h : Loaded c (some exit) l') :
    (∀ map entry stack, exit ≠ .entered map entry stack) ∨ Strays' l'.log := by
  generalize hexit : some exit = e at h
  cases h with
  | high _ _ before v hmap hv _ _ => exact .inr ⟨before, c.map, v, hmap, hv⟩
  | faults _ _ _ =>
      cases hexit
      exact .inl (by simp)
  | full _ _ _ _ _ _ _ _ =>
      cases hexit
      exact .inl (by simp)
  | starved _ _ _ _ hcases _ _ _ _ _ _ _ =>
      subst hexit
      rcases hcases with heq | heq | heq <;> cases heq <;> exact .inl (by simp)
  | complete _ _ _ _ _ _ _ _ =>
      split at hexit <;> cases hexit
      exact .inl (by simp)

/-- The two calls once the file is in its buffer. -/
theorem execElf_alike (hready : Ready c.machine c.phys c.size)
    (hof : c = Context.of c.machine c.phys c.size) (args : Option (List UInt8)) :
    ElfAlike H c args (execElf c.phys c.size args r₁)
      (Process.execElf c.phys c.size args c.machine) := by
  have hbuf : c.buf = byteAt c.machine.mem c.phys := congrArg Context.buf hof
  have hpages := hready.pages_pos
  have hlimit : 4096 ≤ c.limit := by
    rw [Context.limit]
    omega
  have hsim : Sim (H ∪ ∅) r₁ c.machine := hin.sim.mono Set.subset_union_left
  have hbytes := hin.ground.bytes hsim (by simp)
  have hstart : Reading (MapsOn H c.machine) r₁ c.machine ⟨r₁, []⟩ ⟨c.machine, []⟩ := ⟨rfl, rfl, .nil⟩
  have hread : ∀ k < 4096, byteAt r₁.mem c.phys k = byteAt c.machine.mem c.phys k :=
    fun k hk => hbytes k (hk.trans_le hlimit)
  obtain ⟨hfst, hleft, _, hlogs⟩ := hstart.checkHeader hread c.size
  have hheader := checkHeader_eq hin.ground.buffer.bytes hlimit c.size []
  rw [List.nil_append] at hheader
  rw [hheader] at hfst hlogs
  simp only [Raw.execElf, Process.execElf, hheader]
  generalize checkHeader c.phys c.size ⟨r₁, []⟩ = x at hfst hleft hlogs ⊢
  obtain ⟨result, ⟨machine, log⟩⟩ := x
  obtain rfl : r₁ = machine := hleft.symm
  obtain rfl := hfst
  simp only at hlogs ⊢
  cases hresult : headerResult c.buf c.size with
  | error exit =>
      have hexit := (headerResult_error hresult).2
      have hfree := (hin.freed hsim (fun t ht => hin.sim.stores t ht) rfl).1
      refine .returned exit _ _ ∅ ?_ hlogs hfree (by simp)
      rcases hexit with rfl | rfl | rfl <;> simp
  | ok phoff' =>
      obtain ⟨rfl, haccepted, htable⟩ := headerResult_ok hresult hready.size_lt
      obtain ⟨hnew, hmaps⟩ := hin.sim.newPagemap hin.kernel
      simp only [checkExit, hnew]
      by_cases hmap : (Memory.vmmNewPagemap c.machine).1 = 0#64
      · have hsame := (vmmNewPagemap_full hready.zero hmap).2
        rw [hsame] at hmaps
        rw [if_pos hmap, if_pos hmap, hsame]
        have hfree := (hin.freed (D := ∅) (hmaps.mono Set.subset_union_left) hmaps.stores rfl).1
        exact .returned .noPagemap _ _ ∅ (by simp) hlogs hfree (by simp)
      · rw [if_neg hmap, if_neg hmap]
        have hresult' : headerResult (byteAt c.machine.mem c.phys) c.size = .ok (phoff c.buf) := by
          rw [← hbuf, hresult]
        obtain ⟨hc, haddr⟩ := hready.accepted hresult' hmap
        rw [← hof] at hc haddr
        obtain ⟨n, _, hn, hnaddr, hhalf, hempty, _⟩ := Half.new hready.zero hmap
        have hroot : c.root = n := by
          rw [congrArg Context.root hof, Context.of, hnaddr, pageAddr_div (hn.trans (by decide))]
        rw [← hroot] at hhalf
        have hgoing : Going H c.machine c.root [c.root] [c.root] ∅ (vmmNewPagemap r₁).2
            (Memory.vmmNewPagemap c.machine).2 :=
          ⟨hhalf, hmaps.mono Set.subset_union_left, hmaps.stores, by simp⟩
        have hstart := Loading.start hc.zero hmap haddr hc.root_lt (logged_headerLog c)
        have hyields := loadHeaders_loaded hc hstart
        have hseen : Process.Event.field 32#64 8 ∈ headerLog c.buf c.size := by
          have hmagic : ¬ ¬ Magic c.buf := fun h => h haccepted.magic
          simp only [headerLog, headerReads, if_neg hmagic, List.map_append, List.map_cons]
          simp
        have hagain := hlogs.again (.field 32#64 8) hseen
        have hpaired : Paired H c.machine c.root c.limit ⟨(vmmNewPagemap r₁).2, log ++ [.field 32#64 8]⟩
            ⟨(Memory.vmmNewPagemap c.machine).2, headerLog c.buf c.size⟩ :=
          ⟨hagain, ∅, .going _ _ hgoing, fun _ => rfl⟩
        have hphoff : (Loader.field ⟨(vmmNewPagemap r₁).2, log⟩ c.phys 32#64 8).1 = phoff c.buf :=
          field_fst (l := ⟨(vmmNewPagemap r₁).2, log⟩)
            (fun k hk => (hpaired.bytes hin.ground k hk).1) 32#64 8 (hlimit.trans' (by decide))
        have hsmall : c.limit < 2 ^ 64 := by
          have := (filePages_bounds hready.size_lt).1
          rw [Context.limit]
          omega
        have hloops := loadHeaders_abreast hin.ground hpaired (Context.map_div hc) hsmall (by omega)
          (htable.trans hc.size_le) 65536 0
        rw [hphoff, haddr]
        simp only [Loader.field]
        rw [headerLog] at hloops hyields
        generalize loadHeaders c.phys c.map (phoff c.buf) 65536 0
          ⟨(vmmNewPagemap r₁).2, log ++ [.field 32#64 8]⟩ = st at hloops ⊢
        generalize Process.loadHeaders c.phys c.map (phoff c.buf) 65536 0
          ⟨(Memory.vmmNewPagemap c.machine).2,
            (headerReads c.buf c.size).map fun r => .field r.1 r.2⟩ = st' at hloops hyields ⊢
        cases hloops with
        | go l l' h => exact h.enter hin hc haccepted hyields
        | faults l l' logs => exact .faults l l' haccepted hyields logs
        | stop exit l l' hexit h =>
            rcases not_entered_or_strays hyields with hentered | hstrays
            · have hfaults : some exit ≠ some .copyFaults := fun heq => hexit (Option.some_inj.mp heq)
              cases exit with
              | copyFaults => exact (hexit rfl).elim
              | _ => exact h.release hin hc haccepted hyields hfaults hentered
            · refine .strayed _ _ ((h.logs.strays hstrays).mono ?_) (hstrays.mono ?_)
              · cases exit <;> exact fun e he => he
              · cases exit <;> exact fun e he => he
        | strayed _ _ hstrays hstrays' =>
            refine .strayed _ _ (hstrays.mono ?_) (hstrays'.mono ?_)
            · cases st with
              | go l => exact enter_log l
              | stop exit l => cases exit <;> exact fun e he => he
            · cases st' with
              | go l => exact enter_log' l
              | stop exit l => cases exit <;> exact fun e he => he

end Elf

/-! ## Entering user mode -/

theorem mapStack_eq (map : Word) (n : ℕ) (args : Option (List UInt8)) (r : Machine) :
    mapStack map (pageAddr n) args r = { vmmMapPage r map userStack (pageAddr n) userFlags with
      mem := stackStore args (vmmMapPage r map userStack (pageAddr n) userFlags).mem n } := by
  cases args with
  | none => rfl
  | some a => rfl

theorem stackStore_page (hsame : mem t = mem' t) (n : ℕ) :
    stackStore args mem n t = stackStore args mem' n t := by
  cases args with
  | none => exact hsame
  | some a => exact storeAt_page hsame _ _

/-- The two calls enter user mode, on machines that differ on the pages `H` and `D`. -/
structure Jumped (H : Set ℕ) (c : Context) (args : Option (List UInt8)) (D : Set ℕ)
    (x : ExecExit × Loader) (x' : ExecExit × Process.Loader) : Prop where
  exit : x.1 = .entered c.map (entryPoint c.buf) (stackPointer args)
  exit' : x'.1 = .entered c.map (entryPoint c.buf) (stackPointer args)
  sim : Sim (H ∪ D) x.2.machine x'.2.machine
  logs : LogAlike (MapsOn H c.machine) x.2.log x'.2.log
  rounded : ∃ r₂ m₂, Rounded H c.machine c.root D r₂ m₂ ∧
    x.2.machine = freeFile c.phys (filePages c.size) r₂ ∧
    x'.2.machine = Process.freeFile c.phys (filePages c.size) m₂

/-- The stack page is mapped on both machines. -/
theorem Going.stacked (h : Going H m₁ root (pages ++ [n]) S D r m) (hground : Ground H m₁ phys limit buf)
    (hroot : map.toNat / 4096 = root) (hn : n < 2 ^ 40) (hout : n ∉ S) (hD : n ∉ D)
    (hargs : ArgsFit args) :
    Rounded H m₁ root D (mapStack map (pageAddr n) args r)
      (Process.mapStack map (pageAddr n) args m) := by
  have hin : n ∈ pages ++ [n] := List.mem_append_right _ (List.mem_singleton_self n)
  have hlow : userStack.toNat < 2 ^ 47 := by decide
  have hafter : Sim (H ∪ D) (vmmMapPage r map userStack (pageAddr n) userFlags)
      (Memory.vmmMapPage m map userStack (pageAddr n) userFlags) :=
    h.sim.mapPage (h.mapTables hground hlow hroot) _ _
  have hnH := hground.not_mem h.half.took hin
  rw [mapStack_eq, Process.mapStack_eq]
  refine h.stored hlow hroot hn hin hout hD (fun x hx => .inl hx)
    (fun t ht => stackStore_other hn hargs _ ht) ?_
  refine hafter.withMem ?_ fun t ht => stackStore_page (hafter.mem t ht) n
  intro t ht
  refine stackStore_other hn hargs _ ?_
  rintro rfl
  exact (hafter.stores _ ht).elim hnH hD

theorem Going.jumped (h : Going H c.machine c.root pages S D l.machine l'.machine)
    (hin : InBuffer H r₁ c i) (hc : c.Accepted) (hargs : ArgsFit args)
    (hok : l'.machine.allocPage.1 ≠ 0#64) (hlogs : LogAlike (MapsOn H c.machine) l.log l'.log) :
    Jumped H c args D (enter c.phys (filePages c.size) c.map args l)
      (Process.enter c.phys (filePages c.size) c.map args l') := by
  obtain ⟨hfull, _, _⟩ | ⟨n, _, hn, halloc, _, takes, _⟩ :=
    l'.machine.allocPage_cases h.half.zero_used
  · exact (hok hfull).elim
  obtain ⟨hnot, hout, htaken⟩ := h.take takes
  have hroot := Context.map_div hc
  have hfst := h.sim.allocPage.1.trans halloc
  have hrounded := htaken.stacked hin.ground hroot hn hout (fun hD => hnot (h.dirty n hD).1) hargs
  have hfree := hin.freeRounded hrounded
  have hmap : EventAlike (MapsOn H c.machine) (.map (pmmAllocPage l.machine).2 c.map userStack)
      (.map l'.machine.allocPage.2 c.map userStack) :=
    .map _ _ _ _ ⟨_, _, _, hroot.symm ▸ htaken⟩
  have hbuf := hin.ground.buffer.bytes_of_frame hrounded.guarded.frame
  have hbytes := hin.ground.bytes hfree hrounded.dirty
  have hlimit : (24#64 : Word).toNat + 8 ≤ c.limit := hc.limit_pos.trans' (by decide)
  -- the entry point is read on each machine from the buffer, which has kept its bytes
  have hentry' : (Process.enter c.phys (filePages c.size) c.map args l').1 =
      .entered c.map (entryPoint c.buf) (stackPointer args) := by
    rw [Process.enter_eq hok, halloc]
    exact congrArg (ExecExit.entered c.map · (stackPointer args))
      (Process.field_fst (l := ⟨Process.mapStack c.map (pageAddr n) args l'.machine.allocPage.2, []⟩)
        hbuf 24#64 8 hlimit)
  have hne : pageAddr n ≠ 0#64 := halloc ▸ hok
  have henter : enter c.phys (filePages c.size) c.map args l =
      (.entered c.map (entryPoint c.buf) (stackPointer args),
        ⟨freeFile c.phys (filePages c.size) (mapStack c.map (pageAddr n) args (pmmAllocPage l.machine).2),
          l.log ++ [.map (pmmAllocPage l.machine).2 c.map userStack] ++ [.field 24#64 8]⟩) := by
    have hread : ∀ k < c.limit, byteAt (freeFile c.phys (filePages c.size)
        (mapStack c.map (pageAddr n) args (pmmAllocPage l.machine).2)).mem c.phys k = c.buf k := by
      intro k hk
      rw [hbytes k hk, freeFile_mem]
      exact hbuf k hk
    simp only [enter, hfst, if_neg hne]
    exact congrArg (fun e => (ExecExit.entered c.map e (stackPointer args), _))
      (field_fst (l := ⟨_, []⟩) hread 24#64 8 hlimit)
  have hmodel : (Process.enter c.phys (filePages c.size) c.map args l').2 =
      ⟨Process.freeFile c.phys (filePages c.size)
          (Process.mapStack c.map (pageAddr n) args l'.machine.allocPage.2),
        l'.log ++ [.map l'.machine.allocPage.2 c.map userStack] ++ [.field 24#64 8]⟩ := by
    rw [Process.enter_eq hok, halloc]
    rfl
  refine ⟨by rw [henter], hentry', ?_, ?_, _, _, hrounded, by rw [henter], by rw [hmodel]⟩
  · rw [henter, hmodel]
    exact hfree
  · rw [henter, hmodel]
    exact (hlogs.append (.singleton hmap)).append (.singleton (.field 24#64 8))

/-! ## Whole calls -/

variable {fs : Files} {filename : List UInt8}

/-- The pages of the bitmap are in use when it is taken apart. -/
theorem BitmapInUse.used_apart (h : BitmapInUse r) (ht : r.Stores t) :
    bitmapTest r.apart.pmm.bitmap t = true := Raw.used_apart (h.used t ht)

/-- Page 0 is in use, too. -/
theorem zero_apart (hzero : bitmapTest r.bitmap 0 = true) :
    bitmapTest r.apart.pmm.bitmap 0 = true := by
  rw [r.test_apart, hzero, Bool.true_or]

/-- The pages of the bitmap are in use, and none of them is the kernel's PML4. -/
structure BitmapSafe (m : Machine) : Prop extends BitmapInUse m where
  kernel : ¬ m.Stores m.kernelPml4

theorem BitmapApart.safe (h : BitmapApart r) : BitmapSafe r :=
  ⟨h.toBitmapInUse, h.kernel _ (isKernelTable_self r.apart)⟩

/-- The file has been read into its buffer. -/
theorem BitmapSafe.inBuffer (h : BitmapSafe r) (hzero : bitmapTest r.bitmap 0 = true)
    (hfetched : Fetched r.apart c.machine c.phys c.size i) (hbuf : c.buf = byteAt c.machine.mem c.phys)
    (hsim : Sim {t | r.Stores t} r₁ c.machine) : InBuffer {t | r.Stores t} r₁ c i := by
  have hready := hfetched.ready (zero_apart hzero)
  have hused : ∀ x, r.Stores x → bitmapTest c.machine.pmm.bitmap x = true := by
    intro x hx
    rw [hfetched.took.bits, h.toBitmapInUse.used_apart hx, Bool.or_true]
  have hrow : ∀ j ∈ List.range' i (filePages c.size), ¬ r.Stores j :=
    fun j hj => h.toBitmapInUse.not_stores hfetched.took hj
  refine ⟨hsim, ⟨hused, ?_, ?_, ?_⟩, ?_, hfetched.addr, hfetched.bound, ?_⟩
  · exact h.toBitmapInUse.sim.zero
  · rw [hbuf]
    exact hready.buffer
  · intro k hk
    refine hrow _ (List.mem_range'_1.mpr ?_)
    have hlimit : c.limit = 4096 * filePages c.size := rfl
    have hbound := hfetched.bound
    have hbase : c.phys.toNat = i * 4096 := by rw [hfetched.addr, pageAddr_toNat (by omega)]
    rw [toNat_add_ofNat (by omega), hbase]
    omega
  · rw [hfetched.kernel]
    exact h.kernel
  · exact fun j hj => ⟨hfetched.took.highest ▸ hfetched.took.below j hj, hrow j hj⟩

/-- The ends of the two calls. -/
inductive ExecAlike (fs : Files) (filename : List UInt8) (args : Option (List UInt8)) (r : Machine) :
    ExecExit × Loader → ExecExit × Process.Loader → Prop where
  | early (exit : ExecExit) (r' : Machine) (m' : Memory.Machine)
      (hexit : ∀ map entry stack, exit ≠ .entered map entry stack)
      (hfetch : fetch fs filename r.apart = none) (sim : Sim {t | r.Stores t} r' m') :
      ExecAlike fs filename args r (exit, ⟨r', []⟩) (exit, ⟨m', []⟩)
  | elf (r₁ : Machine) (c : Context) (i : ℕ) (hcontext : contextOf fs filename r.apart = some c)
      (hfetched : Fetched r.apart c.machine c.phys c.size i)
      (hfilled : Filled fs filename r.apart c.machine c.phys) (hin : InBuffer {t | r.Stores t} r₁ c i)
      (x : ExecExit × Loader) (x' : ExecExit × Process.Loader)
      (halike : ElfAlike {t | r.Stores t} c args x x') : ExecAlike fs filename args r x x'

/-- While the pages of the bitmap are in use, a call and the same call on the machine taken apart
end alike. -/
theorem processExec_alike (h : BitmapSafe r) (hzero : bitmapTest r.bitmap 0 = true)
    (hfits : StoresFit fs filename) (args : Option (List UInt8)) :
    ExecAlike fs filename args r (processExec fs filename args r)
      (Process.processExec fs filename args r.apart) := by
  have hlt := fileSize_lt fs filename
  have hstart := h.toBitmapInUse.sim
  by_cases hsize : (fileSize fs filename).1 = 0
  · have hfetch : fetch fs filename r.apart = none := by simp only [fetch, hsize, true_or, if_true]
    simp only [processExec, Process.processExec, if_pos hsize]
    exact .early _ _ _ (by simp) hfetch hstart
  · have hcases := bufferCases (zero_apart hzero) hlt
    obtain ⟨hfst, halloc⟩ := hstart.allocPages (BitVec.ofNat 64 (filePages (fileSize fs filename).1))
    have hmem := r.apart.allocPages_mem (BitVec.ofNat 64 (filePages (fileSize fs filename).1))
    simp only [processExec, Process.processExec, if_neg hsize, hfst]
    generalize hbuf : r.apart.allocPages (BitVec.ofNat 64 (filePages (fileSize fs filename).1)) = buf
      at hcases halloc hmem ⊢
    generalize (pmmAllocPages r (BitVec.ofNat 64 (filePages (fileSize fs filename).1))).2 = r'
      at halloc ⊢
    obtain ⟨hfail, hsame⟩ | ⟨hok, i, hfetched⟩ := hcases
    · have hfetch : fetch fs filename r.apart = none := by
        simp only [fetch, hbuf, hfail, or_true, if_true]
      simp only [if_pos hfail]
      exact .early _ _ _ (by simp) hfetch halloc
    · simp only [if_neg hok]
      cases hread : readFile fs filename (fileSize fs filename).2 with
      | none =>
          have hfetch : fetch fs filename r.apart = none := by
            simp only [fetch, hread, Option.bind_none, ite_self]
          exact .early _ _ _ (by simp) hfetch halloc
      | some x =>
          obtain ⟨bytesRead, stores⟩ := x
          have hbelow := hfits bytesRead stores hread
          have hfilled : Filled fs filename r.apart
              { buf.2 with mem := storeAt buf.2.mem buf.1 stores } buf.1 :=
            ⟨bytesRead, stores, hread, congrArg (storeAt · buf.1 stores) hmem⟩
          have hsim : Sim {t | r.Stores t} { r' with mem := storeAt r'.mem buf.1 stores }
              { buf.2 with mem := storeAt buf.2.mem buf.1 stores } := by
            refine halloc.withMem ?_ fun t ht => storeAt_page (halloc.mem t ht) buf.1 stores
            intro t ht
            refine (hfetched buf.2.mem).storeAt_other r'.mem hbelow fun hrow => ?_
            exact h.toBitmapInUse.not_stores (hfetched buf.2.mem).took hrow (halloc.stores t ht)
          have hin := h.inBuffer (c := Context.of { buf.2 with mem := storeAt buf.2.mem buf.1 stores }
            buf.1 (fileSize fs filename).1) hzero (hfetched _) rfl hsim
          simp only
          by_cases hbytes : bytesRead ≤ 0
          · have hfetch : fetch fs filename r.apart = none := by
              simp only [fetch, hread, Option.bind_some, if_pos hbytes, ite_self]
            rw [if_pos hbytes, if_pos hbytes]
            have hfree := (hin.freed (D := ∅) (hsim.mono Set.subset_union_left) hsim.stores rfl).1
            rw [Set.union_empty] at hfree
            exact .early _ _ _ (by simp) hfetch hfree
          · have hcontext : contextOf fs filename r.apart = some (Context.of
                { buf.2 with mem := storeAt buf.2.mem buf.1 stores } buf.1
                (fileSize fs filename).1) := by
              simp only [contextOf, fetch, hbuf, hread, Option.bind_some, if_neg hbytes, hsize, hok,
                or_self, if_false, Option.map_some]
            rw [if_neg hbytes, if_neg hbytes]
            exact .elf _ _ i hcontext (hfetched _) hfilled hin _ _
              (execElf_alike hin ((hfetched _).ready (zero_apart hzero)) rfl args)

end LispDos.Raw
