import LispDos.Verification.Process.Loading

/-! # How the loading of a program ends

The loops over program headers and pages end in one of few ways, and each of them says
which pages were reached and what state the address space is in. -/

namespace LispDos.Process

open Memory Foundation

/-- The machine on which the file is in its buffer, the buffer, the bytes of the buffer and
the page of the new PML4. -/
structure Context where
  machine : Machine
  phys : Word
  size : ℕ
  buf : ℕ → UInt8
  root : ℕ

namespace Context

variable (c : Context)

/-- The size of the buffer. -/
def limit : ℕ := 4096 * filePages c.size

def map : Word := pageAddr c.root

/-- The pages that the headers ask for. -/
def plan : List SegPage := pagesOf (segments c.buf)

/-- The number of pages left once the PML4 has been allocated. -/
def free : ℕ := freePages c.machine - 1

/-- The pages that are mapped. -/
def reached : List SegPage := Process.reached c.free [] c.plan

/-- A table for one of them cannot be allocated. -/
def starves : Bool := Process.starves c.free [] c.plan

/-- The number of pages left when all pages of the plan are mapped. -/
def remaining : ℕ := Process.remaining c.free [] c.plan

/-- The file has passed the checks of its header. -/
structure Accepted : Prop where
  buffer : Buffer c.machine c.phys c.limit c.buf
  size_le : c.size ≤ c.limit
  size_lt : c.size < 2 ^ 32
  limit_pos : 4096 ≤ c.limit
  table : (phoff c.buf).toNat + 56 * (phnum c.buf).toNat ≤ c.size
  zero : bitmapTest c.machine.pmm.bitmap 0 = true
  root_lt : c.root < 2 ^ 40

end Context

variable {c : Context} {phys : Word} {l : Loader} {log : List Event} {done rest : List SegPage}
  {s : SegPage}

/-- The fields of the ELF header that are read, with their sizes. -/
def headerFields : List (Word × ℕ) :=
  [(0#64, 1), (1#64, 1), (2#64, 1), (3#64, 1), (32#64, 8), (56#64, 2), (24#64, 8)]

/-- The log after the pages of `done`. Field reads are those of the header, or they stay in
the file. -/
structure Logged (c : Context) (done : List SegPage) (log : List Event) : Prop where
  fields : ∀ offset n, .field offset n ∈ log →
    offset.toNat + n ≤ c.size ∨ (offset, n) ∈ headerFields
  copies : ∀ offset n, .copy offset n ∈ log ↔ ∃ s ∈ done, .copy offset n ∈ s.copyEvents
  maps : ∀ before map v, .map before map v ∈ log →
    map = c.map ∧ (∃ s ∈ done, v = s.vaddr) ∧ Guarded c.machine before c.root
  mapped : ∀ s ∈ done, ∃ before, .map before c.map s.vaddr ∈ log
  tables : c.starves = false → (∀ s ∈ done, s.astray = false) →
    ∀ before map v, .map before map v ∈ log → ∀ a ∈ mapAllocs before map v, a ≠ 0#64

theorem Logged.field {offset : Word} {n : ℕ} (h : Logged c done l.log)
    (hin : offset.toNat + n ≤ c.size ∨ (offset, n) ∈ headerFields) :
    Logged c done (l.field phys offset n).2.log := by
  simp only [Loader.field]
  refine ⟨?_, ?_, ?_, ?_, ?_⟩
  · intro offset' n' hmem
    rcases List.mem_append.mp hmem with hmem | hmem
    · exact h.fields offset' n' hmem
    · obtain ⟨rfl, rfl⟩ : offset' = offset ∧ n' = n := by simpa using hmem
      exact hin
  · intro offset' n'
    rw [← h.copies]
    simp
  · intro before map v hmem
    exact h.maps before map v (by simpa using hmem)
  · intro s hs
    obtain ⟨before, hmem⟩ := h.mapped s hs
    exact ⟨before, List.mem_append_left _ hmem⟩
  · intro hstarves hplace before map v hmem
    exact h.tables hstarves hplace before map v (by simpa using hmem)

theorem mem_copyEvents {e : Event} (h : e ∈ s.copyEvents) : ∃ offset n, e = .copy offset n := by
  cases hcopy : s.copy with
  | none =>
      rw [s.copyEvents_none hcopy] at h
      cases h
  | some c =>
      obtain ⟨start, src, size⟩ := c
      rw [s.copyEvents_some hcopy, List.mem_singleton] at h
      exact ⟨_, _, h⟩

theorem Logged.snoc (h : Logged c done l.log)
    (hguarded : Guarded c.machine l.machine c.root) (hlog : log = l.log ++ s.events c.map l)
    (htables : c.starves = false → s.astray = false →
      ∀ a ∈ mapAllocs l.machine.allocPage.2 c.map s.vaddr, a ≠ 0#64) :
    Logged c (done ++ [s]) log := by
  subst hlog
  refine ⟨?_, ?_, ?_, ?_, ?_⟩
  · intro offset n hmem
    simp only [SegPage.events, List.mem_append, List.mem_cons, reduceCtorEq, false_or] at hmem
    rcases hmem with hmem | hmem
    · exact h.fields offset n hmem
    · obtain ⟨_, _, he⟩ := mem_copyEvents hmem
      cases he
  · intro offset n
    simp only [SegPage.events, List.mem_append, List.mem_cons, reduceCtorEq, false_or, h.copies,
      or_and_right, exists_or, List.not_mem_nil, or_false, exists_eq_left]
  · intro before map v hmem
    simp only [SegPage.events, List.mem_append, List.mem_cons] at hmem
    rcases hmem with hmem | hmem | hmem
    · obtain ⟨hmap, ⟨s', hs', hv⟩, hg⟩ := h.maps before map v hmem
      exact ⟨hmap, ⟨s', List.mem_append_left _ hs', hv⟩, hg⟩
    · obtain ⟨rfl, rfl, rfl⟩ : before = l.machine.allocPage.2 ∧ map = c.map ∧ v = s.vaddr := by
        simpa using hmem
      exact ⟨rfl, ⟨s, by simp, rfl⟩, hguarded.frame, hguarded.upper⟩
    · obtain ⟨_, _, he⟩ := mem_copyEvents hmem
      cases he
  · intro s' hs'
    rcases List.mem_append.mp hs' with hs' | hs'
    · obtain ⟨before, hmem⟩ := h.mapped s' hs'
      exact ⟨before, List.mem_append_left _ hmem⟩
    · rw [List.mem_singleton.mp hs']
      exact ⟨l.machine.allocPage.2, List.mem_append_right _ (List.mem_cons_self ..)⟩
  · intro hstarves hplace before map v hmem
    simp only [SegPage.events, List.mem_append, List.mem_cons] at hmem
    rcases hmem with hmem | hmem | hmem
    · exact h.tables hstarves (fun s' hs' => hplace s' (List.mem_append_left _ hs')) before map v hmem
    · obtain ⟨rfl, rfl, rfl⟩ : before = l.machine.allocPage.2 ∧ map = c.map ∧ v = s.vaddr := by
        simpa using hmem
      exact htables hstarves (hplace s (by simp))
    · obtain ⟨_, _, he⟩ := mem_copyEvents hmem
      cases he

/-- The ways in which the loading ends, with the early return if there is one. -/
inductive Loaded (c : Context) : Option ExecExit → Loader → Prop where
  /-- A page at or above the limit of the lower half has been mapped. -/
  | high (exit : Option ExecExit) (l : Loader) (before : Machine) (v : Word)
      (hmap : .map before c.map v ∈ l.log) (hv : 2 ^ 47 ≤ v.toNat)
      (hreached : ∃ s ∈ c.reached, 2 ^ 47 ≤ s.vaddr.toNat)
      (hcopies : ∀ s ∈ c.reached, ∀ e ∈ s.copyEvents, e ∈ l.log) : Loaded c exit l
  /-- A copy does not end. -/
  | faults (l : Loader) (hlogged : Logged c c.reached l.log)
      (hfaults : ∃ s ∈ c.reached, s.faults = true) : Loaded c (some .copyFaults) l
  /-- A table could not be allocated. -/
  | starved (exit : Option ExecExit) (l : Loader) (pages S : List ℕ)
      (hexit : exit = none ∨ exit = some .noMemory ∨ exit = some .kernelSegment)
      (hstarves : c.starves = true) (hlogged : Logged c c.reached l.log)
      (before : Machine) (v : Word) (hmap : .map before c.map v ∈ l.log)
      (hzero : 0#64 ∈ mapAllocs before c.map v)
      (hstarved : Starved c.machine l.machine c.root pages S) : Loaded c exit l
  /-- Memory has run out before a page. -/
  | full (l : Loader) (pages S : List ℕ) (hstarves : c.starves = false)
      (hmore : c.reached ≠ c.plan) (hlogged : Logged c c.reached l.log) (hfull : freePages l.machine = 0)
      (hp : Progress c.buf c.limit c.machine l.machine c.root pages S c.reached) :
      Loaded c (some .noMemory) l
  /-- All pages have been mapped. -/
  | complete (l : Loader) (pages S : List ℕ) (hstarves : c.starves = false)
      (hall : c.reached = c.plan) (hleft : freePages l.machine = c.remaining)
      (hlogged : Logged c c.reached l.log)
      (hp : Progress c.buf c.limit c.machine l.machine c.root pages S c.reached) :
      Loaded c (if refused (segments c.buf) then some .kernelSegment else none) l

theorem not_high (hlow : ∀ s ∈ c.reached, s.vaddr.toNat < 2 ^ 47) :
    ¬ ∃ s ∈ c.reached, 2 ^ 47 ≤ s.vaddr.toNat := by
  rintro ⟨s, hs, hhigh⟩
  exact absurd (hlow s hs) (Nat.not_lt.mpr hhigh)

theorem not_faults (hfit : ∀ s ∈ c.reached, s.faults = false) :
    ¬ ∃ s ∈ c.reached, s.faults = true := by
  rintro ⟨s, hs, hfault⟩
  rw [hfit s hs] at hfault
  cases hfault

/-! ## The invariant of the loops -/

/-- The pages of `rest` are still to be loaded. -/
inductive Loading (c : Context) (rest : List SegPage) (l : Loader) : Prop where
  | going (done : List SegPage) (pages S : List ℕ) (hsplit : c.plan = done ++ rest)
      (hlogged : Logged c done l.log)
      (hp : Progress c.buf c.limit c.machine l.machine c.root pages S done)
      (hreached : reached (freePages l.machine) done rest = c.reached)
      (hstarves : starves (freePages l.machine) done rest = c.starves)
      (hleft : remaining (freePages l.machine) done rest = c.remaining)
  | starved (pages S : List ℕ) (hlogged : Logged c c.reached l.log) (hstarves : c.starves = true)
      (before : Machine) (v : Word) (hmap : .map before c.map v ∈ l.log)
      (hzero : 0#64 ∈ mapAllocs before c.map v)
      (hstarved : Starved c.machine l.machine c.root pages S)

/-- A page at or above the limit of the lower half has been mapped. -/
structure Strayed (c : Context) (l : Loader) : Prop where
  map : ∃ before v, .map before c.map v ∈ l.log ∧ 2 ^ 47 ≤ v.toNat
  reached : ∃ s ∈ c.reached, 2 ^ 47 ≤ s.vaddr.toNat
  copies : ∀ s ∈ c.reached, ∀ e ∈ s.copyEvents, e ∈ l.log

theorem Strayed.mono {l' : Loader} (h : Strayed c l) (hlog : ∀ e ∈ l.log, e ∈ l'.log) :
    Strayed c l' := by
  obtain ⟨⟨before, v, hmap, hv⟩, hreached, hcopies⟩ := h
  exact ⟨⟨before, v, hlog _ hmap, hv⟩, hreached, fun s hs e he => hlog e (hcopies s hs e he)⟩

theorem Strayed.loaded (h : Strayed c l) (exit : Option ExecExit) : Loaded c exit l := by
  obtain ⟨⟨before, v, hmap, hv⟩, hreached, hcopies⟩ := h
  exact .high exit l before v hmap hv hreached hcopies

/-- A round only adds to the log. -/
theorem loadPage_log (phys map : Word) (seg : Segment) (j : ℕ) (l : Loader) :
    (loadPage phys map seg j l).Yields (fun l' => ∀ e ∈ l.log, e ∈ l'.log)
      (fun _ l' => ∀ e ∈ l.log, e ∈ l'.log) := by
  simp only [loadPage]
  split
  · exact fun e he => he
  · split
    · exact fun e he => List.mem_append_left _ he
    · split
      · exact fun e he => List.mem_append_left _ (List.mem_append_left _ he)
      · exact fun e he => List.mem_append_left _ (List.mem_append_left _ he)

/-- The log of a round for which a page could be allocated. -/
theorem loadPage_events (hzero : bitmapTest l.machine.pmm.bitmap 0 = true)
    (hpos : 0 < freePages l.machine) (phys map : Word) (s : SegPage) :
    (loadPage phys map s.seg s.index l).Yields (fun l' => l'.log = l.log ++ s.events map l)
      (fun exit l' => exit = .copyFaults ∧ l'.log = l.log ++ s.events map l) := by
  obtain ⟨_, _, hfull⟩ | ⟨n, _, hn, halloc, hok, _, _⟩ := l.machine.allocPage_cases hzero
  · omega
  · rw [loadPage_eq phys map s hn halloc hok]
    cases s.faults with
    | true => exact ⟨rfl, rfl⟩
    | false => exact rfl

theorem Context.map_div (hc : c.Accepted) : c.map.toNat / 4096 = c.root :=
  pageAddr_div (hc.root_lt.trans (by decide))

/-! ## Rounds -/

/-- A page outside of the lower half. -/
theorem Loading.round_high {pages S : List ℕ} (hlow : 2 ^ 47 ≤ s.vaddr.toNat)
    (hpos : 0 < freePages l.machine) (hlogged : Logged c done l.log)
    (hp : Progress c.buf c.limit c.machine l.machine c.root pages S done)
    (hreached : reached (freePages l.machine) done (s :: rest) = c.reached) :
    (loadPage c.phys c.map s.seg s.index l).Yields (Strayed c)
      (fun exit l => Loaded c (some exit) l) := by
  have hastray : s.astray = true := by
    simp only [SegPage.astray, hlow, decide_true, Bool.or_true]
  rw [reached_astray hpos hastray] at hreached
  have hstrayed : ∀ l' : Loader, l'.log = l.log ++ s.events c.map l → Strayed c l' := by
    intro l' hlog
    have hlogged' := hlogged.snoc hp.half.guarded hlog
      (fun _ hplace => by rw [hastray] at hplace; cases hplace)
    rw [hreached] at hlogged'
    refine ⟨⟨l.machine.allocPage.2, s.vaddr, ?_, hlow⟩, ⟨s, by simp [← hreached], hlow⟩, ?_⟩
    · rw [hlog]
      simp [SegPage.events]
    · intro s' hs' e he
      obtain ⟨offset, n, rfl⟩ := mem_copyEvents he
      exact (hlogged'.copies offset n).mpr ⟨s', hs', he⟩
  refine (loadPage_events hp.half.zero_used hpos c.phys c.map s).imp hstrayed ?_
  rintro exit l' ⟨_, hlog⟩
  exact (hstrayed l' hlog).loaded _

/-- Every round of the loops keeps the invariant or ends the loading. -/
theorem Loading.round (hc : c.Accepted) (h : Loading c (s :: rest) l) :
    (loadPage c.phys c.map s.seg s.index l).Yields (fun l => Loading c rest l ∨ Strayed c l)
      (fun exit l => Loaded c (some exit) l) := by
  cases h with
  | going done pages S hsplit hlogged hp hreached hstarves hleft =>
      by_cases hlow : s.vaddr.toNat < 2 ^ 47
      · have hcase := hp.loadPage_case hc.buffer (Context.map_div hc) hlow
        generalize loadPage c.phys c.map s.seg s.index l = step at hcase ⊢
        cases hcase with
        | full hfull =>
            rw [reached_full hfull] at hreached
            rw [starves_full hfull] at hstarves
            subst hreached
            exact .full _ pages S hstarves.symm (by simp [hsplit]) hlogged hfull hp
        | faults l' hpos hfaults hlog =>
            have hastray : s.astray = true := by simp [SegPage.astray, hfaults]
            rw [reached_astray hpos hastray] at hreached
            have hlogged' := hlogged.snoc hp.half.guarded hlog
              (fun _ hplace => by rw [hastray] at hplace; cases hplace)
            rw [hreached] at hlogged'
            exact .faults l' hlogged' ⟨s, by simp [← hreached], hfaults⟩
        | mapped l' pages' S' hfaults hlog hallocs hfree hp' =>
            obtain ⟨hr, hs⟩ := reached_next
              (SegPage.astray_eq_false.mpr ⟨hfaults, hlow⟩) (by omega :
                1 + tablesFor (done.map SegPage.number) s.number ≤ freePages l.machine)
            have hrest : freePages l.machine - 1 -
                tablesFor (done.map SegPage.number) s.number = freePages l'.machine := by omega
            rw [hr, hrest] at hreached
            rw [hs, hrest] at hstarves
            rw [remaining, hrest] at hleft
            exact .inl (.going _ pages' S' (by simp [hsplit])
              (hlogged.snoc hp.half.guarded hlog (fun _ _ => hallocs)) hp' hreached hstarves hleft)
        | starved l' pages' S' hpos hfaults hlog halloc hshort hstarved =>
            obtain ⟨hr, hs⟩ := reached_short
              (SegPage.astray_eq_false.mpr ⟨hfaults, hlow⟩) hpos hshort
            have hlogged' := hlogged.snoc hp.half.guarded hlog
              (fun hnot _ => by rw [hstarves.symm.trans hs] at hnot; cases hnot)
            rw [← hr, hreached] at hlogged'
            refine .inl (.starved pages' S' hlogged' (hstarves.symm.trans hs)
              l.machine.allocPage.2 s.vaddr ?_ halloc hstarved)
            rw [hlog]
            simp [SegPage.events]
      · by_cases hpos : 0 < freePages l.machine
        · exact (Loading.round_high (by omega) hpos hlogged hp hreached).imp
            (fun _ h => .inr h) (fun _ _ h => h)
        · have hfull : freePages l.machine = 0 := by omega
          rw [loadPage_full hp.half.zero_used hfull]
          rw [reached_full hfull] at hreached
          rw [starves_full hfull] at hstarves
          subst hreached
          exact .full _ pages S hstarves.symm (by simp [hsplit]) hlogged hfull hp
  | starved pages S hlogged hstarves before v hmap hzero hstarved =>
      rw [loadPage_full hstarved.zero_used hstarved.full]
      exact .starved _ l pages S (.inr (.inl rfl)) hstarves hlogged before v hmap hzero hstarved

theorem Loading.field (h : Loading c rest l) (phys : Word) {offset : Word} {n : ℕ}
    (hin : offset.toNat + n ≤ c.size ∨ (offset, n) ∈ headerFields) :
    Loading c rest (l.field phys offset n).2 := by
  cases h with
  | going done pages S hsplit hlogged hp hreached hstarves hleft =>
      exact .going done pages S hsplit (hlogged.field hin) hp hreached hstarves hleft
  | starved pages S hlogged hstarves before v hmap hzero hstarved =>
      exact .starved pages S (hlogged.field hin) hstarves before v
        (List.mem_append_left _ hmap) hzero hstarved

theorem Loading.guarded (h : Loading c rest l) : Guarded c.machine l.machine c.root := by
  cases h with
  | going done pages S hsplit hlogged hp hreached hstarves hleft => exact hp.half.guarded
  | starved pages S hlogged hstarves before v hmap hzero hstarved => exact hstarved.guarded

/-- No page is left to load. -/
theorem Loading.finish (h : Loading c [] l) :
    Loaded c (if refused (segments c.buf) then some .kernelSegment else none) l := by
  cases h with
  | going done pages S hsplit hlogged hp hreached hstarves hleft =>
      rw [List.append_nil] at hsplit
      have hdone : done = c.reached := hreached
      rw [hdone] at hsplit hlogged hp
      exact .complete l pages S hstarves.symm hsplit.symm hleft hlogged hp
  | starved pages S hlogged hstarves before v hmap hzero hstarved =>
      refine .starved _ l pages S ?_ hstarves hlogged before v hmap hzero hstarved
      split
      · exact .inr (.inr rfl)
      · exact .inl rfl

/-- The loops end in one of the ways listed. -/
theorem loadHeaders_loaded (hc : c.Accepted) (h : Loading c c.plan l) :
    (loadHeaders c.phys c.map (phoff c.buf) 65536 0 l).Yields (Loaded c none)
      (fun exit l => Loaded c (some exit) l) := by
  have hJpage : ∀ seg j l, Strayed c l → (loadPage c.phys c.map seg j l).Yields (Strayed c)
      (fun exit l => Loaded c (some exit) l) := fun seg j l hs =>
    (loadPage_log c.phys c.map seg j l).imp (fun _ hlog => hs.mono hlog)
      (fun exit _ hlog => (hs.mono hlog).loaded (some exit))
  have hyields := loadHeaders_yields (I := Loading c) (J := Strayed c) hJpage
    (fun s rest l h => h.round hc)
    (fun rest l h => hc.buffer.bytes_of_frame h.guarded.frame)
    (fun rest l offset n h hin => h.field c.phys (hin.imp_right (by
      rintro ⟨rfl, rfl⟩
      decide)))
    hc.size_le (hc.size_lt.trans (by decide)) ((by decide : 58 ≤ 4096).trans hc.limit_pos) hc.table
    (fun l offset n hs => hs.mono (fun e he => List.mem_append_left _ he))
    (fun l hs => hs.loaded _)
    (fun l hrefused h => by
      have hend := h.finish
      rwa [hrefused, if_pos rfl] at hend) h
  refine hyields.imp ?_ (fun _ _ h => h)
  rintro l (⟨hrefused, h⟩ | hs)
  · have hend := h.finish
    rwa [hrefused] at hend
  · exact hs.loaded none

/-- The loops start on a new address space. -/
theorem Loading.start (hzero : bitmapTest c.machine.pmm.bitmap 0 = true)
    (hok : (vmmNewPagemap c.machine).1 ≠ 0#64) (hmap : (vmmNewPagemap c.machine).1 = c.map)
    (hroot : c.root < 2 ^ 40) (hlogged : Logged c [] log) :
    Loading c c.plan ⟨(vmmNewPagemap c.machine).2, log⟩ := by
  obtain ⟨n, _, hn, haddr, hhalf, hempty, hleft⟩ := Half.new hzero hok
  obtain rfl : n = c.root :=
    pageAddr_injOn (hn.trans (by decide)) (hroot.trans (by decide)) (haddr.symm.trans hmap)
  have hfree : freePages (vmmNewPagemap c.machine).2 = c.free := by
    rw [Context.free]
    omega
  refine .going [] [c.root] [c.root] rfl hlogged ⟨⟨hhalf, by simp, ?_, ?_, by simp⟩, ?_⟩
    (by rw [hfree]; rfl) (by rw [hfree]; rfl) (by rw [hfree]; rfl)
  · intro q hq hne
    rw [hempty q (hq.of_le (hq.1.1.trans (by decide))) hne]
    simp
  · intro v hv
    rw [hempty _ (lowerPath_indices hv) (by simp [indices])]
    simp
  · intro _ v x s hv hx
    rw [hempty _ (lowerPath_indices hv) (by simp [indices])] at hx
    cases hx

end LispDos.Process
