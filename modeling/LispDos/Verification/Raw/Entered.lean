import LispDos.Verification.Process.SharedPages
import LispDos.Verification.Raw.Cleanup

/-! # Programs that are entered beside the bitmap

When a call enters user mode, the machine with one memory and the one that is taken apart have the
same tables below the limit of the lower half. What user mode finds on the one it finds on the
other, unless a page was filled from outside of its file. -/

namespace LispDos.Raw

open Foundation Memory Process

variable {H D : Set ℕ} {r r' : Machine} {m m' m₁ : Memory.Machine} {c : Context} {n root limit : ℕ}
  {pages S pages' S' : List ℕ} {phys v : Word} {buf : ℕ → UInt8} {l' : Process.Loader}
  {done : List SegPage} {fs : Files} {filename file : List UInt8} {args : Option (List UInt8)}
  {x : ExecExit × Loader} {x' : ExecExit × Process.Loader}

/-- The page that is handed out next does not differ. -/
theorem Going.next_apart (h : Going H m₁ root pages S D r m) (hground : Ground H m₁ phys limit buf)
    (hok : m.allocPage.1 ≠ 0#64) (haddr : m.allocPage.1 = pageAddr n) (hn : n < 2 ^ 40) :
    n ∉ H ∪ D := by
  obtain ⟨hfail, _⟩ | ⟨i, _, hi, halloc, _, takes, _⟩ := m.allocPage_cases h.half.zero_used
  · exact (hok hfail).elim
  have hdiv : n = i := by
    rw [← pageAddr_div (hn.trans (by decide)), ← haddr, halloc, pageAddr_div (hi.trans (by decide))]
  subst hdiv
  intro hin
  exact (h.bad hground n hin).2 (takes.clear (Finset.mem_singleton_self n))

/-- The tables of an address space in which no table is missing do not differ. -/
theorem Rounded.table_apart (h : Rounded H m₁ root D r m) (hground : Ground H m₁ phys limit buf)
    (hhalf : Half m₁ m' root pages S) (hmem : m'.mem = m.mem) {q : List ℕ} {t : ℕ}
    (hq : LowerPath 3 q) (ht : descend codeNext m'.mem root q = some t) : t ∉ H ∪ D := by
  cases h with
  | going pages' S' going => exact going.table hground hq (hmem ▸ ht)
  | stuck pages' S' stuck =>
      obtain ⟨p, hp, _, hzero⟩ := stuck.starved.leads m.mem fun _ _ => rfl
      rw [← hmem] at hzero
      exact (hhalf.ne_zero hp hzero rfl).elim

/-- A program has been entered on both machines, after its pages have been loaded on `l'`. -/
structure Entry (r : Machine) (fs : Files) (filename : List UInt8) (args : Option (List UInt8))
    (c : Context) (l' : Process.Loader) (D : Set ℕ) (x : ExecExit × Loader)
    (x' : ExecExit × Process.Loader) : Prop where
  context : contextOf fs filename r.apart = some c
  header : HeaderAccepted c.buf c.size
  accepted : c.Accepted
  read : ∃ i r₁, Fetched r.apart c.machine c.phys c.size i ∧
    Filled fs filename r.apart c.machine c.phys ∧ InBuffer {t | r.Stores t} r₁ c i
  going : ∃ r₂ pages S, Going {t | r.Stores t} c.machine c.root pages S D r₂ l'.machine
  page : l'.machine.allocPage.1 ≠ 0#64
  loaded : Loaded c none l'
  clean : CopiesIn c.limit l'.log → D = ∅
  jumped : Jumped {t | r.Stores t} c args D x x'
  call : x' = Process.enter c.phys (filePages c.size) c.map args l'

theorem ExecAlike.entry (h : ExecAlike fs filename args r x x') (hargs : ArgsFit args)
    (hlow : ∀ before map v, .map before map v ∈ x'.2.log → v.toNat < 2 ^ 47) {map entry stack : Word}
    (hexit : x.1 = .entered map entry stack) : ∃ c l' D, Entry r fs filename args c l' D x x' := by
  cases h with
  | early exit r' m' hne hfetch sim => exact (hne map entry stack hexit).elim
  | elf r₁ c i hcontext hfetched hfilled hin x x' halike =>
      cases halike with
      | returned exit l l' D hne logs sim dirty => exact (hne map entry stack hexit).elim
      | torn exit l l' hne hheader hstarves logs => exact (hne map entry stack hexit).elim
      | faults l l' hheader hloaded logs => cases hexit
      | strayed x x' h h' =>
          obtain ⟨before, map, v, hmap, hv⟩ := h'
          exact absurd (hlow before map v hmap) (by omega)
      | entered l l' pages S D hheader hc going hok hloaded logs clean =>
          exact ⟨c, l', D, hcontext, hheader, hc, ⟨i, r₁, hfetched, hfilled, hin⟩,
            ⟨l.machine, pages, S, going⟩, hok, hloaded, clean, going.jumped hin hc hargs hok logs, rfl⟩

section Entry

variable (h : Entry r fs filename args c l' D x x')

include h

theorem Entry.ground : Ground {t | r.Stores t} c.machine c.phys c.limit c.buf := by
  obtain ⟨_, _, _, _, hin⟩ := h.read
  exact hin.ground

/-- On the machine that is taken apart the pages of the file have been loaded. -/
theorem Entry.progress (hlow : ∀ s ∈ c.reached, s.vaddr.toNat < 2 ^ 47) :
    freePages l'.machine = c.remaining ∧
      ∃ pages S, Progress c.buf c.limit c.machine l'.machine c.root pages S c.reached := by
  have hstack : (Process.enter c.phys (filePages c.size) c.map args l').1 ≠ .noStack := by
    rw [← h.call, h.jumped.exit']
    simp
  exact h.loaded.progress hlow hstack

/-- Memory at the end, as far as the machines do not differ. -/
theorem Entry.mem (hcall : x'.2.machine = Process.freeFile c.phys (filePages c.size) m') {t : ℕ}
    (ht : t ∉ {t | r.Stores t} ∪ D) : x.2.machine.mem t = m'.mem t := by
  rw [h.jumped.sim.mem t ht, hcall, freeFile_mem]

/-- No table of the address space is one of the pages that differ. -/
theorem Entry.table_apart (hcall : x'.2.machine = Process.freeFile c.phys (filePages c.size) m')
    (hhalf : Half c.machine m' c.root pages S) {q : List ℕ} {t : ℕ} (hq : LowerPath 3 q)
    (ht : descend codeNext m'.mem c.root q = some t) : t ∉ {t | r.Stores t} ∪ D := by
  obtain ⟨_, m₂, hrounded, _, hmachine⟩ := h.jumped.rounded
  refine hrounded.table_apart h.ground hhalf ?_ hq ht
  rw [← freeFile_mem c.phys (filePages c.size) m', ← hcall, hmachine, freeFile_mem]

/-- The tables of the address space are those of the machine that is taken apart. -/
theorem Entry.sameTables (hcall : x'.2.machine = Process.freeFile c.phys (filePages c.size) m')
    (hhalf : Half c.machine m' c.root pages S) : SameTables m' x.2.machine.mem c.root :=
  fun _ _ hq ht => h.mem hcall (h.table_apart hcall hhalf hq ht)

theorem Entry.page_apart (haddr : l'.machine.allocPage.1 = pageAddr n) (hn : n < 2 ^ 40) :
    n ∉ {t | r.Stores t} ∪ D := by
  obtain ⟨_, _, _, going⟩ := h.going
  exact going.next_apart h.ground h.page haddr hn

/-- If no page was filled from outside of the buffer, user mode finds the same bytes. -/
theorem Entry.userByte_eq (hcall : x'.2.machine = Process.freeFile c.phys (filePages c.size) m')
    (hhalf : Half c.machine m' c.root pages S) (hclean : D = ∅) (hv : v.toNat < 2 ^ 47) :
    userByte x.2.machine.mem c.root v = userByte m'.mem c.root v := by
  refine hhalf.userByte_same (h.sameTables hcall hhalf) hv fun y hy => h.mem hcall ?_
  rw [hclean, Set.union_empty]
  exact h.ground.not_mem hhalf.took (hhalf.mem_pages (lowerPath_indices hv) hy)

end Entry

end LispDos.Raw
