import LispDos.Verification.Memory.Sessions

/-! # The lower half while a program is loaded

What `vmm_map_page` does to an address space that has been built so far, whether or not
memory runs out, and whether or not the page is mapped already. -/

namespace LispDos.Memory

open Foundation

variable {m m' m₁ : Machine} {mem : PhysMem} {root t i n : ℕ} {p pages S : List ℕ}
  {map v : Word}

/-! ## Allocation with page 0 in use -/

/-- The number of pages that can still be allocated. -/
def freePages (m : Machine) : ℕ := (clearPages m.pmm.bitmap m.pmm.highestPage).card

theorem findPage_none {p : Pmm} (h : findPage p = none) :
    clearPages p.bitmap p.highestPage = ∅ := by
  rw [findPage, Option.or_eq_none_iff, List.find?_eq_none, List.find?_eq_none] at h
  obtain ⟨hfrom, hbefore⟩ := h
  apply Finset.eq_empty_of_forall_notMem
  intro i hi
  obtain ⟨hlt, hclear⟩ := mem_clearPages.mp hi
  by_cases hcur : i < p.lastAllocatedIndex
  · exact hbefore i (List.mem_range.mpr hcur) (by simp [hclear])
  · exact hfrom i (List.mem_range'_1.mpr ⟨by omega, by omega⟩) (by simp [hclear])

theorem freePages_take {m m' : Machine} {n : ℕ} (takes : Takes m.pmm m'.pmm {n}) :
    freePages m' + 1 = freePages m := by
  have hcard := card_clearPages_take takes.bits takes.clear
  rw [Finset.card_singleton] at hcard
  rw [freePages, freePages, takes.highest, hcard]

/-- With page 0 in use an allocation fails without effect, when no page is left, or takes
another page. -/
theorem Machine.allocPage_cases (m : Machine) (hzero : bitmapTest m.pmm.bitmap 0 = true) :
    (m.allocPage.1 = 0#64 ∧ m.allocPage.2 = m ∧ freePages m = 0) ∨
      (∃ n, 0 < n ∧ n < 2 ^ 40 ∧ m.allocPage.1 = pageAddr n ∧ m.allocPage.1 ≠ 0#64 ∧
        Takes m.pmm m.allocPage.2.pmm {n} ∧ freePages m.allocPage.2 + 1 = freePages m) := by
  by_cases hok : m.allocPage.1 = 0#64
  · left
    have hnone : findPage m.pmm = none := by
      cases hfind : findPage m.pmm with
      | none => rfl
      | some k =>
          obtain ⟨hlt, hclear⟩ := mem_clearPages.mp (findPage_some m.cursor hfind)
          have haddr : pageAddr k = 0#64 := by
            simpa only [Machine.allocPage, pmmAllocPage, hfind] using hok
          have hdiv := pageAddr_div (hlt.trans m.pmm.highest_lt)
          have hk : k = 0 := by
            rw [haddr] at hdiv
            exact hdiv.symm
          rw [hk, hzero] at hclear
          cases hclear
    refine ⟨hok, ?_, ?_⟩
    · have hpmm : (pmmAllocPage m.pmm).2 = m.pmm := by
        simp only [pmmAllocPage, hnone]
      cases m
      simp only [Machine.allocPage] at hpmm ⊢
      congr
    · rw [freePages, findPage_none hnone, Finset.card_empty]
  · right
    obtain ⟨n, hn, haddr, takes⟩ := m.allocPage_some hok
    refine ⟨n, Nat.pos_of_ne_zero ?_, hn, haddr, hok, takes, freePages_take takes⟩
    rintro rfl
    exact hok haddr

/-! ## The invariant -/

/-- The lower half of an address space that was started on the machine `m₁`: the pages
taken since, of which `S` are reached, entries as `vmm_map_page` makes them, and no other
page has changed. The upper half is the kernel's. -/
structure Half (m₁ m : Machine) (root : ℕ) (pages S : List ℕ) : Prop where
  zero : bitmapTest m₁.pmm.bitmap 0 = true
  took : Took m₁.pmm m.pmm pages
  sub : ∀ x ∈ S, x ∈ pages
  tree : Tree m.mem root S
  entries : ∀ p t i, LowerPath 4 (p ++ [i]) → descend codeNext m.mem root p = some t →
    present (m.mem t i) = true → ∃ n < 2 ^ 40, m.mem t i = tableEntry n
  frame : ∀ t, t ∉ pages → t ≠ 0 → m.mem t = m₁.mem t
  upper : bitmapTest m₁.pmm.bitmap m₁.kernelPml4 = true →
    ∀ i, 256 ≤ i → i < 512 → m.mem root i = m₁.mem m₁.kernelPml4 i
  kernel : m.kernelPml4 = m₁.kernelPml4

theorem Half.zero_used (h : Half m₁ m root pages S) : bitmapTest m.pmm.bitmap 0 = true := by
  rw [h.took.bits, h.zero, Bool.or_true]

/-- A page of the tree was free when the address space was started. -/
theorem Half.not_used (h : Half m₁ m root pages S) {q : List ℕ} (hq : LowerPath 4 q)
    (hs : descend codeNext m.mem root q = some t) : bitmapTest m₁.pmm.bitmap t = false :=
  h.took.clear t (h.sub t ((h.tree.reach t).mp ⟨q, hq, hs⟩))

theorem Half.root_mem (h : Half m₁ m root pages S) : root ∈ S :=
  (h.tree.reach root).mp ⟨[], lowerPath_nil 4, rfl⟩

theorem Half.mem_pages (h : Half m₁ m root pages S) {q : List ℕ} (hq : LowerPath 4 q)
    (hs : descend codeNext m.mem root q = some t) : t ∈ pages :=
  h.sub t ((h.tree.reach t).mp ⟨q, hq, hs⟩)

theorem ne_of_used {x y : ℕ} (hx : bitmapTest m₁.pmm.bitmap x = true)
    (hy : bitmapTest m₁.pmm.bitmap y = false) : x ≠ y := by
  rintro rfl
  rw [hx] at hy
  cases hy

/-- What was in use before has not changed. -/
theorem Half.frame_used (h : Half m₁ m root pages S) {s : ℕ}
    (hs : bitmapTest m₁.pmm.bitmap s = true) (hs0 : s ≠ 0) : m.mem s = m₁.mem s :=
  h.frame s (fun hin => ne_of_used hs (h.took.clear s hin) rfl) hs0

/-- A page of the tree is neither page 0 nor one in use before. -/
theorem Half.ne_zero (h : Half m₁ m root pages S) {q : List ℕ} (hq : LowerPath 4 q)
    (hs : descend codeNext m.mem root q = some t) : t ≠ 0 := by
  rintro rfl
  exact ne_of_used h.zero (h.not_used hq hs) rfl

/-- The machine after one level of `vmm_map_page` whose table is there or could be
allocated. -/
structure Extends (m₁ m m' : Machine) (root : ℕ) (pages S p : List ℕ) (i t table : ℕ)
    (new : List ℕ) : Prop where
  half : Half m₁ m' root (pages ++ new) (S ++ new)
  paths : ∀ q, LowerPath 4 q → descend codeNext m'.mem root q =
    if q = p ++ [i] then some table else descend codeNext m.mem root q
  same : ∀ s, s ∉ new → s ≠ t → m'.mem s = m.mem s
  origin : new = [] ∧ descend codeNext m.mem root (p ++ [i]) = some table ∨
    new = [table] ∧ descend codeNext m.mem root (p ++ [i]) = none
  left : freePages m' + new.length = freePages m

/-- The machine after a level whose table could not be allocated: page 0 is cleared and
entered as the table. -/
structure Fails (m m' : Machine) (t i : ℕ) : Prop where
  full : freePages m = 0
  pmm : m'.pmm = m.pmm
  kernel : m'.kernelPml4 = m.kernelPml4
  mem : m'.mem = writeWord (clearTable m.mem 0) t i (tableEntry 0)

theorem openTable_kernelPml4 (m : Machine) (t i : ℕ) :
    (openTable m t i).2.kernelPml4 = m.kernelPml4 := by
  simp only [openTable]
  split <;> rfl

theorem Half.openLevel (h : Half m₁ m root pages S) (hpath : LowerPath 4 (p ++ [i]))
    (hlen : p.length < 3) (hreach : descend codeNext m.mem root p = some t) :
    (∃ new : List ℕ, openAllocs m t i = new.map pageAddr ∧ (∀ a ∈ openAllocs m t i, a ≠ 0#64) ∧
      Extends m₁ m (openTable m t i).2 root pages S p i t (openTable m t i).1 new) ∨
    (openAllocs m t i = [0#64] ∧ (openTable m t i).1 = 0 ∧
      descend codeNext m.mem root (p ++ [i]) = none ∧ Fails m (openTable m t i).2 t i) := by
  have hp := LowerPath.init p i hpath
  by_cases hpres : present (m.mem t i) = true
  · left
    have hnext : descend codeNext m.mem root (p ++ [i]) = some (tableOf (m.mem t i)) := by
      rw [descend_snoc, hreach, Option.bind_some, codeNext, if_pos hpres]
    refine ⟨[], by simp [openAllocs, hpres], by simp [openAllocs, hpres], ?_⟩
    rw [openTable_of_present hpres]
    refine ⟨by simpa using h, ?_, fun _ _ _ => rfl, .inl ⟨rfl, hnext⟩, rfl⟩
    intro q hq
    split
    · rename_i heq
      rw [heq, hnext]
    · rfl
  · have hmissing : present (m.mem t i) = false := by simpa using hpres
    have hallocs : openAllocs m t i = [m.allocPage.1] := by simp [openAllocs, hmissing]
    obtain ⟨hfail, hsame, hfull⟩ | ⟨n, _, hn, halloc, hok, takes, hleft⟩ :=
      m.allocPage_cases h.zero_used
    · right
      have hzero : m.allocPage.1 = pageAddr 0 := hfail
      obtain ⟨hfst, hpmm, hmem⟩ := openTable_of_missing hmissing (by decide) hzero
      refine ⟨by rw [hallocs, hfail], hfst, ?_, hfull, ?_, openTable_kernelPml4 m t i, hmem⟩
      · rw [descend_snoc, hreach, Option.bind_some, codeNext_of_not_present hmissing]
      · rw [hpmm, hsame]
    · left
      refine ⟨[n], by rw [hallocs, halloc]; rfl, by rw [hallocs]; simpa using hok, ?_⟩
      obtain ⟨hfst, hpmm, hmem⟩ := openTable_of_missing hmissing hn halloc
      obtain ⟨hnot, htook⟩ := h.took.snoc takes
      have hfresh : ∀ q, LowerPath 4 q → descend codeNext m.mem root q ≠ some n :=
        fun q hq hs => hnot (h.sub n ((h.tree.reach n).mp ⟨q, hq, hs⟩))
      have hatt := attached_table (fun _ => codeNext_of_not_present)
        (codeNext_tableEntry (hn.trans (by decide))) hp hreach hmissing hfresh
      obtain ⟨htree, hdescend⟩ := h.tree.attach hpath hatt
      have hclear : bitmapTest m₁.pmm.bitmap n = false := htook.clear n (by simp)
      have hnt : n ≠ t := by
        rintro rfl
        exact hfresh p hp hreach
      have hother : ∀ s j, s ≠ n → ¬ (s = t ∧ j = i) →
          (openTable m t i).2.mem s j = m.mem s j := by
        intro s j hsn hst
        rw [hmem, writeWord_apply, if_neg hst, clearTable_apply, if_neg hsn]
      rw [hfst]
      refine ⟨⟨h.zero, ?_, ?_, ?_, ?_, ?_, ?_, ?_⟩, ?_, ?_, .inr ⟨rfl, ?_⟩, ?_⟩
      · rw [hpmm]
        exact htook
      · intro x hx
        rw [List.mem_append] at hx ⊢
        exact hx.imp_left (h.sub x)
      · rw [hmem]
        exact htree
      · intro q s j hq hs hpres'
        rw [hmem, hdescend (LowerPath.init q j hq)] at hs
        split at hs
        · obtain rfl := Option.some_inj.mp hs
          rw [hmem, writeWord_clearTable _ _ _ hnt, not_present_zero] at hpres'
          cases hpres'
        · have hsn : s ≠ n := by
            rintro rfl
            exact hfresh q (LowerPath.init q j hq) hs
          by_cases hst : s = t ∧ j = i
          · exact ⟨n, hn, by rw [hmem, writeWord_apply, if_pos hst]⟩
          · rw [hother s j hsn hst] at hpres' ⊢
            exact h.entries q s j hq hs hpres'
      · intro s hs hs0
        rw [List.mem_append, not_or, List.mem_singleton] at hs
        have hst : s ≠ t := by
          rintro rfl
          exact hs.1 (h.mem_pages hp hreach)
        rw [← h.frame s hs.1 hs0]
        funext j
        exact hother s j hs.2 (fun hboth => hst hboth.1)
      · intro hk j hj hj'
        rw [← h.upper hk j hj hj']
        refine hother root j ?_ ?_
        · rintro rfl
          exact hfresh [] (lowerPath_nil 4) rfl
        · rintro ⟨rfl, rfl⟩
          -- only the PML4 itself has the root's number, and its index is below 256
          obtain rfl := h.tree.unshared p [] root hp (lowerPath_nil 4) hreach rfl
          exact absurd (hpath.2 j (by simp)) (by omega)
      · rw [openTable_kernelPml4, h.kernel]
      · intro q hq
        rw [hmem]
        exact hdescend hq
      · intro s hsn hst
        funext j
        exact hother s j (by simpa using hsn) (fun hboth => hst hboth.1)
      · rw [descend_snoc, hreach, Option.bind_some, codeNext_of_not_present hmissing]
      · rw [freePages, hpmm]
        exact hleft

/-! ## The leaf -/

theorem LowerPath.of_le {d e : ℕ} {q : List ℕ} (h : LowerPath d q) (hle : q.length ≤ e) :
    LowerPath e q := ⟨⟨hle, h.1.2⟩, h.2⟩

section Leaf

variable (h : Half m₁ m root pages S) (hpath : LowerPath 4 (p ++ [i])) (hlen : p.length = 3)
  (hreach : descend codeNext m.mem root p = some t) (hn : n < 2 ^ 40)

include h hpath hlen hreach hn

/-- A store into an entry of the last level changes one path, whether or not the entry was
present before. -/
theorem Half.leaf_paths {q : List ℕ} (hq : LowerPath 4 q) :
    descend codeNext (writeWord m.mem t i (tableEntry n)) root q =
      if q = p ++ [i] then some n else descend codeNext m.mem root q := by
  have hp := LowerPath.init p i hpath
  have hbelow : ∀ r, LowerPath 3 r →
      descend codeNext (writeWord m.mem t i (tableEntry n)) root r =
        descend codeNext m.mem root r := by
    intro r hr
    refine descend_congr LowerPath.init ?_ hr
    intro q j s hq hs
    have hst : s ≠ t := by
      rintro rfl
      have hq4 : LowerPath 4 q := (LowerPath.init q j hq).of_le (by have := hq.1.1; simp at this; omega)
      obtain rfl := h.tree.unshared p q s hp hq4 hreach hs
      have := hq.1.1
      simp at this
      omega
    rw [writeWord_apply, if_neg (fun hboth => hst hboth.1)]
  induction q using List.reverseRecOn with
  | nil => rw [if_neg (by simp), descend, descend]
  | append_singleton r j _ =>
      have hlenr : r.length ≤ 3 := by
        have := hq.1.1
        simp at this
        omega
      have hr := LowerPath.init r j hq
      rw [descend_snoc, descend_snoc, hbelow r (hr.of_le hlenr)]
      by_cases heq : r ++ [j] = p ++ [i]
      · obtain ⟨rfl, hj⟩ := List.append_inj' heq rfl
        obtain rfl : j = i := by simpa using hj
        rw [if_pos rfl, hreach, Option.bind_some, writeWord_apply, if_pos ⟨rfl, rfl⟩,
          codeNext_tableEntry (hn.trans (by decide))]
      · rw [if_neg heq]
        cases hs : descend codeNext m.mem root r with
        | none => rfl
        | some s =>
            have hne : ¬ (s = t ∧ j = i) := by
              rintro ⟨rfl, rfl⟩
              exact heq (by rw [h.tree.unshared p r s hp hr hreach hs])
            rw [Option.bind_some, Option.bind_some, writeWord_apply, if_neg hne]

/-- The pages reached after a store into an entry of the last level: the page that the
entry led to is no longer among them. -/
def leafPages (m : Machine) (root : ℕ) (q S : List ℕ) (n : ℕ) : List ℕ :=
  S.filter (fun x => descend codeNext m.mem root q ≠ some x) ++ [n]

omit h hpath hlen hreach hn in
theorem mem_leafPages {q : List ℕ} {x : ℕ} :
    x ∈ leafPages m root q S n ↔ (x ∈ S ∧ descend codeNext m.mem root q ≠ some x) ∨ x = n := by
  simp only [leafPages, List.mem_append, List.mem_filter, List.mem_singleton, decide_eq_true_eq]

theorem Half.storeLeaf (hin : n ∈ pages) (hout : n ∉ S) :
    Half m₁ { m with mem := writeWord m.mem t i (tableEntry n) } root pages
      (leafPages m root (p ++ [i]) S n) := by
  have hp := LowerPath.init p i hpath
  have hpaths := fun {q} (hq : LowerPath 4 q) => h.leaf_paths hpath hlen hreach hn hq
  have hfresh : ∀ q, LowerPath 4 q → descend codeNext m.mem root q ≠ some n :=
    fun q hq hs => hout ((h.tree.reach n).mp ⟨q, hq, hs⟩)
  have hother : ∀ s j, ¬ (s = t ∧ j = i) →
      writeWord m.mem t i (tableEntry n) s j = m.mem s j := by
    intro s j hst
    rw [writeWord_apply, if_neg hst]
  refine ⟨h.zero, h.took, ?_, ⟨?_, ?_⟩, ?_, ?_, ?_, h.kernel⟩
  · intro x hx
    rcases List.mem_append.mp hx with hx | hx
    · exact h.sub x (List.mem_of_mem_filter hx)
    · rw [List.mem_singleton.mp hx]
      exact hin
  · intro q r x hq hr hqx hrx
    rw [hpaths hq] at hqx
    rw [hpaths hr] at hrx
    split at hqx
    · obtain rfl := Option.some_inj.mp hqx
      split at hrx
      · rename_i h₁ h₂
        rw [h₁, h₂]
      · exact (hfresh r hr hrx).elim
    · split at hrx
      · obtain rfl := Option.some_inj.mp hrx
        exact (hfresh q hq hqx).elim
      · exact h.tree.unshared q r x hq hr hqx hrx
  · intro x
    rw [mem_leafPages, ← h.tree.reach]
    constructor
    · rintro ⟨q, hq, hx⟩
      rw [hpaths hq] at hx
      split at hx
      · exact .inr (Option.some_inj.mp hx).symm
      · rename_i hne
        refine .inl ⟨⟨q, hq, hx⟩, fun hold => hne ?_⟩
        exact h.tree.unshared q (p ++ [i]) x hq hpath hx hold
    · rintro (⟨⟨q, hq, hx⟩, hne⟩ | rfl)
      · refine ⟨q, hq, ?_⟩
        rw [hpaths hq, if_neg, hx]
        rintro rfl
        exact hne hx
      · exact ⟨p ++ [i], hpath, by rw [hpaths hpath, if_pos rfl]⟩
  · intro q s j hq hs hpres
    rw [hpaths (LowerPath.init q j hq)] at hs
    split at hs
    · rename_i heq
      have := hq.1.1
      rw [heq] at this
      simp at this
      omega
    · by_cases hst : s = t ∧ j = i
      · exact ⟨n, hn, by simp only [writeWord_apply, if_pos hst]⟩
      · simp only [hother s j hst] at hpres ⊢
        exact h.entries q s j hq hs hpres
  · intro s hs hs0
    have hst : s ≠ t := by
      rintro rfl
      exact hs (h.mem_pages hp hreach)
    rw [← h.frame s hs hs0]
    funext j
    exact hother s j (fun hboth => hst hboth.1)
  · intro hk j hj hj'
    rw [← h.upper hk j hj hj']
    refine hother root j ?_
    rintro ⟨rfl, rfl⟩
    obtain rfl := h.tree.unshared p [] root hp (lowerPath_nil 4) hreach rfl
    simp at hlen

end Leaf

/-! ## Page 0 as a table -/

/-- No page is left, and page 0 is empty or leads to itself. -/
structure ZeroTable (m : Machine) : Prop where
  full : freePages m = 0
  used : bitmapTest m.pmm.bitmap 0 = true
  entries : ∀ j, m.mem 0 j = 0#64 ∨ m.mem 0 j = tableEntry 0

theorem freePages_congr {m m' : Machine} (h : m'.pmm = m.pmm) : freePages m' = freePages m := by
  rw [freePages, freePages, h]

/-- With no page left an allocation fails. -/
theorem Machine.allocPage_full (hzero : bitmapTest m.pmm.bitmap 0 = true)
    (hfull : freePages m = 0) : m.allocPage.1 = 0#64 ∧ m.allocPage.2 = m := by
  obtain ⟨hfail, hsame, _⟩ | ⟨n, _, _, _, _, _, hleft⟩ := m.allocPage_cases hzero
  · exact ⟨hfail, hsame⟩
  · omega

/-- A level of `vmm_map_page` in page 0 stays there. -/
theorem ZeroTable.openLevel (h : ZeroTable m) (i : ℕ) :
    (openTable m 0 i).1 = 0 ∧ ZeroTable (openTable m 0 i).2 ∧
      (openTable m 0 i).2.pmm = m.pmm ∧ ∀ s, s ≠ 0 → (openTable m 0 i).2.mem s = m.mem s := by
  by_cases hpres : present (m.mem 0 i) = true
  · have hentry : m.mem 0 i = tableEntry 0 := by
      rcases h.entries i with hz | hz
      · rw [hz, not_present_zero] at hpres
        cases hpres
      · exact hz
    rw [openTable_of_present hpres, hentry, tableOf_tableEntry (by decide)]
    exact ⟨rfl, h, rfl, fun _ _ => rfl⟩
  · have hmissing : present (m.mem 0 i) = false := by simpa using hpres
    obtain ⟨hfail, hsame⟩ := Machine.allocPage_full h.used h.full
    have hzero : m.allocPage.1 = pageAddr 0 := hfail
    obtain ⟨hfst, hpmm, hmem⟩ := openTable_of_missing hmissing (by decide) hzero
    rw [hsame] at hpmm
    refine ⟨hfst, ⟨(freePages_congr hpmm).trans h.full, by rw [hpmm]; exact h.used, ?_⟩, hpmm, ?_⟩
    · intro j
      rw [hmem, writeWord_apply, clearTable_apply]
      split
      · exact .inr rfl
      · exact .inl (if_pos rfl)
    · intro s hs
      funext j
      rw [hmem, writeWord_apply, if_neg (fun hboth => hs hboth.1), clearTable_apply, if_neg hs]

/-- After a level that failed page 0 is an empty table. -/
theorem Fails.zeroTable (h : Fails m m' t i) (ht : t ≠ 0)
    (hused : bitmapTest m.pmm.bitmap 0 = true) : ZeroTable m' := by
  refine ⟨(freePages_congr h.pmm).trans h.full, by rw [h.pmm]; exact hused, ?_⟩
  intro j
  rw [h.mem, writeWord_clearTable _ _ _ (Ne.symm ht)]
  exact .inl rfl

/-- The machine after a mapping for which a table could not be allocated: no page is left,
and the tables on the pages `S` lead to page 0. -/
structure Starved (m₁ m : Machine) (root : ℕ) (pages S : List ℕ) : Prop where
  zero : bitmapTest m₁.pmm.bitmap 0 = true
  took : Took m₁.pmm m.pmm pages
  sub : ∀ x ∈ S, x ∈ pages
  root_mem : root ∈ S
  full : freePages m = 0
  frame : ∀ t, bitmapTest m₁.pmm.bitmap t = true → t ≠ 0 → m.mem t = m₁.mem t
  upper : bitmapTest m₁.pmm.bitmap m₁.kernelPml4 = true →
    ∀ i, 256 ≤ i → i < 512 → m.mem root i = m₁.mem m₁.kernelPml4 i
  kernel : m.kernelPml4 = m₁.kernelPml4
  leads : ∀ mem, (∀ s ∈ S, mem s = m.mem s) →
    ∃ q, LowerPath 4 q ∧ q ≠ [] ∧ descend codeNext mem root q = some 0

theorem Starved.zero_used (h : Starved m₁ m root pages S) :
    bitmapTest m.pmm.bitmap 0 = true := by
  rw [h.took.bits, h.zero, Bool.or_true]

/-- Every initial part of a path is one. -/
theorem LowerPath.of_append {d : ℕ} {q r : List ℕ} (h : LowerPath d (q ++ r)) : LowerPath d q := by
  induction r using List.reverseRecOn with
  | nil => rwa [List.append_nil] at h
  | append_singleton r j ih =>
      rw [← List.append_assoc] at h
      exact ih (LowerPath.init _ j h)

theorem LowerPath.of_snoc_prefix {d j : ℕ} {q : List ℕ} (hp : LowerPath d p)
    (hq : q ++ [j] <+: p) : LowerPath d q := by
  obtain ⟨r, rfl⟩ := (List.prefix_append q [j]).trans hq
  exact hp.of_append

/-- The tables on the way to the table at the end of a path are other ones. -/
theorem Half.ne_on_the_way (h : Half m₁ m root pages S) (hp : LowerPath 4 p)
    (hreach : descend codeNext m.mem root p = some t) {q : List ℕ} {j s : ℕ}
    (hq : q ++ [j] <+: p) (hs : descend codeNext m.mem root q = some s) : s ≠ t := by
  intro hst
  rw [hst] at hs
  obtain rfl := h.tree.unshared p q t hp (hp.of_snoc_prefix hq) hreach hs
  have hlong := hq.length_le
  rw [List.length_append, List.length_singleton] at hlong
  omega

/-- What the first failing level leaves, when after it only page 0 is written. -/
theorem Half.starved {m₂ : Machine} (h : Half m₁ m root pages S) (hpath : LowerPath 4 (p ++ [i]))
    (hreach : descend codeNext m.mem root p = some t) (hfails : Fails m m' t i)
    (hpmm : m₂.pmm = m'.pmm) (hkernel : m₂.kernelPml4 = m'.kernelPml4)
    (hsame : ∀ s, s ≠ 0 → m₂.mem s = m'.mem s) : Starved m₁ m₂ root pages S := by
  have hp := LowerPath.init p i hpath
  have ht0 : t ≠ 0 := h.ne_zero hp hreach
  have hroot0 : root ≠ 0 := h.ne_zero (lowerPath_nil 4) rfl
  have hmem : ∀ s j, s ≠ 0 → ¬ (s = t ∧ j = i) → m₂.mem s j = m.mem s j := by
    intro s j hs hst
    rw [hsame s hs, hfails.mem, writeWord_apply, if_neg hst, clearTable_apply, if_neg hs]
  have hentry : m₂.mem t i = tableEntry 0 := by
    rw [hsame t ht0, hfails.mem, writeWord_apply, if_pos ⟨rfl, rfl⟩]
  have hpmm' := hpmm.trans hfails.pmm
  refine ⟨h.zero, by rw [hpmm']; exact h.took, h.sub, h.root_mem,
    (freePages_congr hpmm').trans hfails.full, ?_, ?_, ?_, ?_⟩
  · intro s hs hs0
    have hst : s ≠ t := ne_of_used hs (h.not_used hp hreach)
    rw [← h.frame_used hs hs0]
    funext j
    exact hmem s j hs0 (fun hboth => hst hboth.1)
  · intro hk j hj hj'
    rw [← h.upper hk j hj hj']
    refine hmem root j hroot0 ?_
    rintro ⟨rfl, rfl⟩
    obtain rfl := h.tree.unshared p [] root hp (lowerPath_nil 4) hreach rfl
    exact absurd (hpath.2 j (by simp)) (by omega)
  · rw [hkernel, hfails.kernel, h.kernel]
  · intro mem hagree
    refine ⟨p ++ [i], hpath, by simp, ?_⟩
    -- the path to the failing entry is as it was before
    have hdown : descend codeNext mem root p = descend codeNext m.mem root p := by
      refine descend_congr (V := fun q => q <+: p)
        (fun q j hq => (List.prefix_append q [j]).trans hq) ?_ (List.prefix_refl p)
      intro q j s hq hs
      have hq' := hp.of_snoc_prefix hq
      have hst := h.ne_on_the_way hp hreach hq hs
      rw [hagree s ((h.tree.reach s).mp ⟨q, hq', hs⟩),
        hmem s j (h.ne_zero hq' hs) (fun hboth => hst hboth.1)]
    rw [descend_snoc, hdown, hreach, Option.bind_some,
      hagree t ((h.tree.reach t).mp ⟨p, hp, hreach⟩), hentry, codeNext_tableEntry (by decide)]

/-! ## What is left alone -/

/-- Pages that were in use before are unchanged, page 0 apart, and the upper half is the
kernel's. -/
structure Guarded (m₁ m : Machine) (root : ℕ) : Prop where
  frame : ∀ t, bitmapTest m₁.pmm.bitmap t = true → t ≠ 0 → m.mem t = m₁.mem t
  upper : bitmapTest m₁.pmm.bitmap m₁.kernelPml4 = true →
    ∀ i, 256 ≤ i → i < 512 → m.mem root i = m₁.mem m₁.kernelPml4 i

theorem Half.guarded (h : Half m₁ m root pages S) : Guarded m₁ m root :=
  ⟨fun _ hs hs0 => h.frame_used hs hs0, h.upper⟩

theorem Starved.guarded (h : Starved m₁ m root pages S) : Guarded m₁ m root := ⟨h.frame, h.upper⟩

end LispDos.Memory
