import LispDos.Verification.Memory.LowerHalf
import LispDos.Verification.Memory.Bytes

/-! # Outcomes of a mapping

A call of `vmm_map_page` for a page of the lower half either enters the page, with new
tables where some are missing, or it runs out of memory for a table. -/

namespace LispDos.Memory

open Foundation

variable {m m' m₁ : Machine} {root t i n : ℕ} {p is pages S : List ℕ} {map v : Word}

/-! ## The levels above the last -/

/-- The levels of `vmm_map_page` along a path. -/
def openPath : Machine → ℕ → List ℕ → ℕ × Machine
  | m, t, [] => (t, m)
  | m, t, i :: is => openPath (openTable m t i).2 (openTable m t i).1 is

def pathAllocs : Machine → ℕ → List ℕ → List Word
  | _, _, [] => []
  | m, t, i :: is => openAllocs m t i ++ pathAllocs (openTable m t i).2 (openTable m t i).1 is

/-- The indices of the three upper levels. -/
def tablePath (v : Word) : List ℕ := [tableIndex v 39, tableIndex v 30, tableIndex v 21]

theorem indices_eq (v : Word) : indices v = tablePath v ++ [tableIndex v 12] := rfl

theorem vmmMapPage_eq (m : Machine) (map v paddr flags : Word) :
    vmmMapPage m map v paddr flags =
      { (openPath m (map.toNat / 4096) (tablePath v)).2 with
        mem := writeWord (openPath m (map.toNat / 4096) (tablePath v)).2.mem
          (openPath m (map.toNat / 4096) (tablePath v)).1 (tableIndex v 12)
          (leafEntry paddr flags) } := rfl

theorem mapAllocs_eq (m : Machine) (map v : Word) :
    mapAllocs m map v = pathAllocs m (map.toNat / 4096) (tablePath v) := by
  simp only [mapAllocs, pathAllocs, tablePath, List.append_nil, List.append_assoc]

/-- The number of tables missing on the way along `is` below the path `p`. -/
def missingTables (mem : PhysMem) (root : ℕ) : List ℕ → List ℕ → ℕ
  | _, [] => 0
  | p, i :: is =>
      (if (descend codeNext mem root (p ++ [i])).isSome then 0 else 1) +
        missingTables mem root (p ++ [i]) is

theorem missingTables_congr {mem mem' : PhysMem} (p is : List ℕ)
    (h : ∀ r, r ≠ [] → r <+: is →
      descend codeNext mem' root (p ++ r) = descend codeNext mem root (p ++ r)) :
    missingTables mem' root p is = missingTables mem root p is := by
  induction is generalizing p with
  | nil => rfl
  | cons i is ih =>
      rw [missingTables, missingTables, h [i] (by simp) (by simp)]
      congr 1
      refine ih (p ++ [i]) ?_
      intro r hr hpre
      rw [List.append_assoc]
      exact h _ (by simp) (by simpa using hpre)

/-- The machine after the levels along `is`, when all tables could be allocated. -/
structure Opens (m₁ m m' : Machine) (root : ℕ) (pages S p is : List ℕ) (table : ℕ)
    (new : List ℕ) : Prop where
  half : Half m₁ m' root (pages ++ new) (S ++ new)
  reach : descend codeNext m'.mem root (p ++ is) = some table
  kept : ∀ q x, LowerPath 4 q → descend codeNext m.mem root q = some x →
    descend codeNext m'.mem root q = some x
  added : ∀ q, LowerPath 4 q → ¬ q <+: p ++ is →
    descend codeNext m'.mem root q = descend codeNext m.mem root q
  same : ∀ s, s ∉ new → (∀ q, LowerPath 3 q → descend codeNext m.mem root q ≠ some s) →
    m'.mem s = m.mem s
  count : new.length = missingTables m.mem root p is
  left : freePages m' + new.length = freePages m

/-- The machine after levels of which one failed, whatever is stored into page 0 after it. -/
structure StarvedPath (m₁ m m' : Machine) (root : ℕ) (pages S p is new : List ℕ) : Prop where
  starved : ∀ m₂ : Machine, m₂.pmm = m'.pmm → m₂.kernelPml4 = m'.kernelPml4 →
    (∀ s, s ≠ 0 → m₂.mem s = m'.mem s) → Starved m₁ m₂ root (pages ++ new) (S ++ new)
  count : freePages m < missingTables m.mem root p is

theorem ZeroTable.openLevels (h : ZeroTable m) (is : List ℕ) :
    (openPath m 0 is).1 = 0 ∧ (openPath m 0 is).2.pmm = m.pmm ∧
      (openPath m 0 is).2.kernelPml4 = m.kernelPml4 ∧
      ∀ s, s ≠ 0 → (openPath m 0 is).2.mem s = m.mem s := by
  induction is generalizing m with
  | nil => exact ⟨rfl, rfl, rfl, fun _ _ => rfl⟩
  | cons i is ih =>
      obtain ⟨hfst, hzero, hpmm, hmem⟩ := h.openLevel i
      obtain ⟨ihfst, ihpmm, ihkernel, ihmem⟩ := ih hzero
      rw [openPath, hfst]
      refine ⟨ihfst, ihpmm.trans hpmm, ihkernel.trans (openTable_kernelPml4 m 0 i), ?_⟩
      intro s hs
      rw [ihmem s hs, hmem s hs]

section Levels

variable (hpath : LowerPath 4 (p ++ i :: is)) (hlen : p.length < 3)
  (hreach : descend codeNext m.mem root p = some t)

include hpath

theorem lowerPath_level : LowerPath 4 (p ++ [i]) := by
  have hsplit : p ++ i :: is = p ++ [i] ++ is := by simp
  rw [hsplit] at hpath
  exact hpath.of_append

theorem Extends.missing_below {table : ℕ} {new : List ℕ}
    (h : Extends m₁ m m' root pages S p i t table new) :
    missingTables m'.mem root (p ++ [i]) is = missingTables m.mem root (p ++ [i]) is := by
  apply missingTables_congr
  intro r hr hpre
  have hr4 : LowerPath 4 (p ++ [i] ++ r) := by
    obtain ⟨rest, rfl⟩ := hpre
    have hsplit : p ++ i :: (r ++ rest) = p ++ [i] ++ r ++ rest := by simp
    rw [hsplit] at hpath
    exact hpath.of_append
  rw [h.paths _ hr4, if_neg (by simpa using hr)]

theorem Extends.missing {table : ℕ} {new : List ℕ}
    (h : Extends m₁ m m' root pages S p i t table new) :
    missingTables m.mem root p (i :: is) =
      new.length + missingTables m'.mem root (p ++ [i]) is := by
  rw [h.missing_below hpath, missingTables]
  rcases h.origin with ⟨hnew, hold⟩ | ⟨hnew, hnone⟩
  · simp [hnew, hold]
  · simp [hnew, hnone]

include hlen hreach

/-- A level that has its table, and the levels below it. -/
theorem Extends.opens {m'' : Machine} {table bottom : ℕ} {new new' : List ℕ}
    (h : Extends m₁ m m' root pages S p i t table new)
    (hrest : Opens m₁ m' m'' root (pages ++ new) (S ++ new) (p ++ [i]) is bottom new') :
    Opens m₁ m m'' root pages S p (i :: is) bottom (new ++ new') := by
  have hp := LowerPath.init p i (lowerPath_level hpath)
  have hkept : ∀ q x, LowerPath 4 q → descend codeNext m.mem root q = some x →
      descend codeNext m'.mem root q = some x := by
    intro q x hq hx
    rw [h.paths q hq]
    split
    · rename_i heq
      rw [heq] at hx
      rcases h.origin with ⟨_, hold⟩ | ⟨_, hnone⟩
      · rw [← hold, hx]
      · rw [hnone] at hx
        cases hx
    · exact hx
  have hassoc : p ++ [i] ++ is = p ++ i :: is := by simp
  refine ⟨by simpa only [List.append_assoc] using hrest.half, by rw [← hassoc]; exact hrest.reach,
    fun q x hq hx => hrest.kept q x hq (hkept q x hq hx), ?_, ?_, ?_, ?_⟩
  · intro q hq hnot
    rw [hrest.added q hq (by rwa [hassoc]), h.paths q hq, if_neg]
    rintro rfl
    exact hnot (by rw [← hassoc]; exact List.prefix_append _ _)
  · intro s hs htable
    rw [List.mem_append, not_or] at hs
    have hp3 : LowerPath 3 p := hp.of_le (by omega)
    rw [hrest.same s hs.2, h.same s hs.1]
    · rintro rfl
      exact htable p hp3 hreach
    · intro q hq hqs
      rw [h.paths q (hq.of_le (hq.1.1.trans (by decide)))] at hqs
      split at hqs
      · rename_i heq
        rw [heq] at hq
        rcases h.origin with ⟨_, hold⟩ | ⟨hnew, _⟩
        · exact htable _ hq (hold.trans hqs)
        · exact hs.1 (by rw [hnew, Option.some_inj.mp hqs]; exact List.mem_singleton_self s)
      · exact htable q hq hqs
  · rw [List.length_append, hrest.count, h.missing hpath]
  · have hleft := h.left
    have hrestLeft := hrest.left
    rw [List.length_append]
    omega

end Levels

theorem Half.openLevels (h : Half m₁ m root pages S) (is : List ℕ) (hpath : LowerPath 4 (p ++ is))
    (hlen : p.length + is.length ≤ 3) (hreach : descend codeNext m.mem root p = some t) :
    (∃ new : List ℕ, pathAllocs m t is = new.map pageAddr ∧ (∀ a ∈ pathAllocs m t is, a ≠ 0#64) ∧
      Opens m₁ m (openPath m t is).2 root pages S p is (openPath m t is).1 new) ∨
    (∃ new : List ℕ, 0#64 ∈ pathAllocs m t is ∧ (openPath m t is).1 = 0 ∧
      StarvedPath m₁ m (openPath m t is).2 root pages S p is new) := by
  induction is generalizing m p t pages S with
  | nil =>
      left
      refine ⟨[], rfl, by simp [pathAllocs], ?_⟩
      simp only [openPath]
      exact ⟨by simpa using h, by simpa using hreach, fun _ _ _ hx => hx, fun _ _ _ => rfl,
        fun _ _ _ => rfl, rfl, rfl⟩
  | cons i is ih =>
      have hlen' : p.length < 3 := by
        rw [List.length_cons] at hlen
        omega
      have hlevel := lowerPath_level hpath
      have hassoc : p ++ [i] ++ is = p ++ i :: is := by simp
      simp only [pathAllocs, openPath]
      obtain ⟨new, hallocs, hok, hext⟩ | ⟨hallocs, hfst, hnone, hfails⟩ :=
        h.openLevel hlevel hlen' hreach
      · have hreach' : descend codeNext (openTable m t i).2.mem root (p ++ [i]) =
            some (openTable m t i).1 := by
          rw [hext.paths _ hlevel, if_pos rfl]
        obtain ⟨new', hallocs', hok', hopens⟩ | ⟨new', hzero, hfst, hstarved⟩ :=
          ih hext.half (p := p ++ [i]) (by rwa [hassoc])
            (by rw [List.length_append]; simp at hlen ⊢; omega) hreach'
        · left
          refine ⟨new ++ new', by rw [hallocs, hallocs', List.map_append], ?_,
            hext.opens hpath hlen' hreach hopens⟩
          intro a ha
          rcases List.mem_append.mp ha with ha | ha
          · exact hok a ha
          · exact hok' a ha
        · right
          refine ⟨new ++ new', List.mem_append_right _ hzero, hfst, ?_, ?_⟩
          · intro m₂ hpmm hkernel hmem
            simpa only [List.append_assoc] using hstarved.starved m₂ hpmm hkernel hmem
          · rw [hext.missing hpath]
            have hcount := hstarved.count
            have hleft := hext.left
            omega
      · right
        have hp := LowerPath.init p i hlevel
        obtain ⟨hbottom, hpmm', hkernel', hmem'⟩ :=
          (hfails.zeroTable (h.ne_zero hp hreach) h.zero_used).openLevels is
        rw [hfst]
        refine ⟨[], by rw [hallocs]; simp, hbottom, ?_, ?_⟩
        · intro m₂ hpmm hkernel hmem
          simp only [List.append_nil]
          refine h.starved hlevel hreach hfails (hpmm.trans hpmm') (hkernel.trans hkernel') ?_
          intro s hs
          rw [hmem s hs, hmem' s hs]
        · rw [hfails.full, missingTables, hnone]
          simp

/-! ## The leaf -/

/-- The entry for a page of a program is made like that of a table. -/
theorem leafEntry_userFlags {n : ℕ} (hn : n < 2 ^ 52) :
    leafEntry (pageAddr n) 6#64 = tableEntry n := by
  have hmask : pageAddr n &&& ~~~0xFFF#64 = pageAddr n := by
    rw [pageMask_eq, tableOf_eq, pageAddr_div hn]
  rw [leafEntry, hmask, tableEntry, BitVec.or_assoc, BitVec.or_assoc, BitVec.or_assoc]
  rfl

/-- The machine after `vmm_map_page` has entered the page `n` at `v`. -/
structure Mapped (m₁ m m' : Machine) (root : ℕ) (pages S : List ℕ) (v : Word) (n : ℕ)
    (new : List ℕ) : Prop where
  half : Half m₁ m' root (pages ++ new) (leafPages m root (indices v) (S ++ new) n)
  leaf : descend codeNext m'.mem root (indices v) = some n
  tables : ∀ q, q <+: tablePath v → (descend codeNext m'.mem root q).isSome = true
  kept : ∀ q x, LowerPath 3 q → descend codeNext m.mem root q = some x →
    descend codeNext m'.mem root q = some x
  others : ∀ q, LowerPath 4 q → ¬ q <+: indices v →
    descend codeNext m'.mem root q = descend codeNext m.mem root q
  same : ∀ s, s ∉ new → (∀ q, LowerPath 3 q → descend codeNext m.mem root q ≠ some s) →
    m'.mem s = m.mem s
  count : new.length = missingTables m.mem root [] (tablePath v)
  left : freePages m' + new.length = freePages m

/-- Above a path that leads to a table there are tables. -/
theorem descend_prefix {mem : PhysMem} {q r : List ℕ}
    (h : descend codeNext mem root r = some t) (hpre : q <+: r) :
    (descend codeNext mem root q).isSome = true := by
  obtain ⟨s, rfl⟩ := hpre
  rw [descend_append] at h
  cases hq : descend codeNext mem root q with
  | none =>
      rw [hq] at h
      cases h
  | some x => rfl

/-- The last table is new or was reached before. -/
theorem Opens.bottom {table : ℕ} {new : List ℕ}
    (h : Opens m₁ m m' root pages S p is table new) (old : Half m₁ m root pages S)
    (hpath : LowerPath 4 (p ++ is)) :
    table ∈ new ∨ descend codeNext m.mem root (p ++ is) = some table := by
  rcases List.mem_append.mp ((h.half.tree.reach table).mp ⟨_, hpath, h.reach⟩) with hS | hnew
  · obtain ⟨q, hq, hs⟩ := (old.tree.reach table).mpr hS
    obtain rfl := h.half.tree.unshared q (p ++ is) table hq hpath (h.kept q table hq hs) h.reach
    exact .inr hs
  · exact .inl hnew

theorem Half.mapPage (h : Half m₁ m root pages S) (hroot : map.toNat / 4096 = root)
    (hv : v.toNat < 2 ^ 47) (hn : n < 2 ^ 40) (hin : n ∈ pages) (hout : n ∉ S) :
    (∃ new : List ℕ, (∀ a ∈ mapAllocs m map v, a ≠ 0#64) ∧
      Mapped m₁ m (vmmMapPage m map v (pageAddr n) 6#64) root pages S v n new) ∨
    (∃ new : List ℕ, 0#64 ∈ mapAllocs m map v ∧
      freePages m < missingTables m.mem root [] (tablePath v) ∧
      Starved m₁ (vmmMapPage m map v (pageAddr n) 6#64) root (pages ++ new) (S ++ new)) := by
  have hindices := lowerPath_indices hv
  rw [indices_eq] at hindices
  have hpath : LowerPath 4 ([] ++ tablePath v) := hindices.of_append
  rw [mapAllocs_eq, vmmMapPage_eq, leafEntry_userFlags (hn.trans (by decide)), hroot]
  obtain ⟨new, _, hok, hopens⟩ | ⟨new, hzero, hfst, hstarved⟩ :=
    h.openLevels (tablePath v) hpath (by simp [tablePath]) rfl
  · left
    refine ⟨new, hok, ?_⟩
    have hfour : ∀ q, LowerPath 4 q → q.length = 4 →
        descend codeNext (openPath m root (tablePath v)).2.mem root q =
          descend codeNext m.mem root q := by
      intro q hq hlen
      refine hopens.added q hq (fun hpre => ?_)
      have := hpre.length_le
      simp [tablePath] at this
      omega
    have hnotNew : n ∉ S ++ new := by
      rw [List.mem_append, not_or]
      refine ⟨hout, fun hmem => ?_⟩
      exact (List.disjoint_of_nodup_append hopens.half.took.nodup) hin hmem
    have hleaf := hopens.half.storeLeaf hindices rfl hopens.reach hn
      (List.mem_append_left new hin) hnotNew
    have hpaths := fun {q} (hq : LowerPath 4 q) =>
      hopens.half.leaf_paths hindices rfl hopens.reach hn hq
    have hpages : leafPages (openPath m root (tablePath v)).2 root
        (tablePath v ++ [tableIndex v 12]) (S ++ new) n =
          leafPages m root (indices v) (S ++ new) n := by
      rw [leafPages, leafPages, indices_eq, hfour _ hindices rfl]
    rw [hpages] at hleaf
    refine ⟨hleaf, ?_, ?_, ?_, ?_, ?_, hopens.count, hopens.left⟩
    · rw [indices_eq, hpaths hindices, if_pos rfl]
    · intro q hq
      have hq4 : LowerPath 4 q := by
        obtain ⟨r, hr⟩ := hq
        rw [List.nil_append, ← hr] at hpath
        exact hpath.of_append
      rw [hpaths hq4, if_neg]
      · exact descend_prefix hopens.reach hq
      · rintro rfl
        have := hq.length_le
        simp [tablePath] at this
    · intro q x hq hx
      have hq4 : LowerPath 4 q := hq.of_le (hq.1.1.trans (by decide))
      rw [hpaths hq4, if_neg]
      · exact hopens.kept q x hq4 hx
      · rintro rfl
        have := hq.1.1
        simp [tablePath] at this
    · intro q hq hnot
      rw [hpaths hq, if_neg]
      · refine hopens.added q hq (fun hpre => hnot ?_)
        exact hpre.trans (List.prefix_append _ _)
      · rintro rfl
        exact hnot (List.prefix_refl _)
    · intro s hs htable
      have hst : s ≠ (openPath m root (tablePath v)).1 := by
        rintro rfl
        rcases hopens.bottom h hpath with hmem | hold
        · exact hs hmem
        · exact htable _ (hpath.of_le (by simp [tablePath])) hold
      rw [← hopens.same s hs htable]
      funext j
      simp only [writeWord_apply, if_neg (fun hboth : s = _ ∧ _ => hst hboth.1)]
  · right
    refine ⟨new, hzero, hstarved.count, ?_⟩
    rw [hfst]
    refine hstarved.starved _ rfl rfl ?_
    intro s hs
    funext j
    simp only [writeWord_apply, if_neg (fun hboth : s = 0 ∧ _ => hs hboth.1)]

/-! ## Allocation and data -/

theorem Half.take (h : Half m₁ m root pages S) (takes : Takes m.pmm m.allocPage.2.pmm {n}) :
    n ∉ pages ∧ Half m₁ m.allocPage.2 root (pages ++ [n]) S := by
  obtain ⟨hnot, htook⟩ := h.took.snoc takes
  exact ⟨hnot, h.zero, htook, fun x hx => List.mem_append_left _ (h.sub x hx), h.tree, h.entries,
    fun s hs => h.frame s (fun hin => hs (List.mem_append_left _ hin)), h.upper, h.kernel⟩

section Data

variable {mem' : PhysMem} (hsame : ∀ s, s ≠ n → mem' s = m.mem s)

include hsame

/-- Stores into a page that is no table change neither the tree nor what was in use
before. -/
theorem Half.storeData (h : Half m₁ m root pages S) (hin : n ∈ pages)
    (htable : ∀ q, LowerPath 3 q → descend codeNext m.mem root q ≠ some n) :
    Half m₁ { m with mem := mem' } root pages S ∧
      ∀ q, LowerPath 4 q → descend codeNext mem' root q = descend codeNext m.mem root q := by
  have hentry : ∀ q j s, LowerPath 4 (q ++ [j]) → descend codeNext m.mem root q = some s →
      mem' s = m.mem s := by
    intro q j s hq hs
    refine hsame s ?_
    rintro rfl
    have hlen := hq.1.1
    rw [List.length_append, List.length_singleton] at hlen
    exact htable q ((LowerPath.init q j hq).of_le (by omega)) hs
  have hpaths : ∀ q, LowerPath 4 q →
      descend codeNext mem' root q = descend codeNext m.mem root q := by
    intro q hq
    refine descend_congr LowerPath.init ?_ hq
    intro q j s hq hs
    rw [hentry q j s hq hs]
  have hroot : root ≠ n := by
    rintro rfl
    exact htable [] (lowerPath_nil 3) rfl
  refine ⟨⟨h.zero, h.took, h.sub, ⟨?_, ?_⟩, ?_, ?_, ?_, h.kernel⟩, hpaths⟩
  · intro q r x hq hr hqx hrx
    rw [hpaths q hq] at hqx
    rw [hpaths r hr] at hrx
    exact h.tree.unshared q r x hq hr hqx hrx
  · intro x
    rw [← h.tree.reach x]
    constructor
    · rintro ⟨q, hq, hx⟩
      exact ⟨q, hq, by rwa [← hpaths q hq]⟩
    · rintro ⟨q, hq, hx⟩
      exact ⟨q, hq, by rwa [hpaths q hq]⟩
  · intro q s j hq hs hpres
    rw [hpaths q (LowerPath.init q j hq)] at hs
    simp only [hentry q j s hq hs] at hpres ⊢
    exact h.entries q s j hq hs hpres
  · intro s hs hs0
    rw [← h.frame s hs hs0]
    refine hsame s ?_
    rintro rfl
    exact hs hin
  · intro hk j hj hj'
    rw [← h.upper hk j hj hj']
    exact congrFun (hsame root hroot) j

theorem Starved.storeData (h : Starved m₁ m root pages S)
    (hclear : bitmapTest m₁.pmm.bitmap n = false) (hout : n ∉ S) :
    Starved m₁ { m with mem := mem' } root pages S := by
  have hroot : root ≠ n := by
    rintro rfl
    exact hout h.root_mem
  refine ⟨h.zero, h.took, h.sub, h.root_mem, h.full, ?_, ?_, h.kernel, ?_⟩
  · intro s hs hs0
    rw [← h.frame s hs hs0]
    exact hsame s (ne_of_used hs hclear)
  · intro hk j hj hj'
    rw [← h.upper hk j hj hj']
    exact congrFun (hsame root hroot) j
  · intro mem hagree
    refine h.leads mem (fun s hs => ?_)
    rw [hagree s hs]
    refine hsame s ?_
    rintro rfl
    exact hout hs

end Data

/-! ## A new address space -/

theorem Half.new (hzero : bitmapTest m.pmm.bitmap 0 = true) (hok : (vmmNewPagemap m).1 ≠ 0#64) :
    ∃ n, 0 < n ∧ n < 2 ^ 40 ∧ (vmmNewPagemap m).1 = pageAddr n ∧
      Half m (vmmNewPagemap m).2 n [n] [n] ∧
      (∀ q, LowerPath 4 q → q ≠ [] → descend codeNext (vmmNewPagemap m).2.mem n q = none) ∧
      freePages (vmmNewPagemap m).2 + 1 = freePages m := by
  obtain ⟨n, hn, haddr, inv⟩ := sessionInv_new hok
  obtain ⟨n', hn', haddr', hmem, hpmm, takes⟩ := vmmNewPagemap_mem hok
  obtain rfl : n = n' :=
    pageAddr_injOn (hn.trans (by decide)) (hn'.trans (by decide)) (haddr.symm.trans haddr')
  have hclear := takes.test_eq_false (Finset.mem_singleton_self n)
  have hpos : n ≠ 0 := by
    rintro rfl
    exact ne_of_used hzero hclear rfl
  have hempty : ∀ q, LowerPath 4 q → q ≠ [] →
      descend codeNext (vmmNewPagemap m).2.mem n q = none := by
    intro q hq hne
    obtain ⟨i, r, rfl⟩ := List.exists_cons_of_ne_nil hne
    rw [hmem]
    simp only [descend, new_lower m n (hq.2 i (by simp)), codeNext_of_not_present not_present_zero,
      Option.bind_none]
  have hkernel : (vmmNewPagemap m).2.kernelPml4 = m.kernelPml4 := by
    simp only [vmmNewPagemap]
    split <;> rfl
  refine ⟨n, Nat.pos_of_ne_zero hpos, hn, haddr,
    ⟨hzero, inv.took, fun x hx => hx, inv.tree, ?_, ?_, ?_, hkernel⟩, hempty, ?_⟩
  · intro q s j hq hs hpres
    by_cases hnil : q = []
    · obtain rfl : n = s := by
        rw [hnil] at hs
        exact Option.some_inj.mp hs
      have hj : j < 256 := hq.2 j (by simp [hnil])
      rw [hmem, new_lower m n hj, not_present_zero] at hpres
      cases hpres
    · rw [hempty q (LowerPath.init q j hq) hnil] at hs
      cases hs
  · intro s hs _
    funext j
    rw [hmem, new_other m (by simpa using hs)]
  · intro hk i hi hi'
    rw [hmem, copyUpperHalf_apply, if_pos ⟨rfl, hi, hi'⟩, clearTable_apply,
      if_neg (ne_of_used hk hclear)]
  · rw [freePages_congr hpmm]
    exact freePages_take takes

end LispDos.Memory
