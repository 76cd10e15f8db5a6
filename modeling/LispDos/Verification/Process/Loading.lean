import LispDos.Verification.Process.Budget

/-! # Loading the pages of a plan

What one round of the page loop does to the address space, and the invariant of all
rounds: which pages are mapped, what they hold and what has been logged. -/

namespace LispDos.Process

open Memory Foundation

variable {m m₁ : Machine} {root n : ℕ} {pages S : List ℕ} {phys map : Word} {l : Loader}
  {done rest : List SegPage} {s : SegPage} {buf : ℕ → UInt8} {limit : ℕ}

/-! ## Filling a page -/

/-- The contents of a page, from those of the file. -/
def SegPage.byte (buf : ℕ → UInt8) (s : SegPage) (i : ℕ) : UInt8 :=
  match s.copy with
  | none => 0
  | some (start, src, size) =>
      if start.toNat ≤ i ∧ i < start.toNat + size.toNat then buf (src.toNat + (i - start.toNat))
      else 0

/-- The bytes that are copied lie below an offset of the file. -/
def SegPage.within (limit : ℕ) (s : SegPage) : Prop :=
  ∀ start src size, s.copy = some (start, src, size) → src.toNat + size.toNat ≤ limit

/-- The access to the file buffer for a page. -/
def SegPage.copyEvents (s : SegPage) : List Event :=
  match s.copy with
  | none => []
  | some (_, src, size) => [.copy src size.toNat]

/-- The stores into the page `n`. -/
def SegPage.fill (s : SegPage) (phys : Word) (mem : PhysMem) (n : ℕ) : PhysMem :=
  match s.copy with
  | none => clearTable mem n
  | some (start, src, size) =>
      memcpy (clearTable mem n) (pageAddr n + start) (phys + src) size.toNat

theorem SegPage.fill_none (h : s.copy = none) (mem : PhysMem) :
    s.fill phys mem n = clearTable mem n := by
  unfold SegPage.fill
  simp only [h]

theorem SegPage.fill_some {start src size : Word} (h : s.copy = some (start, src, size))
    (mem : PhysMem) : s.fill phys mem n =
      memcpy (clearTable mem n) (pageAddr n + start) (phys + src) size.toNat := by
  unfold SegPage.fill
  simp only [h]

/-- A byte of a page that has a copy. -/
theorem SegPage.byte_some {start src size : Word} (h : s.copy = some (start, src, size)) (i : ℕ) :
    s.byte buf i = if start.toNat ≤ i ∧ i < start.toNat + size.toNat then
      buf (src.toNat + (i - start.toNat)) else 0 := by
  unfold SegPage.byte
  simp only [h]

theorem SegPage.byte_none (h : s.copy = none) (i : ℕ) : s.byte buf i = 0 := by
  unfold SegPage.byte
  simp only [h]

theorem SegPage.copyEvents_none (h : s.copy = none) : s.copyEvents = [] := by
  unfold SegPage.copyEvents
  simp only [h]

theorem SegPage.copyEvents_some {start src size : Word} (h : s.copy = some (start, src, size)) :
    s.copyEvents = [.copy src size.toNat] := by
  unfold SegPage.copyEvents
  simp only [h]

theorem SegPage.fits (h : s.faults = false) {start src size : Word}
    (hcopy : s.copy = some (start, src, size)) : start.toNat + size.toNat ≤ 4096 := by
  rw [SegPage.faults, hcopy] at h
  simpa using h

/-- The destination of a copy that fits. -/
theorem fill_dest (hn : n < 2 ^ 40) {start size : Word} (hfit : start.toNat + size.toNat ≤ 4096)
    (hpos : 0 < size.toNat) :
    (pageAddr n + start).toNat = n * 4096 + start.toNat ∧
      (pageAddr n + start).toNat / 4096 = n ∧
      (pageAddr n + start).toNat % 4096 + size.toNat ≤ 4096 := by
  have haddr : (pageAddr n + start).toNat = n * 4096 + start.toNat := by
    rw [BitVec.toNat_add, pageAddr_toNat (hn.trans (by decide))]
    omega
  omega

theorem SegPage.fill_other (hn : n < 2 ^ 40) (hfaults : s.faults = false) (mem : PhysMem) {t : ℕ}
    (ht : t ≠ n) : s.fill phys mem n t = mem t := by
  have hclear : clearTable mem n t = mem t := by
    funext j
    rw [clearTable_apply, if_neg ht]
  cases hcopy : s.copy with
  | none => rw [SegPage.fill_none hcopy, hclear]
  | some c =>
      obtain ⟨start, src, size⟩ := c
      have hfit := s.fits hfaults hcopy
      rw [SegPage.fill_some hcopy]
      by_cases hpos : 0 < size.toNat
      · obtain ⟨_, hpage, hroom⟩ := fill_dest hn hfit hpos
        rw [memcpy_other _ _ hpage hroom ht, hclear]
      · have hzero : size.toNat = 0 := by omega
        rw [hzero, memcpy_zero, hclear]

theorem SegPage.loadByte_fill (hn : n < 2 ^ 40) (hfaults : s.faults = false) {mem : PhysMem}
    (hbuf : ∀ k < limit, byteAt mem phys k = buf k)
    (happart : ∀ k < limit, (phys + BitVec.ofNat 64 k).toNat / 4096 ≠ n) (hin : s.within limit)
    {i : ℕ} (hi : i < 4096) :
    loadByte (s.fill phys mem n) (n * 4096 + i) = s.byte buf i := by
  have hcleared : loadByte (clearTable mem n) (n * 4096 + i) = 0 := by
    rw [loadByte_clearTable, if_pos (by omega)]
  cases hcopy : s.copy with
  | none => rw [SegPage.fill_none hcopy, SegPage.byte_none hcopy, hcleared]
  | some c =>
      obtain ⟨start, src, size⟩ := c
      have hfit := s.fits hfaults hcopy
      have hwithin := hin start src size hcopy
      rw [SegPage.fill_some hcopy, SegPage.byte_some hcopy]
      by_cases hpos : 0 < size.toNat
      · obtain ⟨haddr, hpage, hroom⟩ := fill_dest hn hfit hpos
        have hsrc : ∀ j, phys + src + BitVec.ofNat 64 j =
            phys + BitVec.ofNat 64 (src.toNat + j) := by
          intro j
          rw [BitVec.ofNat_add, BitVec.ofNat_toNat, BitVec.setWidth_eq, BitVec.add_assoc]
        rw [loadByte_memcpy _ hpage hroom (fun j hj => by
          rw [hsrc]
          exact happart _ (by omega)), haddr]
        by_cases hmid : start.toNat ≤ i ∧ i < start.toNat + size.toNat
        · rw [if_pos (by omega), if_pos hmid, byteAt_add]
          have hoffset : n * 4096 + i - (n * 4096 + start.toNat) = i - start.toNat := by omega
          rw [hoffset, ← hbuf _ (by omega)]
          refine loadByte_congr ?_ rfl
          funext j
          rw [clearTable_apply, if_neg (happart _ (by omega))]
        · rw [if_neg (by omega), if_neg hmid, hcleared]
      · have hzero : size.toNat = 0 := by omega
        rw [hzero, memcpy_zero, if_neg (by omega), hcleared]

/-- A round of the page loop for which a page could be allocated. -/
theorem loadPage_eq (phys map : Word) (s : SegPage) (hn : n < 2 ^ 40)
    (halloc : l.machine.allocPage.1 = pageAddr n)
    (hok : l.machine.allocPage.1 ≠ 0#64) :
    let m := vmmMapPage l.machine.allocPage.2 map s.vaddr (pageAddr n) 6#64
    let l' : Loader := ⟨{ m with mem := s.fill phys m.mem n },
      l.log ++ (.map l.machine.allocPage.2 map s.vaddr :: s.copyEvents)⟩
    loadPage phys map s.seg s.index l =
      if s.faults then .stop .copyFaults l' else .go l' := by
  have hdiv : (pageAddr n).toNat / 4096 = n := pageAddr_div (hn.trans (by decide))
  have hne : pageAddr n ≠ 0#64 := halloc ▸ hok
  intro m l'
  simp only [loadPage, halloc, if_neg hne, hdiv]
  cases hcopy : s.seg.copy s.index with
  | none =>
      have hfaults : s.faults = false := by simp [SegPage.faults, SegPage.copy, hcopy]
      have hevents : s.copyEvents = [] := s.copyEvents_none hcopy
      rw [if_neg (by simp [hfaults])]
      simp only [l', m, s.fill_none hcopy, hevents]
      rfl
  | some c =>
      obtain ⟨start, src, size⟩ := c
      have hfaults : s.faults = decide (4096 < start.toNat + size.toNat) := by
        simp [SegPage.faults, SegPage.copy, hcopy]
      have hevents : s.copyEvents = [.copy src size.toNat] := s.copyEvents_some hcopy
      simp only [l', m, s.fill_some hcopy, hevents, hfaults, decide_eq_true_eq, List.append_assoc,
        List.singleton_append]
      rfl

/-! ## The address space -/

/-- The last of the pages with a number; it has replaced the others. -/
def lastWith (done : List SegPage) (v : ℕ) : Option SegPage :=
  done.reverse.find? fun s => s.number = v

/-- The file buffer lies in pages that are in use, and page 0 is none of them. -/
structure Buffer (m₁ : Machine) (phys : Word) (limit : ℕ) (buf : ℕ → UInt8) : Prop where
  bytes : ∀ k < limit, byteAt m₁.mem phys k = buf k
  used : ∀ k < limit,
    bitmapTest m₁.pmm.bitmap ((phys + BitVec.ofNat 64 k).toNat / 4096) = true
  ne_zero : ∀ k < limit, (phys + BitVec.ofNat 64 k).toNat / 4096 ≠ 0

/-- The address space after the pages `done` have been mapped: its tables are those above
these pages, its leaves are these pages, and none has been lost unless a page occurs
twice. -/
structure Placed (m₁ m : Machine) (root : ℕ) (pages S : List ℕ) (done : List SegPage) : Prop where
  half : Half m₁ m root pages S
  low : ∀ s ∈ done, s.vaddr.toNat < 2 ^ 47
  tables : ∀ q, LowerPath 3 q → q ≠ [] →
    ((descend codeNext m.mem root q).isSome = true ↔ ∃ s ∈ done, q <+: tablePath s.vaddr)
  leaves : ∀ v : Word, v.toNat < 2 ^ 47 →
    ((descend codeNext m.mem root (indices v)).isSome = true ↔
      v.toNat / 4096 ∈ done.map SegPage.number)
  leaks : (∀ x ∈ pages, x ∈ S) ↔ (done.map SegPage.number).Nodup

/-- The pages have been loaded. What they hold is known when the copies stay in the
buffer. -/
structure Progress (buf : ℕ → UInt8) (limit : ℕ) (m₁ m : Machine) (root : ℕ) (pages S : List ℕ)
    (done : List SegPage) : Prop extends Placed m₁ m root pages S done where
  holds : (∀ s ∈ done, s.within limit) → ∀ (v : Word) (x : ℕ) (s : SegPage), v.toNat < 2 ^ 47 →
    descend codeNext m.mem root (indices v) = some x →
    lastWith done (v.toNat / 4096) = some s →
    ∀ i < 4096, loadByte m.mem (x * 4096 + i) = s.byte buf i

theorem lastWith_snoc (done : List SegPage) (s : SegPage) (v : ℕ) :
    lastWith (done ++ [s]) v = if s.number = v then some s else lastWith done v := by
  simp only [lastWith, List.reverse_append, List.reverse_singleton, List.singleton_append,
    List.find?_cons]
  by_cases h : s.number = v
  · simp [h]
  · simp [h]

theorem mem_of_lastWith {v : ℕ} (h : lastWith done v = some s) : s ∈ done ∧ s.number = v := by
  refine ⟨List.mem_reverse.mp (List.mem_of_find?_eq_some h), ?_⟩
  simpa using List.find?_some h

theorem exists_lastWith {v : ℕ} (h : v ∈ done.map SegPage.number) : ∃ s, lastWith done v = some s := by
  obtain ⟨s, hs, hv⟩ := List.mem_map.mp h
  apply Option.isSome_iff_exists.mp
  rw [lastWith, List.find?_isSome]
  exact ⟨s, List.mem_reverse.mpr hs, by simpa using hv⟩

/-- The buffer keeps its contents. -/
theorem Buffer.bytes_of_frame (h : Buffer m₁ phys limit buf)
    (hframe : ∀ t, bitmapTest m₁.pmm.bitmap t = true → t ≠ 0 → m.mem t = m₁.mem t) :
    ∀ k < limit, byteAt m.mem phys k = buf k := by
  intro k hk
  rw [← h.bytes k hk]
  exact loadByte_congr (hframe _ (h.used k hk) (h.ne_zero k hk)) rfl

/-- A page of the lower half is not a table. -/
theorem Half.leaf_not_table {v : Word} (h : Half m₁ m root pages S) (hv : v.toNat < 2 ^ 47)
    (hleaf : descend codeNext m.mem root (indices v) = some n) {q : List ℕ} (hq : LowerPath 3 q) :
    descend codeNext m.mem root q ≠ some n := by
  intro hs
  have heq := h.tree.unshared q (indices v) n (hq.of_le (hq.1.1.trans (by decide)))
    (lowerPath_indices hv) hs hleaf
  have hlen := hq.1.1
  rw [heq] at hlen
  exact absurd hlen (by simp [indices])

theorem prefix_tablePath_of_indices {q : List ℕ} {v : Word} (hq : q.length ≤ 3)
    (h : q <+: indices v) : q <+: tablePath v := by
  rw [indices_eq] at h
  exact List.prefix_of_prefix_length_le h (List.prefix_append _ _) (by simpa [tablePath] using hq)

/-- Numbers of pages stand for the indices of the lower half. -/
theorem indices_eq_iff {u v : Word} (hu : u.toNat < 2 ^ 47) (hv : v.toNat < 2 ^ 47) :
    indices u = indices v ↔ u.toNat / 4096 = v.toNat / 4096 :=
  ⟨samePage_of_indices (.inl hu) hv, indices_of_samePage⟩

section Mapped

variable {m' : Machine} {new : List ℕ}
  (hp : Placed m₁ m root pages S done) (hnot : n ∉ pages)
  (hmapped : Mapped m₁ m.allocPage.2 m' root (pages ++ [n]) S s.vaddr n new)
  (hlow : s.vaddr.toNat < 2 ^ 47)

include hp hnot hmapped

theorem Placed.fresh : n ∉ S ∧ n ∉ new ∧ bitmapTest m₁.pmm.bitmap n = false := by
  have hnodup := hmapped.half.took.nodup
  refine ⟨fun h => hnot (hp.half.sub n h), fun h => ?_, hmapped.half.took.clear n (by simp)⟩
  exact (List.disjoint_of_nodup_append hnodup) (by simp) h

include hlow

/-- The tree has lost a page exactly when one has been mapped twice. -/
theorem Placed.leaks_snoc :
    (∀ x ∈ pages ++ [n] ++ new,
      x ∈ leafPages m.allocPage.2 root (indices s.vaddr) (S ++ new) n) ↔
        ((done ++ [s]).map SegPage.number).Nodup := by
  obtain ⟨hnS, hnNew, _⟩ := hp.fresh hnot hmapped
  have hdisjoint := List.disjoint_of_nodup_append hmapped.half.took.nodup
  have hleaf := hp.leaves s.vaddr hlow
  have hmem : ∀ x, x ∈ leafPages m.allocPage.2 root (indices s.vaddr) (S ++ new) n ↔
      ((x ∈ S ∨ x ∈ new) ∧ descend codeNext m.mem root (indices s.vaddr) ≠ some x) ∨ x = n := by
    intro x
    rw [mem_leafPages, List.mem_append, Machine.allocPage_mem]
  have hnodup : ((done ++ [s]).map SegPage.number).Nodup ↔
      (done.map SegPage.number).Nodup ∧ s.number ∉ done.map SegPage.number := by
    rw [List.map_append, List.map_singleton, List.nodup_append_comm, List.singleton_append,
      List.nodup_cons, and_comm]
  rw [hnodup, ← hp.leaks]
  constructor
  · intro hall
    constructor
    · intro x hx
      rcases (hmem x).mp (hall x (by simp [hx])) with ⟨hx' | hx', _⟩ | rfl
      · exact hx'
      · exact (hdisjoint (List.mem_append_left _ hx) hx').elim
      · exact (hnot hx).elim
    · intro hdup
      obtain ⟨y, hy⟩ := Option.isSome_iff_exists.mp (hleaf.mpr hdup)
      have hyS := (hp.half.tree.reach y).mp ⟨_, lowerPath_indices hlow, hy⟩
      rcases (hmem y).mp (hall y (by simp [hp.half.sub y hyS])) with ⟨_, hne⟩ | rfl
      · exact hne hy
      · exact hnS hyS
  · rintro ⟨hall, hnew⟩ x hx
    have hnone : descend codeNext m.mem root (indices s.vaddr) = none := by
      rw [← Option.not_isSome_iff_eq_none, hleaf]
      exact hnew
    rw [hmem, hnone]
    simp only [List.mem_append, List.mem_singleton] at hx
    rcases hx with (hx | rfl) | hx
    · exact .inl ⟨.inl (hall x hx), by simp⟩
    · exact .inr rfl
    · exact .inl ⟨.inr hx, by simp⟩

section Stored

variable {mem' : PhysMem} (hother : ∀ t, t ≠ n → mem' t = m'.mem t)

include hother

omit hp hnot in
/-- The leaf of the page that has been entered, whatever is stored there. -/
theorem leaf_stored : descend codeNext mem' root (indices s.vaddr) = some n := by
  obtain ⟨_, hpaths⟩ := hmapped.half.storeData hother (by simp)
    (fun q hq => Half.leaf_not_table hmapped.half hlow hmapped.leaf hq)
  rw [hpaths _ (lowerPath_indices hlow), hmapped.leaf]

/-- A leaf at another address is where it was, with the same contents. -/
theorem Placed.else_snoc {v : Word} (hv : v.toNat < 2 ^ 47) (hne : v.toNat / 4096 ≠ s.number) :
    descend codeNext mem' root (indices v) = descend codeNext m.mem root (indices v) ∧
      ∀ x, descend codeNext m.mem root (indices v) = some x → mem' x = m.mem x := by
  obtain ⟨hnS, _, _⟩ := hp.fresh hnot hmapped
  obtain ⟨_, hpaths⟩ := hmapped.half.storeData hother (by simp)
    (fun q hq => Half.leaf_not_table hmapped.half hlow hmapped.leaf hq)
  constructor
  · rw [hpaths _ (lowerPath_indices hv), hmapped.others _ (lowerPath_indices hv),
      Machine.allocPage_mem]
    intro hpre
    exact hne ((indices_eq_iff hv hlow).mp (hpre.eq_of_length rfl))
  · intro x hx
    have hxS := (hp.half.tree.reach x).mp ⟨_, lowerPath_indices hv, hx⟩
    have hxn : x ≠ n := by
      rintro rfl
      exact hnS hxS
    have hxNew : x ∉ new := fun h => (List.disjoint_of_nodup_append hmapped.half.took.nodup)
      (List.mem_append_left _ (hp.half.sub x hxS)) h
    rw [hother x hxn, hmapped.same x hxNew, Machine.allocPage_mem]
    intro q hq
    exact Half.leaf_not_table hp.half hv hx hq

/-- The page that has been entered, whatever is stored there. -/
theorem Placed.snoc : Placed m₁ { m' with mem := mem' } root (pages ++ [n] ++ new)
    (leafPages m.allocPage.2 root (indices s.vaddr) (S ++ new) n) (done ++ [s]) := by
  obtain ⟨hhalf, hpaths⟩ := hmapped.half.storeData hother (by simp)
    (fun q hq => Half.leaf_not_table hmapped.half hlow hmapped.leaf hq)
  refine ⟨hhalf, ?_, ?_, ?_, hp.leaks_snoc hnot hmapped hlow⟩
  · intro s' hs'
    rcases List.mem_append.mp hs' with hs' | hs'
    · exact hp.low s' hs'
    · rw [List.mem_singleton.mp hs']
      exact hlow
  · intro q hq hne
    have hq4 : LowerPath 4 q := hq.of_le (hq.1.1.trans (by decide))
    simp only [hpaths q hq4, List.mem_append, List.mem_singleton, or_and_right, exists_or,
      exists_eq_left]
    by_cases hpre : q <+: tablePath s.vaddr
    · simp [hpre, hmapped.tables q hpre]
    · have hnot : ¬ q <+: indices s.vaddr :=
        fun h => hpre (prefix_tablePath_of_indices hq.1.1 h)
      rw [hmapped.others q hq4 hnot, Machine.allocPage_mem, hp.tables q hq hne]
      simp [hpre]
  · intro v hv
    rw [List.map_append, List.map_singleton, List.mem_append, List.mem_singleton]
    by_cases hnumber : v.toNat / 4096 = s.number
    · rw [(indices_eq_iff hv hlow).mpr hnumber]
      simp only [leaf_stored hmapped hlow hother, hnumber]
      simp
    · simp only [(hp.else_snoc hnot hmapped hlow hother hv hnumber).1, hp.leaves v hv, hnumber,
        or_false]

end Stored

omit hp in
/-- The page that has been entered and filled. -/
theorem Progress.snoc (hp : Progress buf limit m₁ m root pages S done) (hfaults : s.faults = false)
    (hn : n < 2 ^ 40) (hbuffer : Buffer m₁ phys limit buf) :
    Progress buf limit m₁ { m' with mem := s.fill phys m'.mem n } root (pages ++ [n] ++ new)
      (leafPages m.allocPage.2 root (indices s.vaddr) (S ++ new) n) (done ++ [s]) := by
  have hplaced := hp.toPlaced
  obtain ⟨_, _, hclear⟩ := hplaced.fresh hnot hmapped
  have hother : ∀ t, t ≠ n → s.fill phys m'.mem n t = m'.mem t :=
    fun t ht => s.fill_other hn hfaults m'.mem ht
  refine ⟨hplaced.snoc hnot hmapped hlow hother, ?_⟩
  intro hin v x s' hv hx hlast i hi
  rw [lastWith_snoc] at hlast
  simp only at hx ⊢
  by_cases hnumber : v.toNat / 4096 = s.number
  · rw [if_pos hnumber.symm] at hlast
    obtain rfl := Option.some_inj.mp hlast
    rw [(indices_eq_iff hv hlow).mpr hnumber, leaf_stored hmapped hlow hother] at hx
    obtain rfl := Option.some_inj.mp hx
    refine s.loadByte_fill hn hfaults (hbuffer.bytes_of_frame hmapped.half.guarded.frame) ?_
      (hin s (by simp)) hi
    intro k hk
    exact ne_of_used (hbuffer.used k hk) hclear
  · rw [if_neg (Ne.symm hnumber)] at hlast
    obtain ⟨hsame, hpage⟩ := hplaced.else_snoc hnot hmapped hlow hother hv hnumber
    rw [hsame] at hx
    rw [loadByte_congr (hpage x hx) (show (x * 4096 + i) / 4096 = x by omega)]
    exact hp.holds (fun s'' hs'' => hin s'' (by simp [hs''])) v x s' hv hx hlast i hi

end Mapped

/-! ## One round -/

theorem loadPage_full (hzero : bitmapTest l.machine.pmm.bitmap 0 = true)
    (hfull : freePages l.machine = 0) (phys map : Word) (seg : Segment) (j : ℕ) :
    loadPage phys map seg j l = .stop .noMemory l := by
  obtain ⟨hfail, hsame⟩ := Machine.allocPage_full hzero hfull
  simp only [loadPage, if_pos hfail, hsame]

/-- What a round adds to the log. -/
def SegPage.events (map : Word) (l : Loader) (s : SegPage) : List Event :=
  .map l.machine.allocPage.2 map s.vaddr :: s.copyEvents

/-- The outcomes of a round for the page `s` after those of `done`. -/
inductive PageCase (buf : ℕ → UInt8) (limit : ℕ) (m₁ : Machine) (root : ℕ) (map : Word)
    (done : List SegPage) (s : SegPage) (l : Loader) : Step → Prop where
  | full (hfull : freePages l.machine = 0) : PageCase buf limit m₁ root map done s l
      (.stop .noMemory l)
  | faults (l' : Loader) (hpos : 0 < freePages l.machine) (hfaults : s.faults = true)
      (hlog : l'.log = l.log ++ s.events map l) :
      PageCase buf limit m₁ root map done s l (.stop .copyFaults l')
  | mapped (l' : Loader) (pages S : List ℕ) (hfaults : s.faults = false)
      (hlog : l'.log = l.log ++ s.events map l)
      (hallocs : ∀ a ∈ mapAllocs l.machine.allocPage.2 map s.vaddr, a ≠ 0#64)
      (hfree : freePages l'.machine + 1 + tablesFor (done.map SegPage.number) s.number =
        freePages l.machine)
      (hp : Progress buf limit m₁ l'.machine root pages S (done ++ [s])) :
      PageCase buf limit m₁ root map done s l (.go l')
  | starved (l' : Loader) (pages S : List ℕ) (hpos : 0 < freePages l.machine)
      (hfaults : s.faults = false) (hlog : l'.log = l.log ++ s.events map l)
      (halloc : 0#64 ∈ mapAllocs l.machine.allocPage.2 map s.vaddr)
      (hshort : freePages l.machine < 1 + tablesFor (done.map SegPage.number) s.number)
      (hstarved : Starved m₁ l'.machine root pages S) :
      PageCase buf limit m₁ root map done s l (.go l')

theorem Progress.loadPage_case (hp : Progress buf limit m₁ l.machine root pages S done)
    (hbuffer : Buffer m₁ phys limit buf) (hroot : map.toNat / 4096 = root)
    (hlow : s.vaddr.toNat < 2 ^ 47) :
    PageCase buf limit m₁ root map done s l (loadPage phys map s.seg s.index l) := by
  obtain ⟨_, _, hfull⟩ | ⟨n, _, hn, halloc, hok, takes, hleft⟩ :=
    l.machine.allocPage_cases hp.half.zero_used
  · rw [loadPage_full hp.half.zero_used hfull]
    exact .full hfull
  · obtain ⟨hnot, htaken⟩ := hp.half.take takes
    have hout : n ∉ S := fun h => hnot (hp.half.sub n h)
    have hmissing : missingTables l.machine.allocPage.2.mem root [] (tablePath s.vaddr) =
        tablesFor (done.map SegPage.number) s.number :=
      missingTables_eq hp.low hlow hp.tables
    have heq := loadPage_eq phys map s hn halloc hok
    rw [heq]
    cases hfaults : s.faults with
    | true =>
        rw [if_pos rfl]
        exact .faults _ (by omega) hfaults rfl
    | false =>
        rw [if_neg (by simp)]
        obtain ⟨new, hallocs, hmapped⟩ | ⟨new, hzero, hshort, hstarved⟩ :=
          htaken.mapPage hroot hlow hn (List.mem_append_right _ (List.mem_singleton_self n)) hout
        · refine .mapped _ _ _ hfaults rfl hallocs ?_
            (hp.snoc hnot hmapped hlow hfaults hn hbuffer)
          have hcount := hmapped.count
          have hused := hmapped.left
          have hsamePmm : freePages { vmmMapPage l.machine.allocPage.2 map s.vaddr (pageAddr n)
              6#64 with mem := s.fill phys (vmmMapPage l.machine.allocPage.2 map s.vaddr
                (pageAddr n) 6#64).mem n } =
              freePages (vmmMapPage l.machine.allocPage.2 map s.vaddr (pageAddr n) 6#64) :=
            freePages_congr rfl
          rw [hmissing] at hcount
          simp only [hsamePmm]
          omega
        · have hnNew : n ∉ S ++ new := by
            rw [List.mem_append, not_or]
            exact ⟨hout, fun h => (List.disjoint_of_nodup_append hstarved.took.nodup)
              (by simp) h⟩
          rw [hmissing] at hshort
          refine .starved _ _ _ (by omega) hfaults rfl hzero (by omega)
            (hstarved.storeData (n := n) ?_ (hstarved.took.clear n (by simp)) hnNew)
          intro t ht
          exact s.fill_other hn hfaults _ ht

end LispDos.Process
