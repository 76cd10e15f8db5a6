import LispDos.Kernel.RawProcess
import LispDos.Verification.Process.Outcomes
import LispDos.Verification.Raw.Sessions

/-! # Loading beside the bitmap

The loops of `process_exec` on the two machines go on side by side, until a page at or above
the limit of the lower half is mapped. -/

namespace LispDos.Raw

open Foundation Memory Process

variable {H D : Set ℕ} {r r' : Machine} {m m' m₁ : Memory.Machine} {root n limit : ℕ}
  {pages S new : List ℕ} {phys map : Word} {s : SegPage} {l : Loader} {l' : Process.Loader}
  {mem mem' : PhysMem} {buf : ℕ → UInt8}

/-! ## Filling a page -/

theorem storeByte_page {t a : ℕ} (x : UInt8) (hsame : mem t = mem' t) (ha : a / 4096 = t) :
    storeByte mem a x t = storeByte mem' a x t := by
  subst ha
  funext j
  rw [storeByte, storeByte, writeWord_apply, writeWord_apply, hsame]

/-- What a copy leaves in a page does not depend on the other pages, but for the bytes that are
copied. -/
theorem memcpy_page {dest src : Word} {t k : ℕ} (hsame : mem t = mem' t)
    (hdest : dest.toNat / 4096 = t) (hfit : dest.toNat % 4096 + k ≤ 4096)
    (hsrc : ∀ i < k, byteAt mem src i = byteAt mem' src i ∧
      (src + BitVec.ofNat 64 i).toNat / 4096 ≠ t) :
    memcpy mem dest src k t = memcpy mem' dest src k t := by
  induction k with
  | zero => exact hsame
  | succ k ih =>
      have hlast := hsrc k (Nat.lt_succ_self k)
      have hbyte : ∀ mem : PhysMem, byteAt (memcpy mem dest src k) src k = byteAt mem src k :=
        fun mem => loadByte_congr (memcpy_other mem src hdest (by omega) hlast.2) rfl
      obtain ⟨haddr, hpage⟩ := page_of_offset hdest (show dest.toNat % 4096 + k < 4096 by omega)
      rw [memcpy_succ, memcpy_succ, hbyte, hbyte, hlast.1]
      exact storeByte_page _ (ih (by omega) fun i hi => hsrc i (by omega)) (by rw [haddr, hpage])

/-- A page is filled in the same way from buffers that agree. -/
theorem fill_page (hn : n < 2 ^ 40) (hfaults : s.faults = false) (hin : s.within limit)
    (hbuf : ∀ k < limit, byteAt mem phys k = byteAt mem' phys k ∧
      (phys + BitVec.ofNat 64 k).toNat / 4096 ≠ n) :
    s.fill phys mem n n = s.fill phys mem' n n := by
  have hcleared : clearTable mem n n = clearTable mem' n n := by
    funext j
    rw [clearTable_apply, clearTable_apply, if_pos rfl, if_pos rfl]
  cases hcopy : s.copy with
  | none => rw [SegPage.fill_none hcopy, SegPage.fill_none hcopy, hcleared]
  | some c =>
      obtain ⟨start, src, size⟩ := c
      have hwithin := hin start src size hcopy
      rw [SegPage.fill_some hcopy, SegPage.fill_some hcopy]
      by_cases hpos : 0 < size.toNat
      · obtain ⟨_, hpage, hroom⟩ := fill_dest hn (s.fits hfaults hcopy) hpos
        refine memcpy_page hcleared hpage hroom ?_
        intro i hi
        have hsrc : phys + src + BitVec.ofNat 64 i = phys + BitVec.ofNat 64 (src.toNat + i) := by
          rw [BitVec.ofNat_add, BitVec.ofNat_toNat, BitVec.setWidth_eq, BitVec.add_assoc]
        obtain ⟨hbyte, hne⟩ := hbuf (src.toNat + i) (by omega)
        have hclear : ∀ mem : PhysMem,
            byteAt (clearTable mem n) (phys + src) i = byteAt mem phys (src.toNat + i) := by
          intro mem
          rw [byteAt_add]
          refine loadByte_congr ?_ rfl
          funext j
          rw [clearTable_apply, if_neg hne]
        exact ⟨by rw [hclear, hclear, hbyte], by rwa [hsrc]⟩
      · have hzero : size.toNat = 0 := by omega
        rw [hzero, memcpy_zero, memcpy_zero, hcleared]

/-! ## The two machines -/

/-- The pages `H` and those of the file buffer are in use on the machine `m₁`, and they have no
page in common. -/
structure Ground (H : Set ℕ) (m₁ : Memory.Machine) (phys : Word) (limit : ℕ) (buf : ℕ → UInt8) :
    Prop where
  used : ∀ x ∈ H, bitmapTest m₁.pmm.bitmap x = true
  zero : 0 ∉ H
  buffer : Buffer m₁ phys limit buf
  apart : ∀ k < limit, (phys + BitVec.ofNat 64 k).toNat / 4096 ∉ H

/-- The machines while pages are loaded into an address space. They also differ on the pages
`D`, which were filled from outside of the buffer and are no tables. -/
structure Going (H : Set ℕ) (m₁ : Memory.Machine) (root : ℕ) (pages S : List ℕ) (D : Set ℕ)
    (r : Machine) (m : Memory.Machine) : Prop where
  half : Half m₁ m root pages S
  sim : Sim (H ∪ D) r m
  stores : ∀ t, r.Stores t → t ∈ H
  dirty : ∀ x ∈ D, x ∈ pages ∧ ∀ q, LowerPath 3 q → descend codeNext m.mem root q ≠ some x

/-- The machines once a table could not be allocated. -/
structure Stuck (H : Set ℕ) (m₁ : Memory.Machine) (root : ℕ) (pages S : List ℕ) (D : Set ℕ)
    (r : Machine) (m : Memory.Machine) : Prop where
  starved : Starved m₁ m root pages S
  sim : Sim (H ∪ D) r m
  stores : ∀ t, r.Stores t → t ∈ H
  dirty : ∀ x ∈ D, x ∈ pages ∧ x ≠ root

/-- Pages taken since are neither among `H` nor in the buffer. -/
theorem Ground.not_mem (h : Ground H m₁ phys limit buf) (took : Took m₁.pmm m.pmm pages) {x : ℕ}
    (hx : x ∈ pages) : x ∉ H := by
  intro hin
  have hclear := took.clear x hx
  rw [h.used x hin] at hclear
  cases hclear

theorem Ground.bytes (h : Ground H m₁ phys limit buf) (hsim : Sim (H ∪ D) r m)
    (hdirty : ∀ x ∈ D, bitmapTest m₁.pmm.bitmap x = false) :
    ∀ k < limit, byteAt r.mem phys k = byteAt m.mem phys k := by
  intro k hk
  refine loadByte_congr (hsim.mem _ ?_) rfl
  rintro (hin | hin)
  · exact h.apart k hk hin
  · have hclear := hdirty _ hin
    rw [h.buffer.used k hk] at hclear
    cases hclear

/-- The pages that differ are in use. -/
theorem Going.used (h : Going H m₁ root pages S D r m) (hground : Ground H m₁ phys limit buf) :
    ∀ x ∈ H ∪ D, bitmapTest m.pmm.bitmap x = true := by
  rintro x (hx | hx)
  · rw [h.half.took.bits, hground.used x hx, Bool.or_true]
  · rw [h.half.took.bits, decide_eq_true (h.dirty x hx).1, Bool.true_or]

/-- They are not page 0, and cannot be allocated. -/
theorem Going.bad (h : Going H m₁ root pages S D r m) (hground : Ground H m₁ phys limit buf) :
    ∀ x ∈ H ∪ D, x ≠ 0 ∧ x ∉ clearPages m.pmm.bitmap m.pmm.highestPage := by
  intro x hx
  refine ⟨?_, ?_⟩
  · rintro rfl
    rcases hx with hx | hx
    · exact hground.zero hx
    · have hclear := h.half.took.clear 0 (h.dirty 0 hx).1
      rw [h.half.zero] at hclear
      cases hclear
  · rw [mem_clearPages, h.used hground x hx]
    exact fun hboth => absurd hboth.2 (by decide)

/-- The tables of the address space do not differ. -/
theorem Going.table (h : Going H m₁ root pages S D r m) (hground : Ground H m₁ phys limit buf)
    {q : List ℕ} {t : ℕ} (hq : LowerPath 3 q) (ht : descend codeNext m.mem root q = some t) :
    t ∉ H ∪ D := by
  have hpage := h.half.mem_pages (hq.of_le (hq.1.1.trans (by decide))) ht
  rintro (hin | hin)
  · exact hground.not_mem h.half.took hpage hin
  · exact (h.dirty t hin).2 q hq ht

theorem Going.mapTables (h : Going H m₁ root pages S D r m) (hground : Ground H m₁ phys limit buf)
    {v : Word} (hv : v.toNat < 2 ^ 47) (hroot : map.toNat / 4096 = root) :
    ∀ x ∈ mapTables m map v, x ∉ H ∪ D := by
  refine mapTables_off (h.bad hground) ?_
  intro q t hq ht
  have hpath := lowerPath_tablePath hv hq
  rw [hroot] at ht
  have hpath4 : LowerPath 4 q := hpath.of_le (hpath.1.1.trans (by decide))
  have hused : bitmapTest m.pmm.bitmap t = true := by
    rw [h.half.took.bits, decide_eq_true (h.half.mem_pages hpath4 ht), Bool.true_or]
  refine ⟨h.half.ne_zero hpath4 ht, ?_, h.table hground hpath ht⟩
  rw [mem_clearPages, hused]
  exact fun hboth => absurd hboth.2 (by decide)

/-- A page is allocated. -/
theorem Going.take (h : Going H m₁ root pages S D r m) (takes : Takes m.pmm m.allocPage.2.pmm {n}) :
    n ∉ pages ∧ n ∉ S ∧
      Going H m₁ root (pages ++ [n]) S D (pmmAllocPage r).2 m.allocPage.2 := by
  obtain ⟨hnot, hhalf⟩ := h.half.take takes
  refine ⟨hnot, fun hin => hnot (h.half.sub n hin), hhalf, h.sim.allocPage.2,
    fun t ht => h.stores t (stores_alloc.mp ht), ?_⟩
  intro x hx
  exact ⟨List.mem_append_left _ (h.dirty x hx).1, (h.dirty x hx).2⟩

/-- A page that was no table, and that is neither new nor the one that has been entered, is no
table after a mapping either. -/
theorem not_table_mapped {v : Word} (hhalf : Half m₁ m root pages S)
    (hmapped : Mapped m₁ m m' root pages S v n new) {x : ℕ}
    (hnew : x ∉ new) (hxn : x ≠ n)
    (hnot : ∀ q, LowerPath 3 q → descend codeNext m.mem root q ≠ some x) :
    ∀ q, LowerPath 3 q → descend codeNext m'.mem root q ≠ some x := by
  intro q hq hx
  have hq4 : LowerPath 4 q := hq.of_le (hq.1.1.trans (by decide))
  have hin := (hmapped.half.tree.reach x).mp ⟨q, hq4, hx⟩
  obtain ⟨hS, hleaf⟩ := (mem_leafPages.mp hin).resolve_right hxn
  obtain ⟨q', hq', hx'⟩ := (hhalf.tree.reach x).mpr ((List.mem_append.mp hS).resolve_right hnew)
  -- the page was a leaf, and it is one still
  have hlen : ¬ q'.length ≤ 3 := fun hle => hnot q' (hq'.of_le hle) hx'
  have hother : ¬ q' <+: indices v := by
    intro hpre
    have hle : (indices v).length ≤ q'.length := by
      simp only [indices, List.length_cons, List.length_nil]
      omega
    rw [hpre.eq_of_length_le hle] at hx'
    exact hleaf hx'
  rw [← hmapped.others q' hq' hother] at hx'
  have heq := hmapped.half.tree.unshared q q' x hq4 hq' hx hx'
  have hshort := hq.1.1
  rw [heq] at hshort
  exact hlen hshort

theorem Sim.fill (h : Sim H r m) (hn : n < 2 ^ 40) (hstores : ¬ r.Stores n)
    (hfaults : s.faults = false) :
    Sim (H ∪ {n}) { r with mem := s.fill phys r.mem n } { m with mem := s.fill phys m.mem n } := by
  refine (h.mono Set.subset_union_left).withMem ?_ ?_
  · intro t ht
    refine s.fill_other hn hfaults r.mem ?_
    rintro rfl
    exact hstores ht
  · intro t ht
    have hne : t ≠ n := fun heq => ht (.inr heq)
    rw [s.fill_other hn hfaults r.mem hne, s.fill_other hn hfaults m.mem hne,
      h.mem t fun hin => ht (.inl hin)]

theorem Sim.fill_within (h : Sim H r m) (hn : n < 2 ^ 40) (hstores : ¬ r.Stores n)
    (hfaults : s.faults = false) (hin : s.within limit)
    (hbuf : ∀ k < limit, byteAt r.mem phys k = byteAt m.mem phys k ∧
      (phys + BitVec.ofNat 64 k).toNat / 4096 ≠ n) :
    Sim H { r with mem := s.fill phys r.mem n } { m with mem := s.fill phys m.mem n } := by
  refine h.withMem ?_ ?_
  · intro t ht
    refine s.fill_other hn hfaults r.mem ?_
    rintro rfl
    exact hstores ht
  · intro t ht
    by_cases hne : t = n
    · rw [hne]
      exact fill_page hn hfaults hin hbuf
    · rw [s.fill_other hn hfaults r.mem hne, s.fill_other hn hfaults m.mem hne, h.mem t ht]

/-- The pages that differ once the page `n` has been filled. -/
def spoiled (D : Set ℕ) (limit n : ℕ) (s : SegPage) : Set ℕ :=
  {x | x ∈ D ∨ x = n ∧ ¬ s.within limit}

theorem Sim.fillPage (h : Sim (H ∪ D) r m) (hn : n < 2 ^ 40) (hstores : ¬ r.Stores n)
    (hfaults : s.faults = false)
    (hbuf : ∀ k < limit, byteAt r.mem phys k = byteAt m.mem phys k ∧
      (phys + BitVec.ofNat 64 k).toNat / 4096 ≠ n) :
    Sim (H ∪ spoiled D limit n s) { r with mem := s.fill phys r.mem n }
      { m with mem := s.fill phys m.mem n } := by
  by_cases hin : s.within limit
  · have hset : H ∪ spoiled D limit n s = H ∪ D := by
      ext x
      simp [spoiled, hin]
    rw [hset]
    exact h.fill_within hn hstores hfaults hin hbuf
  · have hset : H ∪ spoiled D limit n s = H ∪ D ∪ {n} := by
      ext x
      simp only [spoiled, Set.mem_union, Set.mem_ofPred_eq, Set.mem_singleton_iff, hin,
        not_false_eq_true, and_true, or_assoc]
    rw [hset]
    exact h.fill hn hstores hfaults

/-- The machines after a round for the page `s` of which the copy fits. -/
inductive Rounded (H : Set ℕ) (m₁ : Memory.Machine) (root : ℕ) (D : Set ℕ) (r : Machine)
    (m : Memory.Machine) : Prop where
  | going (pages S : List ℕ) (going : Going H m₁ root pages S D r m)
  | stuck (pages S : List ℕ) (stuck : Stuck H m₁ root pages S D r m)

/-- A page has been mapped on both machines, and what was stored into it differs at most if it is
among `E`. -/
theorem Going.stored (h : Going H m₁ root pages S D r m) {v : Word} (hlow : v.toNat < 2 ^ 47)
    (hroot : map.toNat / 4096 = root) (hn : n < 2 ^ 40) (hin : n ∈ pages) (hout : n ∉ S)
    (hD : n ∉ D) {E : Set ℕ} (hE : ∀ x ∈ E, x ∈ D ∨ x = n)
    (hother : ∀ t, t ≠ n → mem' t = (Memory.vmmMapPage m map v (pageAddr n) 6#64).mem t)
    (hsim : Sim (H ∪ E) { vmmMapPage r map v (pageAddr n) 6#64 with mem := mem }
      { Memory.vmmMapPage m map v (pageAddr n) 6#64 with mem := mem' }) :
    Rounded H m₁ root E { vmmMapPage r map v (pageAddr n) 6#64 with mem := mem }
      { Memory.vmmMapPage m map v (pageAddr n) 6#64 with mem := mem' } := by
  have hstores : ∀ t, (vmmMapPage r map v (pageAddr n) 6#64).Stores t → t ∈ H :=
    fun t ht => h.stores t ((vmmMapPage_sameBitmap r map v _ _).stores_iff.mp ht)
  have hpages : ∀ {new : List ℕ}, ∀ x ∈ E, x ∈ pages ++ new := by
    intro new x hx
    rcases hE x hx with hx | rfl
    · exact List.mem_append_left _ (h.dirty x hx).1
    · exact List.mem_append_left _ hin
  obtain ⟨new, _, hmapped⟩ | ⟨new, _, _, hstarved⟩ := h.half.mapPage hroot hlow hn hin hout
  · have hleaf : ∀ q, LowerPath 3 q → descend codeNext
        (Memory.vmmMapPage m map v (pageAddr n) 6#64).mem root q ≠ some n :=
      fun q hq => Half.leaf_not_table hmapped.half hlow hmapped.leaf hq
    obtain ⟨hhalf, hpaths⟩ := hmapped.half.storeData hother (List.mem_append_left _ hin) hleaf
    refine .going _ _ ⟨hhalf, hsim, hstores, fun x hx => ⟨hpages x hx, ?_⟩⟩
    intro q hq
    rw [hpaths q (hq.of_le (hq.1.1.trans (by decide)))]
    rcases hE x hx with hx | rfl
    · have hxn : x ≠ n := fun heq => hD (heq ▸ hx)
      refine not_table_mapped h.half hmapped ?_ hxn (h.dirty x hx).2 q hq
      exact fun hnew => (List.disjoint_of_nodup_append hmapped.half.took.nodup) (h.dirty x hx).1 hnew
    · exact hleaf q hq
  · have hnew : n ∉ S ++ new := by
      rw [List.mem_append, not_or]
      exact ⟨hout, fun hx => (List.disjoint_of_nodup_append hstarved.took.nodup) hin hx⟩
    refine .stuck _ _ ⟨hstarved.storeData hother (h.half.took.clear n hin) hnew, hsim, hstores,
      fun x hx => ⟨hpages x hx, ?_⟩⟩
    rcases hE x hx with hx | rfl
    · rintro rfl
      exact (h.dirty x hx).2 [] (lowerPath_nil 3) rfl
    · rintro rfl
      exact hout h.half.root_mem

theorem Going.mapPage (h : Going H m₁ root pages S D r m) (hground : Ground H m₁ phys limit buf)
    (hroot : map.toNat / 4096 = root) (hlow : s.vaddr.toNat < 2 ^ 47) (hn : n < 2 ^ 40)
    (hin : n ∈ pages) (hout : n ∉ S) (hD : n ∉ D) (hfaults : s.faults = false) :
    let r' := vmmMapPage r map s.vaddr (pageAddr n) 6#64
    let m' := Memory.vmmMapPage m map s.vaddr (pageAddr n) 6#64
    Rounded H m₁ root (spoiled D limit n s) { r' with mem := s.fill phys r'.mem n }
      { m' with mem := s.fill phys m'.mem n } := by
  intro r' m'
  have hafter : Sim (H ∪ D) r' m' := h.sim.mapPage (h.mapTables hground hlow hroot) _ _
  have hnH := hground.not_mem h.half.took hin
  have hstores : ¬ r'.Stores n := hafter.not_stores fun hboth => hboth.elim hnH hD
  have hbytes := hground.bytes hafter fun x hx => h.half.took.clear x (h.dirty x hx).1
  refine h.stored hlow hroot hn hin hout hD (fun x hx => hx.imp_right And.left)
    (fun t ht => s.fill_other hn hfaults m'.mem ht) ?_
  exact hafter.fillPage hn hstores hfaults fun k hk =>
    ⟨hbytes k hk, ne_of_used (hground.buffer.used k hk) (h.half.took.clear n hin)⟩

/-! ## The two logs -/

/-- Events of the two logs. A mapping is made on machines that agree as `Before` says. -/
inductive EventAlike (Before : Word → Machine → Memory.Machine → Prop) :
    Event → Process.Event → Prop where
  | field (offset : Word) (n : ℕ) : EventAlike Before (.field offset n) (.field offset n)
  | copy (offset : Word) (n : ℕ) : EventAlike Before (.copy offset n) (.copy offset n)
  | map (before : Machine) (before' : Memory.Machine) (map v : Word) (h : Before map before before') :
      EventAlike Before (.map before map v) (.map before' map v)

/-- Every event of one log is in the other. -/
structure LogAlike (Before : Word → Machine → Memory.Machine → Prop) (log : List Event)
    (log' : List Process.Event) : Prop where
  left : ∀ e ∈ log, ∃ e' ∈ log', EventAlike Before e e'
  right : ∀ e' ∈ log', ∃ e ∈ log, EventAlike Before e e'

variable {Before : Word → Machine → Memory.Machine → Prop}

theorem LogAlike.nil : LogAlike Before [] [] := by
  constructor
  · simp
  · simp

theorem LogAlike.append {log₁ log₂ : List Event} {log₁' log₂' : List Process.Event}
    (h₁ : LogAlike Before log₁ log₁') (h₂ : LogAlike Before log₂ log₂') :
    LogAlike Before (log₁ ++ log₂) (log₁' ++ log₂') := by
  constructor
  · intro e he
    rcases List.mem_append.mp he with he | he
    · obtain ⟨e', he', halike⟩ := h₁.left e he
      exact ⟨e', List.mem_append_left _ he', halike⟩
    · obtain ⟨e', he', halike⟩ := h₂.left e he
      exact ⟨e', List.mem_append_right _ he', halike⟩
  · intro e he
    rcases List.mem_append.mp he with he | he
    · obtain ⟨e', he', halike⟩ := h₁.right e he
      exact ⟨e', List.mem_append_left _ he', halike⟩
    · obtain ⟨e', he', halike⟩ := h₂.right e he
      exact ⟨e', List.mem_append_right _ he', halike⟩

theorem LogAlike.singleton {e : Event} {e' : Process.Event} (h : EventAlike Before e e') :
    LogAlike Before [e] [e'] := by
  constructor
  · intro x hx
    exact ⟨e', List.mem_singleton_self e', List.mem_singleton.mp hx ▸ h⟩
  · intro x hx
    exact ⟨e, List.mem_singleton_self e, List.mem_singleton.mp hx ▸ h⟩

/-- The access to the file buffer for a page. -/
def copyEvents (s : SegPage) : List Event :=
  match s.copy with
  | none => []
  | some (_, src, size) => [.copy src size.toNat]

theorem copyEvents_none (h : s.copy = none) : copyEvents s = [] := by
  unfold copyEvents
  simp only [h]

theorem copyEvents_some {start src size : Word} (h : s.copy = some (start, src, size)) :
    copyEvents s = [.copy src size.toNat] := by
  unfold copyEvents
  simp only [h]

theorem copyEvents_alike (s : SegPage) : LogAlike Before (copyEvents s) s.copyEvents := by
  cases hcopy : s.copy with
  | none =>
      rw [copyEvents_none hcopy, SegPage.copyEvents_none hcopy]
      exact .nil
  | some c =>
      obtain ⟨start, src, size⟩ := c
      rw [copyEvents_some hcopy, SegPage.copyEvents_some hcopy]
      exact .singleton (.copy src size.toNat)

/-- The mappings of the loading are made on machines on which it goes on. -/
def MapsOn (H : Set ℕ) (m₁ : Memory.Machine) (map : Word) (r : Machine) (m : Memory.Machine) :
    Prop := ∃ pages S D, Going H m₁ (map.toNat / 4096) pages S D r m

/-- Copies stay in the buffer. -/
def CopiesIn (limit : ℕ) (log : List Process.Event) : Prop :=
  ∀ offset n, .copy offset n ∈ log → offset.toNat + n ≤ limit

/-- The loaders of the two machines. If all copies stayed in the buffer, the pages that were
filled do not differ. -/
structure Paired (H : Set ℕ) (m₁ : Memory.Machine) (root limit : ℕ) (l : Loader)
    (l' : Process.Loader) : Prop where
  logs : LogAlike (MapsOn H m₁) l.log l'.log
  state : ∃ D, Rounded H m₁ root D l.machine l'.machine ∧ (CopiesIn limit l'.log → D = ∅)

/-! ## Steps side by side -/

def Step.log : Step → List Event
  | .go l => l.log
  | .stop _ l => l.log

/-- The log of a step on the other machine. -/
def stepLog : Process.Step → List Process.Event
  | .go l => l.log
  | .stop _ l => l.log

/-- A page at or above the limit of the lower half has been mapped. -/
def Strays (log : List Event) : Prop :=
  ∃ before map v, .map before map v ∈ log ∧ 2 ^ 47 ≤ v.toNat

def Strays' (log : List Process.Event) : Prop :=
  ∃ before map v, .map before map v ∈ log ∧ 2 ^ 47 ≤ v.toNat

/-- Two steps go on together or end in the same way, or they have left the lower half. -/
inductive Abreast (H : Set ℕ) (m₁ : Memory.Machine) (root limit : ℕ) :
    Step → Process.Step → Prop where
  | go (l : Loader) (l' : Process.Loader) (h : Paired H m₁ root limit l l') :
      Abreast H m₁ root limit (.go l) (.go l')
  | stop (exit : ExecExit) (l : Loader) (l' : Process.Loader) (hexit : exit ≠ .copyFaults)
      (h : Paired H m₁ root limit l l') : Abreast H m₁ root limit (.stop exit l) (.stop exit l')
  | faults (l : Loader) (l' : Process.Loader) (logs : LogAlike (MapsOn H m₁) l.log l'.log) :
      Abreast H m₁ root limit (.stop .copyFaults l) (.stop .copyFaults l')
  | strayed (s : Step) (s' : Process.Step) (h : Strays s.log) (h' : Strays' (stepLog s')) :
      Abreast H m₁ root limit s s'

theorem Strays.mono {log log' : List Event} (h : Strays log) (hsub : ∀ e ∈ log, e ∈ log') :
    Strays log' := by
  obtain ⟨before, map, v, hin, hv⟩ := h
  exact ⟨before, map, v, hsub _ hin, hv⟩

theorem Strays'.mono {log log' : List Process.Event} (h : Strays' log)
    (hsub : ∀ e ∈ log, e ∈ log') : Strays' log' := by
  obtain ⟨before, map, v, hin, hv⟩ := h
  exact ⟨before, map, v, hsub _ hin, hv⟩

theorem andThen_log (st : Step) {f : Loader → Step} (hf : ∀ l, ∀ e ∈ l.log, e ∈ (f l).log) :
    ∀ e ∈ st.log, e ∈ (st.andThen f).log := by
  cases st with
  | go l => exact hf l
  | stop exit l => exact fun e he => he

theorem andThen_log' (st : Process.Step) {f : Process.Loader → Process.Step}
    (hf : ∀ l, ∀ e ∈ l.log, e ∈ stepLog (f l)) : ∀ e ∈ stepLog st, e ∈ stepLog (st.andThen f) := by
  cases st with
  | go l => exact hf l
  | stop exit l => exact fun e he => he

theorem Abreast.andThen {st : Step} {st' : Process.Step} {f : Loader → Step}
    {f' : Process.Loader → Process.Step} (h : Abreast H m₁ root limit st st')
    (hnext : ∀ l l', Paired H m₁ root limit l l' → Abreast H m₁ root limit (f l) (f' l'))
    (hf : ∀ l, ∀ e ∈ l.log, e ∈ (f l).log) (hf' : ∀ l, ∀ e ∈ l.log, e ∈ stepLog (f' l)) :
    Abreast H m₁ root limit (st.andThen f) (st'.andThen f') := by
  cases h with
  | go l l' h => exact hnext l l' h
  | stop exit l l' hexit h => exact .stop exit l l' hexit h
  | faults l l' logs => exact .faults l l' logs
  | strayed _ _ h h' =>
      exact .strayed _ _ (h.mono (andThen_log st hf)) (h'.mono (andThen_log' st' hf'))

/-! ## Rounds -/

/-- A round of the page loop for which a page could be allocated. -/
theorem loadPage_eq (phys map : Word) (s : SegPage) (hn : n < 2 ^ 40)
    (halloc : (pmmAllocPage l.machine).1 = pageAddr n) (hok : (pmmAllocPage l.machine).1 ≠ 0#64) :
    let r := vmmMapPage (pmmAllocPage l.machine).2 map s.vaddr (pageAddr n) 6#64
    let next : Loader := ⟨{ r with mem := s.fill phys r.mem n },
      l.log ++ (.map (pmmAllocPage l.machine).2 map s.vaddr :: copyEvents s)⟩
    loadPage phys map s.seg s.index l = if s.faults then .stop .copyFaults next else .go next := by
  have hdiv : (pageAddr n).toNat / 4096 = n := pageAddr_div (hn.trans (by decide))
  have hne : pageAddr n ≠ 0#64 := halloc ▸ hok
  intro r next
  simp only [loadPage, halloc, if_neg hne, hdiv]
  cases hcopy : s.seg.copy s.index with
  | none =>
      have hnone : s.copy = none := hcopy
      have hfaults : s.faults = false := by simp [SegPage.faults, hnone]
      rw [if_neg (by simp [hfaults])]
      simp only [next, r, s.fill_none hcopy, copyEvents_none hnone]
      rfl
  | some c =>
      obtain ⟨start, src, size⟩ := c
      have hsome : s.copy = some (start, src, size) := hcopy
      have hfaults : s.faults = decide (4096 < start.toNat + size.toNat) := by
        simp [SegPage.faults, hsome]
      simp only [next, r, s.fill_some hcopy, copyEvents_some hsome, hfaults, decide_eq_true_eq,
        List.append_assoc, List.singleton_append]
      rfl

theorem loadPage_full (hfull : (pmmAllocPage l.machine).1 = 0#64) (phys map : Word) (seg : Segment)
    (j : ℕ) : loadPage phys map seg j l = .stop .noMemory ⟨(pmmAllocPage l.machine).2, l.log⟩ := by
  simp only [loadPage, if_pos hfull]

/-! A round only adds to the logs. -/

theorem loadPage_log (phys map : Word) (seg : Segment) (j : ℕ) (l : Loader) :
    ∀ e ∈ l.log, e ∈ (loadPage phys map seg j l).log := by
  intro e he
  simp only [loadPage]
  split
  · exact he
  · split
    · exact List.mem_append_left _ he
    · split
      · exact List.mem_append_left _ (List.mem_append_left _ he)
      · exact List.mem_append_left _ (List.mem_append_left _ he)

theorem loadPages_log (phys map : Word) (seg : Segment) (k j : ℕ) (l : Loader) :
    ∀ e ∈ l.log, e ∈ (loadPages phys map seg k j l).log := by
  induction k generalizing j l with
  | zero => exact fun e he => he
  | succ k ih =>
      intro e he
      exact andThen_log _ (fun l => ih (j + 1) l) e (loadPage_log phys map seg j l e he)

theorem field_log (phys offset : Word) (k : ℕ) (l : Loader) :
    ∀ e ∈ l.log, e ∈ (l.field phys offset k).2.log := fun _ he => List.mem_append_left _ he

theorem loadHeader_log (phys map h : Word) (l : Loader) :
    ∀ e ∈ l.log, e ∈ (loadHeader phys map h l).log := by
  intro e he
  have hread : e ∈ (readSegment phys h (l.field phys h 4).2).2.log := by
    simp only [readSegment, Loader.field, List.mem_append]
    simp [he]
  simp only [loadHeader]
  split
  · split
    · exact hread
    · exact loadPages_log _ _ _ _ _ _ e hread
  · exact field_log _ _ _ _ e he

theorem loadHeaders_log (phys map phoff : Word) (k i : ℕ) (l : Loader) :
    ∀ e ∈ l.log, e ∈ (loadHeaders phys map phoff k i l).log := by
  induction k generalizing i l with
  | zero => exact fun e he => he
  | succ k ih =>
      intro e he
      simp only [loadHeaders]
      split
      · exact andThen_log _ (fun l => ih (i + 1) l) e
          (loadHeader_log _ _ _ _ e (field_log _ _ _ _ e he))
      · exact field_log _ _ _ _ e he

theorem stepLog_of_yields {log : List Process.Event} {st : Process.Step}
    (h : st.Yields (fun l => ∀ e ∈ log, e ∈ l.log) fun _ l => ∀ e ∈ log, e ∈ l.log) :
    ∀ e ∈ log, e ∈ stepLog st := by
  cases st with
  | go l => exact h
  | stop exit l => exact h

/-- A round on the other machine only adds to its log. -/
theorem loadPage_keeps_log (phys map : Word) (log : List Process.Event) (seg : Segment) (j : ℕ)
    (l : Process.Loader) (h : ∀ e ∈ log, e ∈ l.log) :
    (Process.loadPage phys map seg j l).Yields (fun l => ∀ e ∈ log, e ∈ l.log)
      fun _ l => ∀ e ∈ log, e ∈ l.log :=
  (Process.loadPage_log phys map seg j l).imp (fun _ hsub e he => hsub e (h e he))
    fun _ _ hsub e he => hsub e (h e he)

theorem loadPages_log' (phys map : Word) (seg : Segment) (k j : ℕ) (l : Process.Loader) :
    ∀ e ∈ l.log, e ∈ stepLog (Process.loadPages phys map seg k j l) :=
  stepLog_of_yields (loadPages_keeps (loadPage_keeps_log phys map l.log) seg k j l fun _ he => he)

theorem loadHeaders_log' (phys map phoff : Word) (k i : ℕ) (l : Process.Loader) :
    ∀ e ∈ l.log, e ∈ stepLog (Process.loadHeaders phys map phoff k i l) :=
  stepLog_of_yields (loadHeaders_keeps (fun _ _ _ h e he => List.mem_append_left _ (h e he))
    (loadPage_keeps_log phys map l.log) (fun _ h => h) phoff k i l fun _ he => he)

section Rounds

variable (hground : Ground H m₁ phys limit buf)

include hground

/-- The buffers of the two loaders hold the file. -/
theorem Paired.bytes (h : Paired H m₁ root limit l l') : ∀ k < limit,
    byteAt l.machine.mem phys k = buf k ∧ byteAt l'.machine.mem phys k = buf k := by
  obtain ⟨D, hstate, -⟩ := h.state
  have hboth : (∀ k < limit, byteAt l.machine.mem phys k = byteAt l'.machine.mem phys k) ∧
      ∀ k < limit, byteAt l'.machine.mem phys k = buf k := by
    cases hstate with
    | going pages S going =>
        exact ⟨hground.bytes going.sim fun x hx => going.half.took.clear x (going.dirty x hx).1,
          hground.buffer.bytes_of_frame going.half.guarded.frame⟩
    | stuck pages S stuck =>
        exact ⟨hground.bytes stuck.sim fun x hx => stuck.starved.took.clear x (stuck.dirty x hx).1,
          hground.buffer.bytes_of_frame stuck.starved.guarded.frame⟩
  exact fun k hk => ⟨(hboth.1 k hk).trans (hboth.2 k hk), hboth.2 k hk⟩

omit hground in
/-- A field that lies in the buffer. -/
theorem field_fst (hbuf : ∀ k < limit, byteAt l.machine.mem phys k = buf k) (offset : Word) (k : ℕ)
    (hin : offset.toNat + k ≤ limit) : (l.field phys offset k).1 = field buf offset.toNat k := by
  simp only [Loader.field, loadField, field]
  refine leField_congr k fun i hi => ?_
  rw [byteAt_add, hbuf _ (by omega)]

theorem Paired.field (h : Paired H m₁ root limit l l') (offset : Word) (k : ℕ)
    (hin : offset.toNat + k ≤ limit) :
    (l.field phys offset k).1 = field buf offset.toNat k ∧
      (l'.field phys offset k).1 = field buf offset.toNat k ∧
      Paired H m₁ root limit (l.field phys offset k).2 (l'.field phys offset k).2 := by
  have hbytes := h.bytes hground
  refine ⟨field_fst (fun k hk => (hbytes k hk).1) offset k hin,
    Process.field_fst (fun k hk => (hbytes k hk).2) offset k hin,
    h.logs.append (.singleton (.field offset k)), ?_⟩
  obtain ⟨D, hstate, hclean⟩ := h.state
  refine ⟨D, hstate, fun hin => hclean ?_⟩
  exact fun offset n he => hin offset n (List.mem_append_left _ he)

/-- A round on the two machines. -/
theorem loadPage_abreast (h : Paired H m₁ root limit l l') (hroot : map.toNat / 4096 = root)
    (s : SegPage) : Abreast H m₁ root limit (loadPage phys map s.seg s.index l)
      (Process.loadPage phys map s.seg s.index l') := by
  obtain ⟨D, hstate, hclean⟩ := h.state
  have hkeep : (∀ t, l.machine.Stores t → t ∈ H) → ∀ t, (pmmAllocPage l.machine).2.Stores t → t ∈ H :=
    fun hstores t ht => hstores t (stores_alloc.mp ht)
  cases hstate with
  | stuck pages S stuck =>
      obtain ⟨hnull, hsame⟩ := Machine.allocPage_full stuck.starved.zero_used stuck.starved.full
      obtain ⟨hfst, hsim⟩ := stuck.sim.allocPage
      rw [loadPage_full (hfst.trans hnull),
        Process.loadPage_full stuck.starved.zero_used stuck.starved.full]
      rw [hsame] at hsim
      exact .stop _ _ _ (by decide) ⟨h.logs, D,
        .stuck pages S ⟨stuck.starved, hsim, hkeep stuck.stores, stuck.dirty⟩, hclean⟩
  | going pages S going =>
      obtain ⟨hnull, hsame, hfull⟩ | ⟨n, _, hn, halloc, hok, takes, hleft⟩ :=
        l'.machine.allocPage_cases going.half.zero_used
      · obtain ⟨hfst, hsim⟩ := going.sim.allocPage
        rw [loadPage_full (hfst.trans hnull), Process.loadPage_full going.half.zero_used hfull]
        rw [hsame] at hsim
        exact .stop _ _ _ (by decide) ⟨h.logs, D,
          .going pages S ⟨going.half, hsim, hkeep going.stores, going.dirty⟩, hclean⟩
      · obtain ⟨hnot, hout, htaken⟩ := going.take takes
        have hfst := going.sim.allocPage.1
        have hmap : EventAlike (MapsOn H m₁) (.map (pmmAllocPage l.machine).2 map s.vaddr)
            (.map l'.machine.allocPage.2 map s.vaddr) :=
          .map _ _ map s.vaddr ⟨_, _, _, hroot.symm ▸ htaken⟩
        have hlogs := h.logs.append ((LogAlike.singleton hmap).append (copyEvents_alike s))
        rw [List.singleton_append, List.singleton_append] at hlogs
        rw [loadPage_eq phys map s hn (hfst.trans halloc) (hfst ▸ hok),
          Process.loadPage_eq phys map s hn halloc hok]
        by_cases hlow : s.vaddr.toNat < 2 ^ 47
        · cases hfaults : s.faults with
          | true => exact .faults _ _ hlogs
          | false =>
              have hD : n ∉ D := fun hin => hnot (going.dirty n hin).1
              have hround := htaken.mapPage hground hroot hlow hn
                (List.mem_append_right _ (List.mem_singleton_self n)) hout hD hfaults
              refine .go _ _ ⟨hlogs, _, hround, ?_⟩
              intro hin
              have hwithin : s.within limit := by
                intro start src size hcopy
                apply hin
                rw [SegPage.copyEvents_some hcopy]
                simp
              have hempty := hclean fun offset k he => hin offset k (List.mem_append_left _ he)
              ext x
              simp [spoiled, hempty, hwithin]
        · have hmem : ∀ {α : Type} (log rest : List α) (e : α), e ∈ log ++ (e :: rest) := by simp
          refine .strayed _ _ ⟨(pmmAllocPage l.machine).2, map, s.vaddr, ?_, Nat.not_lt.mp hlow⟩
            ⟨l'.machine.allocPage.2, map, s.vaddr, ?_, Nat.not_lt.mp hlow⟩
          · split <;> exact hmem _ _ _
          · split <;> exact hmem _ _ _

theorem loadPages_abreast (h : Paired H m₁ root limit l l') (hroot : map.toNat / 4096 = root)
    (seg : Segment) (k j : ℕ) : Abreast H m₁ root limit (loadPages phys map seg k j l)
      (Process.loadPages phys map seg k j l') := by
  induction k generalizing j l l' with
  | zero => exact .go l l' h
  | succ k ih =>
      exact (loadPage_abreast hground h hroot ⟨seg, j⟩).andThen (fun l l' h => ih h (j + 1))
        (loadPages_log phys map seg k (j + 1)) (loadPages_log' phys map seg k (j + 1))

theorem readSegment_paired (h : Paired H m₁ root limit l l') {a : Word} (hin : a.toNat + 56 ≤ limit)
    (hlimit : limit < 2 ^ 64) :
    (readSegment phys a l).1 = (Process.readSegment phys a l').1 ∧
      Paired H m₁ root limit (readSegment phys a l).2 (Process.readSegment phys a l').2 := by
  have hoffset : ∀ k ≤ 48, (a + BitVec.ofNat 64 k).toNat = a.toNat + k := by
    intro k hk
    exact toNat_add_ofNat (by omega)
  have h16 := hoffset 16 (by decide)
  have h40 := hoffset 40 (by decide)
  have h32 := hoffset 32 (by decide)
  have h8 := hoffset 8 (by decide)
  obtain ⟨hv, hv', h₁⟩ := h.field hground (a + 16#64) 8 (by omega)
  obtain ⟨hm, hm', h₂⟩ := h₁.field hground (a + 40#64) 8 (by omega)
  obtain ⟨hf, hf', h₃⟩ := h₂.field hground (a + 32#64) 8 (by omega)
  obtain ⟨ho, ho', h₄⟩ := h₃.field hground (a + 8#64) 8 (by omega)
  refine ⟨?_, h₄⟩
  simp only [readSegment, Process.readSegment, hv, hv', hm, hm', hf, hf', ho, ho']

theorem loadHeader_abreast (h : Paired H m₁ root limit l l') (hroot : map.toNat / 4096 = root)
    {a : Word} (hin : a.toNat + 56 ≤ limit) (hlimit : limit < 2 ^ 64) :
    Abreast H m₁ root limit (loadHeader phys map a l) (Process.loadHeader phys map a l') := by
  obtain ⟨htype, htype', h₀⟩ := h.field hground a 4 (by omega)
  simp only [loadHeader, Process.loadHeader, htype, htype']
  split
  · obtain ⟨hseg, h₁⟩ := readSegment_paired hground h₀ hin hlimit
    rw [hseg]
    split
    · exact .stop _ _ _ (by decide) h₁
    · exact loadPages_abreast hground h₁ hroot _ _ _
  · exact .go _ _ h₀

/-- The loops over the program headers go on side by side. -/
theorem loadHeaders_abreast (h : Paired H m₁ root limit l l') (hroot : map.toNat / 4096 = root)
    (hlimit : limit < 2 ^ 64) (hheader : 58 ≤ limit)
    (htable : (phoff buf).toNat + 56 * (phnum buf).toNat ≤ limit) (k i : ℕ) :
    Abreast H m₁ root limit (loadHeaders phys map (phoff buf) k i l)
      (Process.loadHeaders phys map (phoff buf) k i l') := by
  induction k generalizing i l l' with
  | zero => exact .go l l' h
  | succ k ih =>
      obtain ⟨hphnum, hphnum', h₀⟩ := h.field hground 56#64 2 hheader
      have hvalue : field buf (56#64 : Word).toNat 2 = phnum buf := rfl
      have hsmall : (phnum buf).toNat < 2 ^ (8 * 2) := leField_lt _ (by decide)
      simp only [loadHeaders, Process.loadHeaders, hphnum, hphnum', hvalue]
      split
      · rename_i hi
        have haddr : (phoff buf + BitVec.ofNat 64 i * 56#64).toNat = (phoff buf).toNat + 56 * i := by
          rw [BitVec.toNat_add, BitVec.toNat_mul, BitVec.toNat_ofNat, BitVec.toNat_ofNat]
          omega
        exact (loadHeader_abreast hground h₀ hroot (by omega) hlimit).andThen
          (fun l l' h => ih h (i + 1)) (loadHeaders_log phys map (phoff buf) k (i + 1))
          (loadHeaders_log' phys map (phoff buf) k (i + 1))
      · exact .go _ _ h₀

end Rounds

end LispDos.Raw
