import LispDos.Verification.Memory.Exhaustion
import LispDos.Verification.Process.Delivery

/-! # The stack and the jump to user mode

The last page that is mapped holds the arguments at its end. It is not cleared. -/

namespace LispDos.Process

open Memory Foundation

variable {m m₁ m' : Machine} {root n : ℕ} {pages S : List ℕ} {phys map : Word} {l : Loader}
  {done : List SegPage} {args : Option (List UInt8)} {mem : PhysMem} {X : Set ℕ}

/-! ## The stack page -/

/-- The page of the stack, seen as a segment without contents. -/
def stackPage : SegPage := ⟨⟨userStack, 4096#64, 0#64, 0#64⟩, 0⟩

theorem stackPage_vaddr : stackPage.vaddr = userStack := by decide

theorem stackPage_low : stackPage.vaddr.toNat < 2 ^ 47 := by decide

/-- The arguments with their terminator fit into a page. -/
def ArgsFit (args : Option (List UInt8)) : Prop := ∀ a ∈ args, a.length < 4096

theorem argBytes_length (a : List UInt8) : (argBytes a).length = a.length + 1 := by simp [argBytes]

theorem ArgsFit.length_le (h : ArgsFit args) {a : List UInt8} (ha : args = some a) :
    (argBytes a).length ≤ 4096 := by
  rw [argBytes_length]
  exact h a ha

/-- The stores of the arguments into page `n`. -/
def stackStore (args : Option (List UInt8)) (mem : PhysMem) (n : ℕ) : PhysMem :=
  args.elim mem fun a => storeArgs mem (pageAddr n) a

/-- A byte of the stack page, given what the page held when it was allocated. -/
def stackByte (args : Option (List UInt8)) (old : ℕ → UInt8) (i : ℕ) : UInt8 :=
  args.elim (old i) fun a =>
    if 4096 ≤ i + (argBytes a).length then (argBytes a).getD (i + (argBytes a).length - 4096) 0
    else old i

theorem stackByte_congr {old old' : ℕ → UInt8} {i : ℕ} (h : old i = old' i) :
    stackByte args old i = stackByte args old' i := by
  cases args with
  | none => exact h
  | some a => simp only [stackByte, Option.elim_some, h]

theorem mapStack_eq (map : Word) (n : ℕ) (args : Option (List UInt8)) (m : Machine) :
    mapStack map (pageAddr n) args m =
      { vmmMapPage m map userStack (pageAddr n) userFlags with
        mem := stackStore args (vmmMapPage m map userStack (pageAddr n) userFlags).mem n } := by
  cases args with
  | none => rfl
  | some a => rfl

theorem argStores_eq (bytes : List UInt8) :
    bytes.zipIdx.map Prod.swap = (List.range bytes.length).map fun i => (i, bytes.getD i 0) := by
  apply List.ext_getElem
  · simp
  · intro i h₁ h₂
    have hi : i < bytes.length := by simpa using h₂
    simp [hi]

section Store

variable (hn : n < 2 ^ 40) (hargs : ArgsFit args)

include hn hargs

/-- Where the arguments begin. -/
theorem argBase_toNat {a : List UInt8} (ha : args = some a) :
    (pageAddr n + 4096#64 - BitVec.ofNat 64 (argBytes a).length).toNat =
      n * 4096 + 4096 - (argBytes a).length := by
  have hlen := hargs.length_le ha
  have haddr : (pageAddr n + 4096#64).toNat = n * 4096 + 4096 := by
    have hpage := pageAddr_toNat (i := n) (by omega)
    rw [toNat_add_ofNat (by omega), hpage]
  rw [BitVec.toNat_sub_of_le, haddr, BitVec.toNat_ofNat, Nat.mod_eq_of_lt (by omega)]
  rw [BitVec.le_def, haddr, BitVec.toNat_ofNat, Nat.mod_eq_of_lt (by omega)]
  omega

theorem stackStore_other (mem : PhysMem) {t : ℕ} (ht : t ≠ n) : stackStore args mem n t = mem t := by
  cases hcase : args with
  | none => rfl
  | some a =>
      have hbase := argBase_toNat hn hargs hcase
      have hfit := hargs.length_le hcase
      simp only [stackStore, Option.elim_some, storeArgs]
      refine storeAt_other mem _ _ ?_
      rw [argStores_eq]
      intro s hs
      obtain ⟨i, hi, rfl⟩ := List.mem_map.mp hs
      have hi := List.mem_range.mp hi
      rw [toNat_add_ofNat (by omega), hbase]
      omega

theorem loadByte_stackStore (mem : PhysMem) {i : ℕ} (hi : i < 4096) :
    loadByte (stackStore args mem n) (n * 4096 + i) =
      stackByte args (fun k => loadByte mem (n * 4096 + k)) i := by
  cases hcase : args with
  | none => rfl
  | some a =>
      have hbase := argBase_toNat hn hargs hcase
      have hfit := hargs.length_le hcase
      have hbelow : ∀ s ∈ (argBytes a).zipIdx.map Prod.swap, s.1 < (argBytes a).length := by
        rw [argStores_eq]
        intro s hs
        obtain ⟨k, hk, rfl⟩ := List.mem_map.mp hs
        exact List.mem_range.mp hk
      simp only [stackStore, stackByte, Option.elim_some, storeArgs]
      by_cases hin : 4096 ≤ i + (argBytes a).length
      · rw [if_pos hin]
        have haddr : n * 4096 + i = (pageAddr n + 4096#64 -
            BitVec.ofNat 64 (argBytes a).length + BitVec.ofNat 64
              (i + (argBytes a).length - 4096)).toNat := by
          rw [toNat_add_ofNat (by omega), hbase]
          omega
        have hbyte := byteAt_storeAt mem (pageAddr n + 4096#64 -
          BitVec.ofNat 64 (argBytes a).length) ((argBytes a).zipIdx.map Prod.swap)
          (fun s hs => by
            have := hbelow s hs
            omega) (i := i + (argBytes a).length - 4096) (by omega)
        rw [haddr]
        refine hbyte.trans ?_
        rw [argStores_eq, Fat16.applyStores_range, if_pos (by omega)]
      · rw [if_neg hin]
        refine loadByte_storeAt_other mem _ _ ?_
        intro s hs
        have := hbelow s hs
        rw [toNat_add_ofNat (by omega), hbase]
        omega

end Store

/-! ## Entering -/

/-- The stack page `n` has been mapped after the pages of `done`. -/
structure Stacked (m₁ m m' : Machine) (root : ℕ) (pages S : List ℕ) (done : List SegPage)
    (args : Option (List UInt8)) (n : ℕ) : Prop where
  placed : Placed m₁ m' root pages S (done ++ [stackPage])
  leaf : descend codeNext m'.mem root (indices userStack) = some n
  bytes : ∀ i < 4096, loadByte m'.mem (n * 4096 + i) =
    stackByte args (fun k => loadByte m₁.mem (n * 4096 + k)) i
  free : n ∈ clearPages m₁.pmm.bitmap m₁.pmm.highestPage
  others : ∀ v : Word, v.toNat < 2 ^ 47 → v.toNat / 4096 ≠ stackPage.number →
    descend codeNext m'.mem root (indices v) = descend codeNext m.mem root (indices v) ∧
      ∀ x, descend codeNext m.mem root (indices v) = some x → m'.mem x = m.mem x

/-- The stack page `n` has been entered into page 0, to which user mode is led. -/
structure Misplaced (m₁ m' : Machine) (root : ℕ) (args : Option (List UInt8)) (n : ℕ) : Prop where
  small : n < 2 ^ 40
  entry : m'.mem 0 0 = tableEntry n
  leads : ∃ r, r ≠ [] ∧ r <+: tablePath userStack ∧ descend userTable m'.mem root r = some 0
  bytes : ∀ i < 4096, loadByte m'.mem (n * 4096 + i) =
    stackByte args (fun k => loadByte m₁.mem (n * 4096 + k)) i
  free : n ∈ clearPages m₁.pmm.bitmap m₁.pmm.highestPage

/-- The log once the stack has been mapped. -/
def stackLog (l : Loader) (map : Word) : List Event :=
  l.log ++ [.map l.machine.allocPage.2 map userStack]

/-- The jump to user mode from a machine on which everything is mapped. -/
def jump (phys : Word) (count : ℕ) (map : Word) (args : Option (List UInt8)) (log : List Event)
    (m : Machine) : ExecExit × Loader :=
  (.entered map (loadField m.mem (phys + 24#64) 8) (stackPointer args),
    ⟨freeFile phys count m, log ++ [.field 24#64 8]⟩)

/-- The ways in which a call goes on after its pages have been loaded. -/
inductive EnterCase (m₁ : Machine) (root : ℕ) (phys : Word) (count : ℕ) (map : Word)
    (args : Option (List UInt8)) (done : List SegPage) (l : Loader) : ExecExit × Loader → Prop where
  | full (hfull : freePages l.machine = 0) :
      EnterCase m₁ root phys count map args done l
        (.noStack, { l with machine := vmmFreePagemap (freeFile phys count l.machine) map })
  | starved (m' : Machine) (pages S : List ℕ) (hpos : 0 < freePages l.machine)
      (hzero : 0#64 ∈ mapAllocs l.machine.allocPage.2 map userStack)
      (hshort : freePages l.machine <
        1 + tablesFor (done.map SegPage.number) stackPage.number)
      (hstarved : Starved m₁ m' root pages S) (n : ℕ) (hmisplaced : Misplaced m₁ m' root args n)
      (haddr : l.machine.allocPage.1 = pageAddr n) :
      EnterCase m₁ root phys count map args done l (jump phys count map args (stackLog l map) m')
  | stacked (m' : Machine) (pages S : List ℕ) (n : ℕ)
      (hallocs : ∀ a ∈ mapAllocs l.machine.allocPage.2 map userStack, a ≠ 0#64)
      (hroom : 1 + tablesFor (done.map SegPage.number) stackPage.number ≤ freePages l.machine)
      (hstacked : Stacked m₁ l.machine m' root pages S done args n)
      (haddr : l.machine.allocPage.1 = pageAddr n) :
      EnterCase m₁ root phys count map args done l (jump phys count map args (stackLog l map) m')

theorem freeFile_mem (phys : Word) (count : ℕ) (m : Machine) :
    (freeFile phys count m).mem = m.mem := by
  rw [freeFile, ← List.foldl_map]
  exact foldl_freePage_mem _ m

theorem release_mem (phys map : Word) (count : ℕ) (m : Machine) :
    (vmmFreePagemap (freeFile phys count m) map).mem = m.mem := by
  rw [vmmFreePagemap_eq, foldl_freePage_mem, freeFile_mem]

/-- The end of a call for which a stack page could be allocated. -/
theorem enter_eq (hok : l.machine.allocPage.1 ≠ 0#64) (count : ℕ) :
    enter phys count map args l = jump phys count map args (stackLog l map)
      (mapStack map l.machine.allocPage.1 args l.machine.allocPage.2) := by
  simp only [enter, if_neg hok, Loader.field, freeFile_mem, jump, stackLog]

theorem Placed.enter_case (hp : Placed m₁ l.machine root pages S done)
    (hroot : map.toNat / 4096 = root) (hargs : ArgsFit args) (phys : Word) (count : ℕ) :
    EnterCase m₁ root phys count map args done l (enter phys count map args l) := by
  obtain ⟨hfail, hsame, hfull⟩ | ⟨n, _, hn, halloc, hok, takes, hleft⟩ :=
    l.machine.allocPage_cases hp.half.zero_used
  · have henter : enter phys count map args l = (.noStack,
        { l with machine := vmmFreePagemap (freeFile phys count l.machine) map }) := by
      simp only [enter, if_pos hfail, hsame]
    rw [henter]
    exact .full hfull
  · obtain ⟨hnot, htaken⟩ := hp.half.take takes
    have hout : n ∉ S := fun h => hnot (hp.half.sub n h)
    have hmissing : missingTables l.machine.allocPage.2.mem root [] (tablePath userStack) =
        tablesFor (done.map SegPage.number) stackPage.number :=
      missingTables_eq hp.low stackPage_low hp.tables
    rw [enter_eq hok, halloc, mapStack_eq]
    have hother : ∀ mem : PhysMem, ∀ t, t ≠ n → stackStore args mem n t = mem t :=
      fun mem t ht => stackStore_other hn hargs mem ht
    have hin : n ∈ pages ++ [n] := List.mem_append_right _ (List.mem_singleton_self n)
    have hclear := htaken.took.clear n hin
    have hfree : n ∈ clearPages m₁.pmm.bitmap m₁.pmm.highestPage :=
      mem_clearPages.mpr ⟨htaken.took.below n hin, hclear⟩
    have hn0 : n ≠ 0 := (ne_of_used hp.half.zero hclear).symm
    -- the page has not been touched since it was free
    have hbytes : ∀ {mem : PhysMem}, mem n = l.machine.allocPage.2.mem n → ∀ i < 4096,
        loadByte (stackStore args mem n) (n * 4096 + i) =
          stackByte args (fun k => loadByte m₁.mem (n * 4096 + k)) i := by
      intro mem hmem i hi
      have hold : mem n = m₁.mem n := by
        rw [hmem, Machine.allocPage_mem, hp.half.frame n hnot hn0]
      rw [loadByte_stackStore hn hargs _ hi]
      exact stackByte_congr (loadByte_congr hold (by omega))
    obtain ⟨new, hallocs, hmapped⟩ | ⟨new, hzero, hshort, hstarved⟩ :=
      htaken.mapPage hroot stackPage_low hn hin hout
    · obtain ⟨_, hnNew, _⟩ := hp.fresh hnot hmapped
      have hcount := hmapped.count
      have hused := hmapped.left
      rw [stackPage_vaddr] at hallocs hmapped hcount
      rw [hmissing] at hcount
      refine .stacked _ _ _ n hallocs (by omega)
        ⟨hp.snoc hnot hmapped stackPage_low (hother _),
          leaf_stored hmapped stackPage_low (hother _), hbytes ?_, hfree, ?_⟩ halloc
      · refine hmapped.same n hnNew (fun q hq hs => ?_)
        exact hout ((hp.half.tree.reach n).mp ⟨q, hq.of_le (hq.1.1.trans (by decide)), hs⟩)
      · intro v hv hne
        exact hp.else_snoc hnot hmapped stackPage_low (hother _) hv hne
    · rw [stackPage_vaddr] at hzero hshort hstarved
      rw [hmissing] at hshort
      have hnNew : n ∉ S ++ new := by
        rw [List.mem_append, not_or]
        exact ⟨hout, fun h => (List.disjoint_of_nodup_append hstarved.took.nodup) (by simp) h⟩
      obtain ⟨hkept, hentry, r, hr, hpre, _, hleads⟩ := htaken.mapPage_leads hroot stackPage_low hn
        hzero (htaken.aside hin hout) (Ne.symm hn0)
        (hother (vmmMapPage l.machine.allocPage.2 map userStack (pageAddr n) 6#64).mem)
      exact .starved _ _ _ (by omega) hzero (by omega)
        (hstarved.storeData (hother _) hclear hnNew) n
        ⟨hn, hentry, ⟨r, hr, hpre, hleads _ followsTables_user⟩, hbytes (hkept n rfl), hfree⟩
        halloc

/-- The path to page 0 when a table above the stack page could not be allocated, whatever is
stored into pages that are no tables. It is the longer, the fewer of the tables are missing. -/
theorem Placed.stack_leads (hp : Placed m₁ l.machine root pages S done)
    (hroot : map.toNat / 4096 = root) (hargs : ArgsFit args) (hok : l.machine.allocPage.1 ≠ 0#64)
    (hzero : 0#64 ∈ mapAllocs l.machine.allocPage.2 map userStack)
    (haside : Aside l.machine root X) (hX : 0 ∉ X) (hsame : ∀ s ∉ X, mem s =
      (mapStack map l.machine.allocPage.1 args l.machine.allocPage.2).mem s) :
    ∃ r, r ≠ [] ∧ r <+: tablePath userStack ∧
      r.length + tablesFor (done.map SegPage.number) stackPage.number = 3 + freePages l.machine ∧
      ∀ next, FollowsTables next → descend next mem root r = some 0 := by
  obtain ⟨hfail, _, _⟩ | ⟨n, _, hn, halloc, _, takes, hleft⟩ :=
    l.machine.allocPage_cases hp.half.zero_used
  · exact (hok hfail).elim
  · obtain ⟨hnot, htaken⟩ := hp.half.take takes
    have hmissing : missingTables l.machine.allocPage.2.mem root [] (tablePath userStack) =
        tablesFor (done.map SegPage.number) stackPage.number :=
      missingTables_eq hp.low stackPage_low hp.tables
    have hin : n ∈ pages ++ [n] := List.mem_append_right _ (List.mem_singleton_self n)
    have hn0 : 0 ≠ n := ne_of_used hp.half.zero (htaken.took.clear n hin)
    have hstack := htaken.aside hin fun h => hnot (hp.half.sub n h)
    have hboth : Aside l.machine.allocPage.2 root (X ∪ {n}) := by
      rintro x (hx | hx)
      · refine ⟨?_, (haside x hx).2⟩
        rw [takes.bits, (haside x hx).1, Bool.or_true]
      · exact hstack x hx
    rw [halloc, mapStack_eq] at hsame
    obtain ⟨_, _, r, hr, hpre, hcount, hleads⟩ := htaken.mapPage_leads hroot stackPage_low hn hzero
      hboth (fun h => h.elim hX hn0)
      (fun s hs => (hsame s fun h => hs (.inl h)).trans
        (stackStore_other hn hargs _ fun h => hs (.inr h)))
    rw [stackPage_vaddr, hmissing] at hcount
    exact ⟨r, hr, hpre, by omega, hleads⟩

end LispDos.Process
