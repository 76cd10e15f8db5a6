import LispDos.Verification.Memory.Placement
import LispDos.Verification.Memory.UserAccess

/-! # Page 0 as a table of a program

When a table of the path to a page cannot be allocated, page 0 is entered in its place,
and again below it. User mode can walk into it. -/

namespace LispDos.Memory

open Foundation

variable {m m' m₁ : Machine} {mem : PhysMem} {root t i n : ℕ} {p pages S : List ℕ} {map v : Word}
  {next : Word → Option ℕ} {X : Set ℕ}

/-- The pages `X` are in use, and none of them is a table of the address space. -/
def Aside (m : Machine) (root : ℕ) (X : Set ℕ) : Prop :=
  ∀ x ∈ X, bitmapTest m.pmm.bitmap x = true ∧
    ∀ q, LowerPath 3 q → descend codeNext m.mem root q ≠ some x

/-- A page that has been allocated and is not reached. -/
theorem Half.aside (h : Half m₁ m root pages S) (hin : n ∈ pages) (hout : n ∉ S) :
    Aside m root {n} := by
  simp only [Aside, Set.mem_singleton_iff, forall_eq]
  refine ⟨by rw [h.took.bits, decide_eq_true hin, Bool.true_or], ?_⟩
  intro q hq hn
  exact hout ((h.tree.reach n).mp ⟨q, hq.of_le (hq.1.1.trans (by decide)), hn⟩)

/-- The path to the failing entry is as it was, and leads on to page 0, whatever is stored
into pages that are no tables. -/
theorem Half.fails_leads (h : Half m₁ m root pages S) (hpath : LowerPath 4 (p ++ [i]))
    (hreach : descend codeNext m.mem root p = some t) (hfails : Fails m m' t i)
    (haside : Aside m root X) (hsame : ∀ s, s ≠ 0 → s ∉ X → mem s = m'.mem s)
    (hnext : FollowsTables next) : descend next mem root (p ++ [i]) = some 0 := by
  have hp := LowerPath.init p i hpath
  have hlen : p.length ≤ 3 := by
    have hle := hpath.1.1
    rw [List.length_append, List.length_singleton] at hle
    omega
  have hdata : ∀ q s, LowerPath 4 q → q.length ≤ 3 → descend codeNext m.mem root q = some s →
      s ∉ X := fun q s hq hle hs hin => (haside s hin).2 q (hq.of_le hle) hs
  have hdown : descend next mem root p = descend next m.mem root p := by
    refine descend_congr (V := fun q => q <+: p)
      (fun q j hq => (List.prefix_append q [j]).trans hq) ?_ (List.prefix_refl p)
    intro q j s hq hs
    have hq' := hp.of_snoc_prefix hq
    have hle : q.length ≤ 3 := ((List.prefix_append q [j]).trans hq).length_le.trans hlen
    rw [h.descend_next hnext hq'] at hs
    have hs0 := h.ne_zero hq' hs
    have hst := h.ne_on_the_way hp hreach hq hs
    rw [hsame s hs0 (hdata q s hq' hle hs), hfails.mem, writeWord_apply,
      if_neg (fun hboth => hst hboth.1), clearTable_apply, if_neg hs0]
  rw [descend_snoc, hdown, h.descend_next hnext hp, hreach, Option.bind_some,
    hsame t (h.ne_zero hp hreach) (hdata p t hp hlen hreach), hfails.mem, writeWord_apply,
    if_pos ⟨rfl, rfl⟩, hnext.table 0 (by decide)]

/-- A level that does not fail makes no table of a page that is in use. -/
theorem Extends.aside {new : List ℕ} {table : ℕ}
    (hext : Extends m₁ m m' root pages S p i t table new) (hbits : Took m₁.pmm m.pmm pages)
    (haside : Aside m root X) : Aside m' root X ∧ ∀ x ∈ X, x ∉ new := by
  have hnew : ∀ x ∈ X, x ∉ new := by
    intro x hx hin
    have hused := (haside x hx).1
    rw [hbits.bits, Bool.or_eq_true, decide_eq_true_eq] at hused
    rcases hused with hold | hold
    · exact (List.disjoint_of_nodup_append hext.half.took.nodup) hold hin
    · rw [hext.half.took.clear x (List.mem_append_right _ hin)] at hold
      cases hold
  refine ⟨?_, hnew⟩
  intro x hx
  obtain ⟨hused, hnot⟩ := haside x hx
  constructor
  · rw [hbits.bits, Bool.or_eq_true, decide_eq_true_eq] at hused
    rw [hext.half.took.bits, Bool.or_eq_true, decide_eq_true_eq, List.mem_append]
    exact hused.imp .inl id
  · intro q hq
    rw [hext.paths q (hq.of_le (hq.1.1.trans (by decide)))]
    split
    · rename_i heq
      intro htable
      obtain rfl : table = x := Option.some_inj.mp htable
      rcases hext.origin with ⟨_, hold⟩ | ⟨hlist, _⟩
      · exact hnot q hq (heq ▸ hold)
      · exact hnew table hx (hlist ▸ List.mem_singleton_self table)
    · exact hnot q hq

/-- Below a table that is missing all of them are. -/
theorem missingTables_of_none (hnone : descend codeNext mem root p = none) (is : List ℕ) :
    missingTables mem root p is = is.length := by
  induction is generalizing p with
  | nil => rfl
  | cons i is ih =>
      have hbelow : descend codeNext mem root (p ++ [i]) = none := by
        rw [descend_snoc, hnone, Option.bind_none]
      rw [missingTables, hbelow, ih hbelow, List.length_cons, Nat.add_comm is.length 1]
      rfl

/-- The levels of `vmm_map_page` for which memory runs out lead to page 0. The path there ends
at the first table that could not be allocated. -/
theorem Half.openLevels_leads (h : Half m₁ m root pages S) (is : List ℕ)
    (hpath : LowerPath 4 (p ++ is)) (hlen : p.length + is.length ≤ 3)
    (hreach : descend codeNext m.mem root p = some t) (hzero : 0#64 ∈ pathAllocs m t is)
    (haside : Aside m root X)
    (hsame : ∀ s, s ≠ 0 → s ∉ X → mem s = (openPath m t is).2.mem s) :
    (openPath m t is).1 = 0 ∧ (∀ x ∈ X, x ≠ 0 → (openPath m t is).2.mem x = m.mem x) ∧
      ∃ r, r ≠ [] ∧ r <+: is ∧
        r.length + missingTables m.mem root p is = is.length + freePages m + 1 ∧
        ∀ next, FollowsTables next → descend next mem root (p ++ r) = some 0 := by
  induction is generalizing m p t pages S with
  | nil => simp [pathAllocs] at hzero
  | cons i is ih =>
      have hlen' : p.length < 3 := by
        rw [List.length_cons] at hlen
        omega
      have hlevel := lowerPath_level hpath
      have hassoc : p ++ [i] ++ is = p ++ i :: is := by simp
      have hp := LowerPath.init p i hlevel
      have hnt : ∀ x ∈ X, x ≠ t := by
        rintro x hx rfl
        exact (haside x hx).2 p (hp.of_le hlen'.le) hreach
      simp only [pathAllocs] at hzero
      simp only [openPath] at hsame ⊢
      obtain ⟨new, _, hok, hext⟩ | ⟨_, hfst, hnone, hfails⟩ := h.openLevel hlevel hlen' hreach
      · have hbelow := (List.mem_append.mp hzero).resolve_left (fun hin => hok _ hin rfl)
        have hreach' : descend codeNext (openTable m t i).2.mem root (p ++ [i]) =
            some (openTable m t i).1 := by
          rw [hext.paths _ hlevel, if_pos rfl]
        obtain ⟨haside', hnew⟩ := hext.aside h.took haside
        obtain ⟨hbottom, hkept, r, hr, hpre, hcount, hlead⟩ := ih hext.half (p := p ++ [i])
          (by rwa [hassoc]) (by rw [List.length_append]; simp at hlen ⊢; omega) hreach' hbelow
          haside' hsame
        have hleft := hext.left
        refine ⟨hbottom, ?_, i :: r, by simp, by simpa using hpre, ?_, ?_⟩
        · exact fun x hx hx0 => (hkept x hx hx0).trans (hext.same x (hnew x hx) (hnt x hx))
        · rw [hext.missing hpath, List.length_cons, List.length_cons]
          omega
        · intro next hnext
          have hnextLead := hlead next hnext
          rwa [List.append_assoc] at hnextLead
      · obtain ⟨hbottom, _, _, hmem'⟩ :=
          (hfails.zeroTable (h.ne_zero hp hreach) h.zero_used).openLevels is
        rw [hfst] at hsame ⊢
        refine ⟨hbottom, ?_, [i], by simp, by simp, ?_, ?_⟩
        · intro x hx hx0
          rw [hmem' x hx0, hfails.mem]
          funext j
          rw [writeWord_apply, if_neg (fun hboth => hnt x hx hboth.1), clearTable_apply, if_neg hx0]
        · rw [missingTables, hnone, missingTables_of_none hnone, hfails.full]
          simp only [Option.isSome_none, Bool.false_eq_true, if_false, List.length_cons,
            List.length_nil]
          omega
        · intro next hnext
          refine h.fails_leads hlevel hreach hfails haside (fun s hs hsX => ?_) hnext
          rw [hsame s hs hsX, hmem' s hs]

/-- A mapping for which memory runs out, whatever is stored into pages that are no tables. A part
of the path leads to page 0, and the page is entered there. -/
theorem Half.mapPage_leads (h : Half m₁ m root pages S) (hroot : map.toNat / 4096 = root)
    (hv : v.toNat < 2 ^ 47) (hn : n < 2 ^ 40) (hzero : 0#64 ∈ mapAllocs m map v)
    (haside : Aside m root X) (hX : 0 ∉ X)
    (hsame : ∀ s ∉ X, mem s = (vmmMapPage m map v (pageAddr n) 6#64).mem s) :
    (∀ x ∈ X, (vmmMapPage m map v (pageAddr n) 6#64).mem x = m.mem x) ∧
      mem 0 (tableIndex v 12) = tableEntry n ∧
      ∃ r, r ≠ [] ∧ r <+: tablePath v ∧
        r.length + missingTables m.mem root [] (tablePath v) = 4 + freePages m ∧
        ∀ next, FollowsTables next → descend next mem root r = some 0 := by
  have hindices := lowerPath_indices hv
  rw [indices_eq] at hindices
  have hpath : LowerPath 4 ([] ++ tablePath v) := hindices.of_append
  have hne : ∀ x ∈ X, x ≠ 0 := by
    rintro x hx rfl
    exact hX hx
  rw [mapAllocs_eq, hroot] at hzero
  rw [vmmMapPage_eq, leafEntry_userFlags (hn.trans (by decide)), hroot] at hsame ⊢
  obtain ⟨hbottom, hkept, _⟩ := h.openLevels_leads (tablePath v) hpath (by simp [tablePath]) rfl
    hzero haside (fun s _ _ => rfl)
  rw [hbottom] at hsame ⊢
  have hleaf : ∀ s, s ≠ 0 → writeWord (openPath m root (tablePath v)).2.mem 0 (tableIndex v 12)
      (tableEntry n) s = (openPath m root (tablePath v)).2.mem s := by
    intro s hs
    funext j
    rw [writeWord_apply, if_neg (fun hboth : s = 0 ∧ _ => hs hboth.1)]
  refine ⟨fun x hx => (hleaf x (hne x hx)).trans (hkept x hx (hne x hx)), ?_, ?_⟩
  · rw [hsame 0 hX]
    simp only [writeWord_apply, and_self, if_true]
  · obtain ⟨_, _, r, hr, hpre, hcount, hlead⟩ := h.openLevels_leads (tablePath v) hpath
      (by simp [tablePath]) rfl hzero haside (fun s hs hsX => (hsame s hsX).trans (hleaf s hs))
    have hlevels : (tablePath v).length = 3 := rfl
    exact ⟨r, hr, hpre, by omega, hlead⟩

/-- The word at the start of a page of the lower half that all indices but the first lead to
is read as an entry. -/
theorem userWalk_zero (hindices : tableIndex v 30 = 0 ∧ tableIndex v 21 = 0 ∧ tableIndex v 12 = 0)
    (hn : n < 2 ^ 40) (hentry : mem 0 0 = tableEntry n) {r : List ℕ} (hr : r ≠ [])
    (hpre : r <+: tablePath v) (hlead : descend userTable mem root r = some 0) :
    r.length = 3 ∧ userWalk mem root v = some (0, tableEntry n) ∨
      r.length = 2 ∧ userWalk mem root v = userLeaf 0 (mem n 0) ∨
      r.length = 1 ∧ userWalk mem root v = resolve userTable userLeaf mem n [0, 0] := by
  obtain ⟨h₁, h₂, h₃⟩ := hindices
  obtain ⟨rest, hrest⟩ := hpre
  have hsplit : indices v = r ++ (rest ++ [0]) := by
    rw [indices_eq, ← hrest, h₃, List.append_assoc]
  have htable : userTable (mem 0 0) = some n := by rw [hentry, userTable_tableEntry hn]
  have hwalk : userWalk mem root v = resolve userTable userLeaf mem 0 (rest ++ [0]) := by
    rw [userWalk, hsplit, resolve_append (by simp) hlead]
  rw [tablePath, h₁, h₂] at hrest
  rw [hwalk]
  rcases r with _ | ⟨_, _ | ⟨_, _ | ⟨_, _ | ⟨_, _⟩⟩⟩⟩
  · exact (hr rfl).elim
  · obtain ⟨_, rfl⟩ : _ ∧ rest = [0, 0] := by simpa using hrest
    refine .inr (.inr ⟨rfl, ?_⟩)
    simp only [List.cons_append, List.nil_append, resolve, htable]
  · obtain ⟨_, _, rfl⟩ : _ ∧ _ ∧ rest = [0] := by simpa using hrest
    refine .inr (.inl ⟨rfl, ?_⟩)
    simp only [List.cons_append, List.nil_append, resolve, htable]
  · obtain ⟨_, _, _, rfl⟩ : _ ∧ _ ∧ _ ∧ rest = [] := by simpa using hrest
    refine .inl ⟨rfl, ?_⟩
    simp only [List.nil_append, resolve, userLeaf, hentry, user_tableEntry hn, if_true, hwLeaf,
      present_tableEntry (hn.trans (by decide))]
    simp
  · simp at hrest

/-! ## Pages read as tables -/

theorem toNat_wordByte_zero (w : Word) : (wordByte w 0).toNat = w.toNat % 256 := by
  simp [wordByte]

theorem large_eq (e : Word) : large e = decide (e.toNat / 128 % 2 = 1) :=
  Nat.testBit_eq_decide_div_mod_eq (x := e.toNat) (i := 7)

/-- An entry that is not present ends a walk. -/
theorem resolve_of_not_present (h : present (mem t i) = false) (is : List ℕ) :
    resolve userTable userLeaf mem t (i :: is) = none := by
  cases is with
  | nil => rw [resolve, userLeaf_of_not_present h]
  | cons j is => simp only [resolve, userTable_of_not_present h, userLeaf_of_not_present h]

/-- An entry for a large page that user mode may access ends one at the two lowest levels. -/
theorem resolve_of_large (h : (wordByte (mem t i) 0).toNat = 0x87) (is : List ℕ)
    (hlen : is.length < 3) : (resolve userTable userLeaf mem t (i :: is)).isSome = true := by
  rw [toNat_wordByte_zero] at h
  have hpres : present (mem t i) = true := by
    rw [present_iff]
    omega
  have huser : user (mem t i) = true := by
    rw [user_eq, decide_eq_true_eq]
    omega
  have hlarge : large (mem t i) = true := by
    rw [large_eq, decide_eq_true_eq]
    omega
  cases is with
  | nil => simp [resolve, userLeaf, hwLeaf, hpres, huser]
  | cons j is =>
      have hdepth : is.length + 1 < 3 := hlen
      simp only [resolve, userTable, userLeaf, hwTable, hwLeaf, hpres, huser, hlarge, hdepth]
      simp

/-- What user mode reads when it walks through page 0: the page `n`, or something that is
there if the first word of the page `n` is an entry for a page, and is not if that word is
not present. -/
theorem userByte_zero (hindices : tableIndex v 30 = 0 ∧ tableIndex v 21 = 0 ∧ tableIndex v 12 = 0)
    (hn : n < 2 ^ 40) (hentry : mem 0 0 = tableEntry n) {r : List ℕ} (hr : r ≠ [])
    (hpre : r <+: tablePath v) (hlead : descend userTable mem root r = some 0) :
    userByte mem root v = some (loadByte mem (n * 4096 + v.toNat % 4096)) ∨
      ((wordByte (mem n 0) 0).toNat = 0x87 → (userByte mem root v).isSome = true) ∧
        ((wordByte (mem n 0) 0).toNat % 2 = 0 → userByte mem root v = none) := by
  have hpresent : (wordByte (mem n 0) 0).toNat % 2 = 0 → present (mem n 0) = false := by
    intro heven
    rw [toNat_wordByte_zero] at heven
    rw [← Bool.not_eq_true, present_iff]
    omega
  simp only [userByte, Option.isSome_map, Option.map_eq_none_iff]
  rcases userWalk_zero hindices hn hentry hr hpre hlead with ⟨_, hwalk⟩ | ⟨_, hwalk⟩ | ⟨_, hwalk⟩
  · left
    rw [hwalk, Option.map_some, physAddr_tableEntry hn]
  · right
    rw [hwalk]
    exact ⟨fun h => resolve_of_large h [] (by decide),
      fun h => resolve_of_not_present (hpresent h) []⟩
  · right
    rw [hwalk]
    exact ⟨fun h => resolve_of_large h [0] (by decide),
      fun h => resolve_of_not_present (hpresent h) [0]⟩

end LispDos.Memory
