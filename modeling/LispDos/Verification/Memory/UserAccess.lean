import LispDos.Kernel.Bytes
import LispDos.Verification.Memory.Bytes
import LispDos.Verification.Memory.LowerHalf
import Mathlib.Data.Nat.Bitwise

/-! # Accesses from user mode

The processor lets user mode through an entry only if the bit for user accesses is set at
every level. In the lower half of an address space that `vmm_map_page` has built all
entries have it. -/

namespace LispDos.Memory

open Foundation

variable {m m₁ : Machine} {mem : PhysMem} {root t n : ℕ} {pages S : List ℕ} {v : Word}
  {next : Word → Option ℕ}

/-! ## Translation -/

/-- The table with which a walk from user mode goes on. -/
def userTable (e : Word) : Option ℕ := if user e then hwTable e else none

/-- The entry at which such a walk ends. -/
def userLeaf (k : ℕ) (e : Word) : Option (ℕ × Word) := if user e then hwLeaf k e else none

/-- The translation of an address for user mode. -/
def userWalk (mem : PhysMem) (root : ℕ) (v : Word) : Option (ℕ × Word) :=
  resolve userTable userLeaf mem root (indices v)

/-- The physical address of `v` on a page of `512 ^ k` frames. -/
def physAddr (k : ℕ) (e v : Word) : ℕ :=
  frame e / 512 ^ k * 512 ^ k * 4096 + v.toNat % (4096 * 512 ^ k)

/-- The byte that user mode reads at an address. -/
def userByte (mem : PhysMem) (root : ℕ) (v : Word) : Option UInt8 :=
  (userWalk mem root v).map fun p => loadByte mem (physAddr p.1 p.2 v)

/-- What user mode may access the kernel finds at the same place. -/
theorem walk_of_userWalk {p : ℕ × Word} (h : userWalk mem root v = some p) :
    walk mem root v = some p := by
  refine resolve_mono ?_ ?_ ?_ h
  · intro e s hs
    rw [userTable] at hs
    split_ifs at hs
    exact hs
  · intro k e x hs hx
    rw [userLeaf] at hx
    split_ifs at hx with huser
    rwa [userTable, if_pos huser] at hs
  · intro k e x hx
    rw [userLeaf] at hx
    split_ifs at hx
    exact hx

/-! ## Entries -/

/-- The test of a single bit. -/
theorem bit_test (e : Word) {k : ℕ} (hk : k < 64) :
    (e &&& BitVec.ofNat 64 (2 ^ k) != 0#64) = e.toNat.testBit k := by
  have hpow : 2 ^ k < 2 ^ 64 := Nat.pow_lt_pow_right (by decide) hk
  have hand : (e &&& BitVec.ofNat 64 (2 ^ k)).toNat = (e.toNat.testBit k).toNat * 2 ^ k := by
    rw [BitVec.toNat_and, BitVec.toNat_ofNat, Nat.mod_eq_of_lt hpow, Nat.and_two_pow]
  have hzero : e &&& BitVec.ofNat 64 (2 ^ k) = 0#64 ↔ e.toNat.testBit k = false := by
    rw [← BitVec.toNat_inj, hand]
    cases e.toNat.testBit k <;> simp
  rw [Bool.eq_iff_iff, bne_iff_ne, ne_eq, hzero, Bool.not_eq_false]

theorem user_eq (e : Word) : user e = decide (e.toNat / 4 % 2 = 1) :=
  (bit_test e (k := 2) (by decide)).trans (Nat.testBit_eq_decide_div_mod_eq ..)

theorem writable_eq (e : Word) : writable e = decide (e.toNat / 2 % 2 = 1) :=
  (bit_test e (k := 1) (by decide)).trans (Nat.testBit_eq_decide_div_mod_eq ..)

section TableEntry

variable (hn : n < 2 ^ 40)

include hn

theorem user_tableEntry : user (tableEntry n) = true := by
  rw [user_eq, toNat_tableEntry (hn.trans (by decide)), decide_eq_true_eq]
  omega

theorem writable_tableEntry : writable (tableEntry n) = true := by
  rw [writable_eq, toNat_tableEntry (hn.trans (by decide)), decide_eq_true_eq]
  omega

theorem userTable_tableEntry : userTable (tableEntry n) = some n := by
  rw [userTable, if_pos (user_tableEntry hn), hwTable_tableEntry hn]

theorem frame_tableEntry : frame (tableEntry n) = n := by
  rw [frame_eq, toNat_tableEntry (hn.trans (by decide))]
  omega

theorem physAddr_tableEntry (v : Word) :
    physAddr 0 (tableEntry n) v = n * 4096 + v.toNat % 4096 := by
  rw [physAddr, frame_tableEntry hn, Nat.pow_zero, Nat.div_one, Nat.mul_one, Nat.mul_one]

end TableEntry

theorem userTable_of_not_present {e : Word} (h : present e = false) : userTable e = none := by
  rw [userTable, hwTable_of_not_present h, ite_self]

theorem userLeaf_of_not_present {e : Word} (h : present e = false) (k : ℕ) :
    userLeaf k e = none := by
  rw [userLeaf, hwLeaf_of_not_present h, ite_self]

/-! ## The lower half -/

/-- Walks in the lower half from a table that is reached along `p`. -/
theorem Half.resolve_eq (h : Half m₁ m root pages S) {p is : List ℕ}
    (hpath : LowerPath 4 (p ++ is)) (hne : is ≠ [])
    (hreach : descend codeNext m.mem root p = some t) :
    resolve userTable userLeaf m.mem t is =
        (descend codeNext m.mem t is).map (fun n => (0, tableEntry n)) ∧
      resolve hwTable hwLeaf m.mem t is =
        (descend codeNext m.mem t is).map (fun n => (0, tableEntry n)) := by
  induction is generalizing p t with
  | nil => exact (hne rfl).elim
  | cons i is ih =>
      have hstep : p ++ i :: is = p ++ [i] ++ is := by simp
      rw [hstep] at hpath
      -- an entry is missing, or as `vmm_map_page` writes it
      by_cases hpres : present (m.mem t i) = true
      · obtain ⟨n, hn, hentry⟩ := h.entries p t i hpath.of_append hreach hpres
        have hcode : codeNext (m.mem t i) = some n := by
          rw [hentry, codeNext_tableEntry (hn.trans (by decide))]
        cases is with
        | nil =>
            have hleaf : descend codeNext m.mem t [i] = some n := by
              rw [descend, hcode]
              rfl
            rw [hleaf, Option.map_some, resolve, resolve, userLeaf, hwLeaf, hentry,
              if_pos (user_tableEntry hn), present_tableEntry (hn.trans (by decide))]
            exact ⟨rfl, rfl⟩
        | cons j js =>
            have hdown : descend codeNext m.mem root (p ++ [i]) = some n := by
              rw [descend_snoc, hreach, Option.bind_some, hcode]
            have htable : userTable (m.mem t i) = some n := by
              rw [hentry, userTable_tableEntry hn]
            have hhw : hwTable (m.mem t i) = some n := by rw [hentry, hwTable_tableEntry hn]
            obtain ⟨huser, hwalk⟩ := ih hpath (by simp) hdown
            have hsame : descend codeNext m.mem t (i :: j :: js) =
                descend codeNext m.mem n (j :: js) := by
              rw [descend, hcode, Option.bind_some]
            rw [hsame]
            simp only [resolve, htable, hhw]
            exact ⟨huser, hwalk⟩
      · have hmissing : present (m.mem t i) = false := by simpa using hpres
        have hnone : descend codeNext m.mem t (i :: is) = none := by
          rw [descend, codeNext_of_not_present hmissing, Option.bind_none]
        rw [hnone]
        cases is with
        | nil =>
            simp only [resolve, userLeaf_of_not_present hmissing, hwLeaf_of_not_present hmissing]
            simp
        | cons j js =>
            simp only [resolve, userTable_of_not_present hmissing,
              hwTable_of_not_present hmissing, userLeaf_of_not_present hmissing,
              hwLeaf_of_not_present hmissing]
            simp

/-- The last step of a path in the lower half goes through an entry for its page. -/
theorem Half.last_entry (h : Half m₁ m root pages S) {p : List ℕ} {i : ℕ}
    (hpath : LowerPath 4 (p ++ [i])) (hs : descend codeNext m.mem root (p ++ [i]) = some n) :
    ∃ t, descend codeNext m.mem root p = some t ∧ n < 2 ^ 40 ∧ m.mem t i = tableEntry n := by
  rw [descend_snoc] at hs
  obtain ⟨t, ht, hnext⟩ := Option.bind_eq_some_iff.mp hs
  have hpres : present (m.mem t i) = true := by
    by_contra hnot
    rw [codeNext_of_not_present (by simpa using hnot)] at hnext
    cases hnext
  obtain ⟨n', hn', hentry⟩ := h.entries p t i hpath ht hpres
  rw [hentry, codeNext_tableEntry (hn'.trans (by decide))] at hnext
  obtain rfl := Option.some_inj.mp hnext
  exact ⟨t, ht, hn', hentry⟩

/-- The pages of the lower half have physical addresses of at most 52 bits. -/
theorem Half.small (h : Half m₁ m root pages S) {p : List ℕ} {i : ℕ} (hpath : LowerPath 4 (p ++ [i]))
    (hs : descend codeNext m.mem root (p ++ [i]) = some n) : n < 2 ^ 40 := by
  obtain ⟨_, _, hn, _⟩ := h.last_entry hpath hs
  exact hn

section Walk

variable (h : Half m₁ m root pages S) (hv : v.toNat < 2 ^ 47)

include h hv

/-- User mode sees every page that is mapped in the lower half. -/
theorem Half.userWalk_eq : userWalk m.mem root v =
    (descend codeNext m.mem root (indices v)).map fun n => (0, tableEntry n) :=
  (h.resolve_eq (p := []) (lowerPath_indices hv) (by simp) rfl).1

theorem Half.walk_eq : walk m.mem root v =
    (descend codeNext m.mem root (indices v)).map fun n => (0, tableEntry n) :=
  (h.resolve_eq (p := []) (lowerPath_indices hv) (by simp) rfl).2

theorem Half.userByte_eq : userByte m.mem root v =
    (descend codeNext m.mem root (indices v)).map fun n =>
      loadByte m.mem (n * 4096 + v.toNat % 4096) := by
  rw [userByte, h.userWalk_eq hv, Option.map_map]
  cases hleaf : descend codeNext m.mem root (indices v) with
  | none => rw [Option.map_none, Option.map_none]
  | some n =>
      have hn : n < 2 ^ 40 :=
        h.small (p := [tableIndex v 39, tableIndex v 30, tableIndex v 21]) (lowerPath_indices hv)
          hleaf
      rw [Option.map_some, Option.map_some, Function.comp_apply, physAddr_tableEntry hn]

end Walk

/-! ## The same tables elsewhere -/

/-- A way to read entries that goes through those that `vmm_map_page` makes for tables, and
stops at missing ones. -/
structure FollowsTables (next : Word → Option ℕ) : Prop where
  table : ∀ n < 2 ^ 40, next (tableEntry n) = some n
  missing : ∀ e, present e = false → next e = none

theorem followsTables_code : FollowsTables codeNext :=
  ⟨fun _ hn => codeNext_tableEntry (hn.trans (by decide)), fun _ h => codeNext_of_not_present h⟩

theorem followsTables_user : FollowsTables userTable :=
  ⟨fun _ hn => userTable_tableEntry hn, fun _ h => userTable_of_not_present h⟩

theorem followsTables_hw : FollowsTables hwTable :=
  ⟨fun _ hn => hwTable_tableEntry hn, fun _ h => hwTable_of_not_present h⟩

/-- The tables of the lower half are the same in another memory. -/
def SameTables (m : Machine) (mem : PhysMem) (root : ℕ) : Prop :=
  ∀ q t, LowerPath 3 q → descend codeNext m.mem root q = some t → mem t = m.mem t

section SameTables

variable (h : Half m₁ m root pages S) (hsame : SameTables m mem root)

include h hsame

/-- Walks in the other memory find the tables that `vmm_map_page` finds in this one. -/
theorem Half.descend_same (hnext : FollowsTables next) {q : List ℕ} (hq : LowerPath 4 q) :
    descend next mem root q = descend codeNext m.mem root q := by
  refine descend_congr LowerPath.init ?_ hq
  intro q j s hq hs
  have hlen := hq.1.1
  rw [List.length_append, List.length_singleton] at hlen
  rw [hsame q s ((LowerPath.init q j hq).of_le (by omega)) hs]
  by_cases hpres : present (m.mem s j) = true
  · obtain ⟨n, hn, hentry⟩ := h.entries q s j hq hs hpres
    rw [hentry, hnext.table n hn, codeNext_tableEntry (hn.trans (by decide))]
  · have hmissing : present (m.mem s j) = false := by simpa using hpres
    rw [hnext.missing _ hmissing, codeNext_of_not_present hmissing]

omit hsame in
/-- Such walks in the same memory. -/
theorem Half.descend_next (hnext : FollowsTables next) {q : List ℕ} (hq : LowerPath 4 q) :
    descend next m.mem root q = descend codeNext m.mem root q :=
  h.descend_same (fun _ _ _ _ => rfl) hnext hq

theorem Half.resolve_same (hnext : FollowsTables next) (leaf : ℕ → Word → Option (ℕ × Word))
    (hv : v.toNat < 2 ^ 47) :
    resolve next leaf mem root (indices v) = resolve next leaf m.mem root (indices v) := by
  refine resolve_congr (indices v) root ?_
  intro q j r s hq hs
  have hpath : LowerPath 4 (q ++ [j]) := by
    have hall := lowerPath_indices hv
    rw [hq, ← List.singleton_append, ← List.append_assoc] at hall
    exact hall.of_append
  have hlen := hpath.1.1
  rw [List.length_append, List.length_singleton] at hlen
  have hq4 := LowerPath.init q j hpath
  rw [h.descend_next hnext hq4] at hs
  rw [hsame q s (hq4.of_le (by omega)) hs]

theorem Half.userWalk_same (hv : v.toNat < 2 ^ 47) : userWalk mem root v = userWalk m.mem root v :=
  h.resolve_same hsame followsTables_user userLeaf hv

theorem Half.walk_same (hv : v.toNat < 2 ^ 47) : walk mem root v = walk m.mem root v :=
  h.resolve_same hsame followsTables_hw hwLeaf hv

/-- The byte at an address, if its page is the same, too. -/
theorem Half.userByte_same (hv : v.toNat < 2 ^ 47)
    (hleaf : ∀ x, descend codeNext m.mem root (indices v) = some x → mem x = m.mem x) :
    userByte mem root v = userByte m.mem root v := by
  rw [userByte, h.userWalk_same hsame hv, h.userByte_eq hv, h.userWalk_eq hv, Option.map_map]
  cases hx : descend codeNext m.mem root (indices v) with
  | none => rfl
  | some x =>
      have hn : x < 2 ^ 40 :=
        h.small (p := [tableIndex v 39, tableIndex v 30, tableIndex v 21]) (lowerPath_indices hv) hx
      rw [Option.map_some, Option.map_some, Function.comp_apply, physAddr_tableEntry hn]
      have hpage : (x * 4096 + v.toNat % 4096) / 4096 = x := by omega
      exact congrArg some (loadByte_congr (by rw [hpage, hleaf x hx]) rfl)

end SameTables

end LispDos.Memory
