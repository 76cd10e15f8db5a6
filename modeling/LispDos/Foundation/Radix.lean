import Mathlib.Data.List.Induction
import Mathlib.Data.List.Nodup
import Mathlib.Data.Option.Basic
import Mathlib.Tactic.Common

/-! # Radix trees in a memory of tables

A memory holds tables of entries, and an entry may refer to a further table. A path of
indices leads from a root to a table. When no table is reached by two paths, a store
into a table has an effect on the paths through that entry only. -/

namespace LispDos.Foundation

variable {α β : Type*} (next : α → Option ℕ) (leaf : ℕ → α → Option β)

/-- The table reached from `t` along the indices. -/
def descend (mem : ℕ → ℕ → α) : ℕ → List ℕ → Option ℕ
  | t, [] => some t
  | t, i :: is => (next (mem t i)).bind fun s => descend mem s is

/-- Where a walk along the indices ends: at the last index, or at the first entry that
refers to no table. The number counts the indices left over. -/
def resolve (mem : ℕ → ℕ → α) : ℕ → List ℕ → Option β
  | _, [] => none
  | t, [i] => leaf 0 (mem t i)
  | t, i :: j :: is =>
      match next (mem t i) with
      | some s => resolve mem s (j :: is)
      | none => leaf (is.length + 1) (mem t i)

variable {next leaf} {mem mem' : ℕ → ℕ → α} {root t n i : ℕ} {p : List ℕ}

theorem descend_append (t : ℕ) (p q : List ℕ) :
    descend next mem t (p ++ q) = (descend next mem t p).bind fun s => descend next mem s q := by
  induction p generalizing t with
  | nil => rfl
  | cons i p ih =>
      simp only [List.cons_append, descend, Option.bind_assoc]
      congr 1
      funext s
      exact ih s

theorem descend_snoc (t : ℕ) (p : List ℕ) (i : ℕ) :
    descend next mem t (p ++ [i]) = (descend next mem t p).bind fun s => next (mem s i) := by
  rw [descend_append]
  congr 1
  funext s
  simp [descend]

/-- A walk passes through the tables its path leads to. -/
theorem resolve_append {q : List ℕ} (hq : q ≠ []) (h : descend next mem root p = some t) :
    resolve next leaf mem root (p ++ q) = resolve next leaf mem t q := by
  induction p generalizing root with
  | nil =>
      obtain rfl := Option.some_inj.mp h
      rfl
  | cons i p ih =>
      obtain ⟨s, hs, hrest⟩ := Option.bind_eq_some_iff.mp h
      have hcons : ∃ j js, p ++ q = j :: js := List.exists_cons_of_ne_nil (by simp [hq])
      obtain ⟨j, js, hj⟩ := hcons
      rw [List.cons_append, hj]
      simp only [resolve, hs]
      rw [← hj]
      exact ih hrest

/-- A walk that ends somewhere ends there too when fewer entries are refused. -/
theorem resolve_mono {next' : α → Option ℕ} {leaf' : ℕ → α → Option β} {is : List ℕ} {x : β}
    (hnext : ∀ e s, next e = some s → next' e = some s)
    (hstop : ∀ k e x, next e = none → leaf k e = some x → next' e = none)
    (hleaf : ∀ k e x, leaf k e = some x → leaf' k e = some x)
    (h : resolve next leaf mem root is = some x) : resolve next' leaf' mem root is = some x := by
  induction is generalizing root with
  | nil => cases h
  | cons i is ih =>
      cases is with
      | nil => exact hleaf _ _ _ h
      | cons j js =>
          simp only [resolve] at h ⊢
          cases hs : next (mem root i) with
          | some s =>
              rw [hs] at h
              rw [hnext _ _ hs]
              exact ih h
          | none =>
              rw [hs] at h
              rw [hstop _ _ _ hs h]
              exact hleaf _ _ _ h

/-- Two walks agree when their first entries do and what is below them. -/
theorem resolve_cons_congr {t t' i : ℕ} {is : List ℕ} (hentry : mem' t' i = mem t i)
    (hbelow : ∀ s, next (mem t i) = some s →
      resolve next leaf mem' s is = resolve next leaf mem s is) :
    resolve next leaf mem' t' (i :: is) = resolve next leaf mem t (i :: is) := by
  cases is with
  | nil => simp only [resolve, hentry]
  | cons j js =>
      simp only [resolve, hentry]
      cases hnext : next (mem t i) with
      | none => rfl
      | some s => exact hbelow s hnext

/-- A walk depends on the entries it passes only. -/
theorem resolve_congr (is : List ℕ) (root : ℕ)
    (h : ∀ q j r s, is = q ++ j :: r → descend next mem root q = some s → mem' s j = mem s j) :
    resolve next leaf mem' root is = resolve next leaf mem root is := by
  induction is generalizing root with
  | nil => rfl
  | cons i is ih =>
      refine resolve_cons_congr (h [] i is root rfl rfl) ?_
      intro s hnext
      apply ih
      intro q k r u hq hu
      refine h (i :: q) k r u (by rw [hq, List.cons_append]) ?_
      simp only [descend, hnext, Option.bind_some]
      exact hu

/-! ## Unshared tables -/

section Unshared

variable {L V : List ℕ → Prop}

/-- A table reached along a path of `L` is reached along no other path of `V`. -/
def Unshared (next : α → Option ℕ) (L V : List ℕ → Prop) (mem : ℕ → ℕ → α) (root : ℕ) : Prop :=
  ∀ p q t, L p → V q → descend next mem root p = some t → descend next mem root q = some t → p = q

/-- Paths depend on the entries they pass only, and on how these are read. -/
theorem descend_congr {next' : α → Option ℕ} (hV : ∀ q j, V (q ++ [j]) → V q)
    (h : ∀ q j s, V (q ++ [j]) → descend next mem root q = some s →
      next' (mem' s j) = next (mem s j)) {q : List ℕ} (hq : V q) :
    descend next' mem' root q = descend next mem root q := by
  induction q using List.reverseRecOn with
  | nil => rfl
  | append_singleton q j ih =>
      rw [descend_snoc, descend_snoc, ih (hV q j hq)]
      cases hs : descend next mem root q with
      | none => rfl
      | some s => exact h q j s hq hs

/-- The memory after the entry `i` of table `t` is made to refer to the table `n`. -/
structure Attached (next : α → Option ℕ) (V : List ℕ → Prop) (mem mem' : ℕ → ℕ → α)
    (root : ℕ) (p : List ℕ) (t i n : ℕ) : Prop where
  reach : descend next mem root p = some t
  fresh : ∀ q, V q → descend next mem root q ≠ some n
  old : next (mem t i) = none
  new : next (mem' t i) = some n
  same : ∀ s j, s ≠ n → (s ≠ t ∨ j ≠ i) → mem' s j = mem s j
  empty : ∀ j, V (p ++ [i] ++ [j]) → next (mem' n j) = none

/-- The new table is reached along its own path, and no other path changes. -/
theorem Attached.descend_eq (h : Attached next V mem mem' root p t i n)
    (hun : Unshared next L V mem root) (hV : ∀ q j, V (q ++ [j]) → V q) (hL : L p)
    {q : List ℕ} (hq : V q) :
    descend next mem' root q = if q = p ++ [i] then some n else descend next mem root q := by
  induction q using List.reverseRecOn with
  | nil =>
      have hne : [] ≠ p ++ [i] := by simp
      rw [if_neg hne]
      rfl
  | append_singleton q j ih =>
      have hVq := hV q j hq
      rw [descend_snoc, ih hVq]
      by_cases hqp : q = p ++ [i]
      · -- below the new table there is nothing, as before below the old entry
        subst q
        have hne : p ++ [i] ++ [j] ≠ p ++ [i] := by simp
        rw [if_pos rfl, if_neg hne, descend_snoc, descend_snoc, h.reach]
        simp [h.old, h.empty j hq]
      · rw [if_neg hqp, descend_snoc]
        cases hs : descend next mem root q with
        | none =>
            have hne : q ++ [j] ≠ p ++ [i] := by
              intro heq
              obtain ⟨rfl, _⟩ := List.append_inj' heq rfl
              rw [h.reach] at hs
              cases hs
            rw [if_neg hne]
            rfl
        | some s =>
            have hsn : s ≠ n := by
              rintro rfl
              exact h.fresh q hVq hs
            simp only [Option.bind_some]
            by_cases heq : q ++ [j] = p ++ [i]
            · obtain ⟨rfl, hj⟩ := List.append_inj' heq rfl
              obtain rfl : j = i := by simpa using hj
              obtain rfl : t = s := Option.some_inj.mp (h.reach.symm.trans hs)
              rw [if_pos rfl, h.new]
            · rw [if_neg heq, h.same s j hsn]
              by_contra hboth
              rw [not_or, not_not, not_not] at hboth
              obtain ⟨rfl, rfl⟩ := hboth
              obtain rfl := hun p q s hL hVq h.reach hs
              exact heq rfl

/-- Attaching a fresh table keeps the tables unshared. -/
theorem Attached.unshared (h : Attached next V mem mem' root p t i n)
    (hun : Unshared next L V mem root) (hV : ∀ q j, V (q ++ [j]) → V q) (hL : L p)
    (hLV : ∀ q, L q → V q) : Unshared next L V mem' root := by
  intro q r s hq hr hqs hrs
  rw [h.descend_eq hun hV hL (hLV q hq)] at hqs
  rw [h.descend_eq hun hV hL hr] at hrs
  split at hqs
  · obtain rfl := Option.some_inj.mp hqs
    split at hrs
    · rename_i h₁ h₂
      rw [h₁, h₂]
    · exact (h.fresh r hr hrs).elim
  · split at hrs
    · obtain rfl := Option.some_inj.mp hrs
      exact (h.fresh q (hLV q hq) hqs).elim
    · exact hun q r s hq hr hqs hrs

/-! ## Walks -/

/-- Attaching a table without entries changes no walk. -/
theorem Attached.resolve_eq (h : Attached next V mem mem' root p t i n)
    (hun : Unshared next L V mem root) (hV : ∀ q j, V (q ++ [j]) → V q) (hL : L p) (hp : V p)
    (hold : ∀ k, leaf k (mem t i) = none)
    (hempty : ∀ j, next (mem' n j) = none ∧ ∀ k, leaf k (mem' n j) = none) {is : List ℕ}
    (his : ∀ q j r, is = q ++ j :: r → V q) (hlong : p.length + 1 < is.length) :
    resolve next leaf mem' root is = resolve next leaf mem root is := by
  by_cases hthrough : ∃ r, is = p ++ i :: r
  · obtain ⟨r, rfl⟩ := hthrough
    have hreach : descend next mem' root p = some t := by
      have hne : p ≠ p ++ [i] := by simp
      rw [h.descend_eq hun hV hL hp, if_neg hne, h.reach]
    rw [resolve_append (by simp) hreach, resolve_append (by simp) h.reach]
    cases r with
    | nil => simp at hlong
    | cons j js =>
        simp only [resolve, h.new, h.old, hold]
        cases js with
        | nil => exact (hempty j).2 0
        | cons k ks => simp only [resolve, (hempty j).1, (hempty j).2]
  · apply resolve_congr
    intro q j r s hq hs
    have hsn : s ≠ n := by
      rintro rfl
      exact h.fresh q (his q j r hq) hs
    apply h.same s j hsn
    by_contra hboth
    rw [not_or, not_not, not_not] at hboth
    obtain ⟨rfl, rfl⟩ := hboth
    obtain rfl := hun p q s hL (his q j r hq) h.reach hs
    exact hthrough ⟨r, hq⟩

/-- A store into an entry at the end of a path changes the walk along that path only. -/
theorem resolve_store (hun : Unshared next L V mem root) (hL : L p)
    (hreach : descend next mem root p = some t) (hreach' : descend next mem' root p = some t)
    (hsame : ∀ s j, s ≠ t ∨ j ≠ i → mem' s j = mem s j) {is : List ℕ}
    (his : ∀ q j r, is = q ++ j :: r → V q) (hlen : is.length = p.length + 1) :
    resolve next leaf mem' root is =
      if is = p ++ [i] then leaf 0 (mem' t i) else resolve next leaf mem root is := by
  split
  · rename_i heq
    rw [heq, resolve_append (by simp) hreach']
    rfl
  · rename_i hne
    apply resolve_congr
    intro q j r s hq hs
    apply hsame
    by_contra hboth
    rw [not_or, not_not, not_not] at hboth
    obtain ⟨rfl, rfl⟩ := hboth
    obtain rfl := hun p q s hL (his q j r hq) hreach hs
    have hnil : r = [] := by
      rw [hq] at hlen
      simpa using hlen
    rw [hnil] at hq
    exact hne hq

end Unshared

/-! ## Enumeration -/

/-- The tables below the first `count` entries of `t`, down to the given depth, each
after those below it. Lower tables have `width` entries. -/
def subtables (next : α → Option ℕ) (mem : ℕ → ℕ → α) (width : ℕ) : ℕ → ℕ → ℕ → List ℕ
  | 0, _, _ => []
  | d + 1, count, t =>
      (List.range count).flatMap fun i =>
        (next (mem t i)).elim [] fun s => subtables next mem width d width s ++ [s]

/-- The nonempty paths that the enumeration follows. -/
def Below (width d count i : ℕ) (q : List ℕ) : Prop :=
  i < count ∧ (∀ j ∈ q, j < width) ∧ q.length < d

/-- What one entry contributes to the enumeration, given what the next depth lists. -/
theorem mem_subtables_entry {width d x : ℕ}
    (hd : ∀ s, x ∈ subtables next mem width d width s ↔
      ∃ i q, Below width d width i q ∧ descend next mem s (i :: q) = some x) (t k : ℕ) :
    x ∈ (next (mem t k)).elim [] (fun s => subtables next mem width d width s ++ [s]) ↔
      ∃ q, (∀ j ∈ q, j < width) ∧ q.length < d + 1 ∧ descend next mem t (k :: q) = some x := by
  cases hs : next (mem t k) with
  | none => simp [descend, hs]
  | some s =>
      rw [Option.elim_some, List.mem_append, List.mem_singleton, hd]
      simp only [descend, hs, Option.bind_some]
      constructor
      · rintro (⟨j, q, ⟨hj, hq, hlen⟩, hdesc⟩ | rfl)
        · exact ⟨j :: q, List.forall_mem_cons.mpr ⟨hj, hq⟩, by simpa using hlen, hdesc⟩
        · exact ⟨[], by simp, by simp, rfl⟩
      · rintro ⟨q, hq, hlen, hdesc⟩
        cases q with
        | nil => exact .inr (Option.some_inj.mp hdesc).symm
        | cons j q =>
            obtain ⟨hj, hq⟩ := List.forall_mem_cons.mp hq
            exact .inl ⟨j, q, ⟨hj, hq, by simpa using hlen⟩, hdesc⟩

theorem mem_subtables {width : ℕ} (d count t x : ℕ) :
    x ∈ subtables next mem width d count t ↔
      ∃ i q, Below width d count i q ∧ descend next mem t (i :: q) = some x := by
  induction d generalizing count t with
  | zero => simp [subtables, Below]
  | succ d ih =>
      simp only [subtables, List.mem_flatMap, List.mem_range, mem_subtables_entry (ih width)]
      constructor
      · rintro ⟨i, hi, q, hq, hlen, hdesc⟩
        exact ⟨i, q, ⟨hi, hq, hlen⟩, hdesc⟩
      · rintro ⟨i, q, ⟨hi, hq, hlen⟩, hdesc⟩
        exact ⟨i, hi, q, hq, hlen, hdesc⟩

/-- Tables that are reached along one path only are listed once. -/
theorem nodup_subtables {width : ℕ} (d count t : ℕ)
    (hinj : ∀ i q j r x, Below width d count i q → Below width d count j r →
      descend next mem t (i :: q) = some x → descend next mem t (j :: r) = some x →
        i :: q = j :: r) : (subtables next mem width d count t).Nodup := by
  induction d generalizing count t with
  | zero => exact List.nodup_nil
  | succ d ih =>
      have hstep : ∀ i s q, next (mem t i) = some s →
          descend next mem t (i :: q) = descend next mem s q := by
        intro i s q hs
        rw [descend, hs, Option.bind_some]
      simp only [subtables, List.nodup_flatMap]
      constructor
      · intro i hi
        have hi := List.mem_range.mp hi
        cases hs : next (mem t i) with
        | none => exact List.nodup_nil
        | some s =>
            rw [Option.elim_some, List.nodup_append]
            refine ⟨ih width s ?_, List.nodup_singleton s, ?_⟩
            · intro j q k r x hj hk hjx hkx
              rw [← hstep i s _ hs] at hjx hkx
              have heq := hinj i (j :: q) i (k :: r) x
                ⟨hi, List.forall_mem_cons.mpr ⟨hj.1, hj.2.1⟩, by simpa using hj.2.2⟩
                ⟨hi, List.forall_mem_cons.mpr ⟨hk.1, hk.2.1⟩, by simpa using hk.2.2⟩ hjx hkx
              exact (List.cons.inj heq).2
            · intro x hx y hy
              rw [List.mem_singleton] at hy
              rintro rfl
              obtain ⟨j, q, hj, hjx⟩ := (mem_subtables d width s x).mp hx
              rw [← hstep i s _ hs] at hjx
              have hself : descend next mem t [i] = some x := by
                rw [hstep i s _ hs, hy]
                rfl
              have heq := hinj i (j :: q) i [] x
                ⟨hi, List.forall_mem_cons.mpr ⟨hj.1, hj.2.1⟩, by simpa using hj.2.2⟩
                ⟨hi, by simp, by simp⟩ hjx hself
              simp at heq
      · -- two entries lead to disjoint sets of tables
        refine List.nodup_range.imp_of_mem ?_
        intro i j hi hj hij x hxi hxj
        have hd : ∀ s, x ∈ subtables next mem width d width s ↔ _ :=
          fun s => mem_subtables d width s x
        obtain ⟨q, hq, hlen, hqx⟩ := (mem_subtables_entry hd t i).mp hxi
        obtain ⟨r, hr, hlen', hrx⟩ := (mem_subtables_entry hd t j).mp hxj
        have hBi : Below width (d + 1) count i q := ⟨List.mem_range.mp hi, hq, hlen⟩
        have hBj : Below width (d + 1) count j r := ⟨List.mem_range.mp hj, hr, hlen'⟩
        exact hij (List.cons.inj (hinj i q j r x hBi hBj hqx hrx)).1

end LispDos.Foundation
