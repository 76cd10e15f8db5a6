import Mathlib.Algebra.BigOperators.Group.Finset.Basic
import Mathlib.Data.Fintype.BigOperators
import Mathlib.Data.List.FinRange
import Mathlib.Tactic.Common

/-! # File stores

A directory of a fixed number of slots over a fixed number of blocks. A slot is free or holds a
file; no two files have the same key. A file is replaced in its slot, and a new one takes the
first free slot. A file that is replaced gives its blocks back before the new one takes its
own, so that a replacement for which there is no room leaves the old file torn. -/

namespace LispDos.Foundation

variable {κ β : Type*} {n : ℕ}

structure File (κ β : Type*) where
  key : κ
  data : List β

structure FileStore (κ β : Type*) (n : ℕ) where
  file : Fin n → Option (File κ β)
  distinct : ∀ i j f g, file i = some f → file j = some g → f.key = g.key → i = j

namespace FileStore

@[ext] theorem ext {s t : FileStore κ β n} (h : ∀ i, s.file i = t.file i) : s = t := by
  cases s
  cases t
  congr
  exact funext h

def empty : FileStore κ β n where
  file _ := none
  distinct := by
    intro i j f g hf
    cases hf

/-- The files in the order of their slots. -/
def files (s : FileStore κ β n) : List (File κ β) := (List.finRange n).filterMap s.file

/-- The blocks of all files but the one in slot `i`. -/
def usedBeside (blocks : ℕ → ℕ) (s : FileStore κ β n) (i : Fin n) : ℕ :=
  ∑ j ∈ Finset.univ.erase i, (s.file j).elim 0 fun f => blocks f.data.length

def firstFree (s : FileStore κ β n) : Option (Fin n) :=
  (List.finRange n).find? fun i => (s.file i).isNone

theorem firstFree_eq_some_iff {s : FileStore κ β n} {i : Fin n} :
    s.firstFree = some i ↔ s.file i = none ∧ ∀ j < i, s.file j ≠ none := by
  rw [firstFree, List.find?_eq_some_iff_getElem]
  constructor
  · rintro ⟨hi, m, hm, rfl, hbefore⟩
    refine ⟨Option.isNone_iff_eq_none.mp hi, ?_⟩
    intro j hj hnone
    have hlt : j.val < m := by
      rw [List.getElem_finRange] at hj
      exact hj
    have := hbefore j.val hlt
    rw [List.getElem_finRange] at this
    simp [hnone] at this
  · rintro ⟨hi, hbefore⟩
    refine ⟨Option.isNone_iff_eq_none.mpr hi, i.val, by simp, by simp, ?_⟩
    intro m hm
    rw [List.getElem_finRange]
    simp only [Fin.cast_mk, Bool.not_eq_true', Option.isNone_eq_false_iff]
    exact Option.isSome_iff_ne_none.mpr (hbefore ⟨m, by omega⟩ hm)

theorem firstFree_eq_none_iff {s : FileStore κ β n} : s.firstFree = none ↔ ∀ i, s.file i ≠ none := by
  rw [firstFree, List.find?_eq_none]
  simp

/-- A slot is freed. -/
def erase (s : FileStore κ β n) (i : Fin n) : FileStore κ β n where
  file := Function.update s.file i none
  distinct := by
    intro a b f g ha hb hkey
    by_cases hai : a = i
    · rw [hai, Function.update_self] at ha
      cases ha
    · by_cases hbi : b = i
      · rw [hbi, Function.update_self] at hb
        cases hb
      · rw [Function.update_of_ne hai] at ha
        rw [Function.update_of_ne hbi] at hb
        exact s.distinct a b f g ha hb hkey

theorem erase_file_self (s : FileStore κ β n) (i : Fin n) : (s.erase i).file i = none :=
  Function.update_self ..

theorem erase_file_ne (s : FileStore κ β n) {i j : Fin n} (h : j ≠ i) :
    (s.erase i).file j = s.file j := Function.update_of_ne h ..

variable [DecidableEq κ]

/-- The slot of a key. -/
def find (s : FileStore κ β n) (k : κ) : Option (Fin n) :=
  (List.finRange n).find? fun i => (s.file i).any fun f => f.key = k

/-- The contents under a key. -/
def get (s : FileStore κ β n) (k : κ) : Option (List β) :=
  (s.find k).bind fun i => (s.file i).map File.data

/-- The slot that a file of the key goes to. -/
def slotFor (s : FileStore κ β n) (k : κ) : Option (Fin n) := (s.find k).or s.firstFree

variable {s : FileStore κ β n} {k : κ} {i j : Fin n} {f : File κ β} {data : List β}

theorem find_eq_some_iff : s.find k = some i ↔ ∃ f, s.file i = some f ∧ f.key = k := by
  have hspec : (s.file i).any (fun f => f.key = k) = true ↔ ∃ f, s.file i = some f ∧ f.key = k := by
    rw [Option.any_eq_true]
    simp
  constructor
  · intro h
    unfold find at h
    have hi := List.find?_some h
    exact hspec.mp hi
  · intro h
    obtain ⟨f, hf, hk⟩ := h
    cases hfind : s.find k with
    | none =>
        have hnone := List.find?_eq_none.mp hfind i (List.mem_finRange i)
        exact absurd (hspec.mpr ⟨f, hf, hk⟩) hnone
    | some j =>
        have hj := hfind
        unfold find at hj
        replace hj := List.find?_some hj
        rw [Option.any_eq_true] at hj
        obtain ⟨g, hg, hgk⟩ := hj
        rw [s.distinct j i g f hg hf ((of_decide_eq_true hgk).trans hk.symm)]

/-- No other slot has the key. -/
theorem slotFor_key_ne (h : s.slotFor k = some i) (hj : s.file j = some f) (hji : j ≠ i) :
    f.key ≠ k := by
  intro hk
  rw [slotFor, find_eq_some_iff.mpr ⟨f, hj, hk⟩, Option.some_or] at h
  exact hji (Option.some.inj h)

/-- A file is put into the slot of its key. -/
def store (s : FileStore κ β n) (k : κ) (data : List β) (i : Fin n) (h : s.slotFor k = some i) :
    FileStore κ β n where
  file := Function.update s.file i (some ⟨k, data⟩)
  distinct := by
    intro a b f g ha hb hkey
    by_cases hai : a = i
    · by_cases hbi : b = i
      · rw [hai, hbi]
      · rw [hai, Function.update_self] at ha
        rw [Function.update_of_ne hbi] at hb
        cases ha
        exact absurd hkey.symm (slotFor_key_ne h hb hbi)
    · rw [Function.update_of_ne hai] at ha
      by_cases hbi : b = i
      · rw [hbi, Function.update_self] at hb
        cases hb
        exact absurd hkey (slotFor_key_ne h ha hai)
      · rw [Function.update_of_ne hbi] at hb
        exact s.distinct a b f g ha hb hkey

theorem store_file_self (h : s.slotFor k = some i) :
    (s.store k data i h).file i = some ⟨k, data⟩ := Function.update_self ..

theorem store_file_ne (h : s.slotFor k = some i) (hji : j ≠ i) :
    (s.store k data i h).file j = s.file j := Function.update_of_ne hji ..

/-- How a write ends: the file is stored, or nothing has changed, or the old file is torn. -/
inductive Put (κ β : Type*) (n : ℕ) where
  | done (s : FileStore κ β n)
  | refused
  | torn

/-- A write to a store of `total` blocks. -/
def put (blocks : ℕ → ℕ) (total : ℕ) (s : FileStore κ β n) (k : κ) (data : List β) : Put κ β n :=
  match h : s.slotFor k with
  | none => .refused
  | some i =>
      if s.usedBeside blocks i + blocks data.length ≤ total then .done (s.store k data i h)
      else if (s.find k).isSome then .torn else .refused

theorem put_of_none {blocks : ℕ → ℕ} {total : ℕ} (h : s.slotFor k = none) :
    s.put blocks total k data = .refused := by
  unfold put
  split
  · rfl
  · rename_i hi
    rw [h] at hi
    cases hi

theorem put_of_some {blocks : ℕ → ℕ} {total : ℕ} (h : s.slotFor k = some i) :
    s.put blocks total k data =
      if s.usedBeside blocks i + blocks data.length ≤ total then .done (s.store k data i h)
      else if (s.find k).isSome then .torn else .refused := by
  unfold put
  split
  · rename_i hi
    rw [h] at hi
    cases hi
  · rename_i j hj
    cases h.symm.trans hj
    rfl

theorem exists_store_of_put {blocks : ℕ → ℕ} {total : ℕ} {t : FileStore κ β n}
    (h : s.put blocks total k data = .done t) : ∃ i hi, t = s.store k data i hi := by
  by_cases hnone : s.slotFor k = none
  · rw [put_of_none hnone] at h
    cases h
  · obtain ⟨i, hslot⟩ := Option.ne_none_iff_exists'.mp hnone
    rw [put_of_some hslot] at h
    split_ifs at h
    exact ⟨i, hslot, (Put.done.inj h).symm⟩

def delete (s : FileStore κ β n) (k : κ) : FileStore κ β n := (s.find k).elim s s.erase

/-! ## The map from keys to contents -/

theorem get_eq_some_iff : s.get k = some data ↔ ∃ i, s.file i = some ⟨k, data⟩ := by
  rw [get, Option.bind_eq_some_iff]
  constructor
  · rintro ⟨i, hi, hdata⟩
    obtain ⟨f, hf, hk⟩ := find_eq_some_iff.mp hi
    rw [hf, Option.map_some] at hdata
    refine ⟨i, ?_⟩
    rw [hf, ← hk, ← Option.some.inj hdata]
  · rintro ⟨i, hi⟩
    refine ⟨i, find_eq_some_iff.mpr ⟨_, hi, rfl⟩, ?_⟩
    rw [hi, Option.map_some]

theorem get_store_self (h : s.slotFor k = some i) : (s.store k data i h).get k = some data :=
  get_eq_some_iff.mpr ⟨i, store_file_self h⟩

theorem get_store_ne {k' : κ} (h : s.slotFor k = some i) (hne : k' ≠ k) :
    (s.store k data i h).get k' = s.get k' := by
  refine Option.ext fun data' => ?_
  rw [get_eq_some_iff, get_eq_some_iff]
  constructor
  · rintro ⟨j, hj⟩
    by_cases hji : j = i
    · rw [hji, store_file_self] at hj
      cases hj
      exact absurd rfl hne
    · rw [store_file_ne h hji] at hj
      exact ⟨j, hj⟩
  · rintro ⟨j, hj⟩
    have hji : j ≠ i := by
      rintro rfl
      -- the slot is free, or its file has the key that is stored
      rw [slotFor] at h
      cases hfind : s.find k with
      | some i' =>
          rw [hfind, Option.some_or] at h
          cases h
          obtain ⟨f, hf, hk⟩ := find_eq_some_iff.mp hfind
          rw [hf] at hj
          cases hj
          exact hne hk
      | none =>
          rw [hfind, Option.none_or] at h
          rw [(firstFree_eq_some_iff.mp h).1] at hj
          cases hj
    exact ⟨j, (store_file_ne h hji).trans hj⟩

theorem get_delete_self : (s.delete k).get k = none := by
  rw [delete]
  cases hfind : s.find k with
  | none => rw [Option.elim_none, get, hfind, Option.bind_none]
  | some i =>
      rw [Option.elim_some, Option.eq_none_iff_forall_ne_some]
      intro data hget
      obtain ⟨j, hj⟩ := get_eq_some_iff.mp hget
      by_cases hji : j = i
      · rw [hji, erase_file_self] at hj
        cases hj
      · rw [erase_file_ne s hji] at hj
        have hfind' := find_eq_some_iff.mpr ⟨_, hj, rfl⟩
        rw [hfind] at hfind'
        exact hji (Option.some.inj hfind').symm

theorem get_delete_ne {k' : κ} (hne : k' ≠ k) : (s.delete k).get k' = s.get k' := by
  rw [delete]
  cases hfind : s.find k with
  | none => rfl
  | some i =>
      obtain ⟨f, hf, hk⟩ := find_eq_some_iff.mp hfind
      refine Option.ext fun data => ?_
      rw [Option.elim_some, get_eq_some_iff, get_eq_some_iff]
      have hother : ∀ j, (s.erase i).file j = some ⟨k', data⟩ ↔ s.file j = some ⟨k', data⟩ := by
        intro j
        by_cases hji : j = i
        · rw [hji, erase_file_self, hf]
          refine iff_of_false nofun ?_
          intro hj
          cases hj
          exact hne hk
        · rw [erase_file_ne s hji]
      exact exists_congr hother

end FileStore

end LispDos.Foundation
