import Mathlib.Data.List.Basic
import Mathlib.Data.List.Induction
import Mathlib.Data.List.Nodup
import Mathlib.Tactic.Common

/-! # Bounded tables

A table of entries with keys. An entry takes the place of the one that has its key, or is
added at the end while there is room. After any history of entries the table is a map of the
keys that came first. -/

namespace LispDos.Foundation

variable {α κ : Type*} [DecidableEq κ] {cap : ℕ} {table h : List α} {a : α} {k : κ}

section Definitions

variable (key : α → κ)

/-- The first entry with the key of `a` is replaced. -/
def tableReplace (a : α) : List α → List α
  | [] => []
  | b :: bs => if key b = key a then a :: bs else b :: tableReplace a bs

def tablePut (cap : ℕ) (table : List α) (a : α) : List α :=
  if key a ∈ table.map key then tableReplace key a table
  else if table.length < cap then table ++ [a]
  else table

def tableFind (table : List α) (k : κ) : Option α := table.find? fun b => key b = k

/-- The last entry of a history with the key. -/
def lastEntry (h : List α) (k : κ) : Option α := h.reverse.find? fun b => key b = k

/-- The keys of a history in the order in which they first occur. -/
def firstKeys (h : List α) : List κ :=
  h.foldl (fun ks a => if key a ∈ ks then ks else ks ++ [key a]) []

end Definitions

variable {key : α → κ}

/-! ## One entry -/

theorem map_tableReplace (a : α) (table : List α) :
    (tableReplace key a table).map key = table.map key := by
  induction table with
  | nil => rfl
  | cons b bs ih =>
      rw [tableReplace]
      split
      · rename_i hb
        rw [List.map_cons, List.map_cons, hb]
      · rw [List.map_cons, List.map_cons, ih]

theorem mem_tableReplace {b : α} (hb : b ∈ tableReplace key a table) : b ∈ table ∨ b = a := by
  induction table with
  | nil => cases hb
  | cons c cs ih =>
      rw [tableReplace] at hb
      split at hb
      · rcases List.mem_cons.mp hb with rfl | hmem
        · exact .inr rfl
        · exact .inl (List.mem_cons_of_mem _ hmem)
      · rcases List.mem_cons.mp hb with rfl | hmem
        · exact .inl List.mem_cons_self
        · exact (ih hmem).imp_left (List.mem_cons_of_mem _)

/-- No entry comes in but the new one. -/
theorem mem_tablePut {b : α} (hb : b ∈ tablePut key cap table a) : b ∈ table ∨ b = a := by
  rw [tablePut] at hb
  split_ifs at hb
  · exact mem_tableReplace hb
  · simpa using hb
  · exact .inl hb

theorem tableFind_replace_self (hmem : key a ∈ table.map key) :
    tableFind key (tableReplace key a table) (key a) = some a := by
  induction table with
  | nil => cases hmem
  | cons b bs ih =>
      rw [tableReplace, tableFind]
      by_cases hb : key b = key a
      · rw [if_pos hb, List.find?_cons_of_pos (by simp)]
      · rw [if_neg hb, List.find?_cons_of_neg (by simpa using hb)]
        rw [List.map_cons, List.mem_cons] at hmem
        exact ih (hmem.resolve_left fun heq => hb heq.symm)

theorem tableFind_replace_ne (hk : k ≠ key a) :
    tableFind key (tableReplace key a table) k = tableFind key table k := by
  induction table with
  | nil => rfl
  | cons b bs ih =>
      rw [tableReplace]
      by_cases hb : key b = key a
      · have hbk : key b ≠ k := fun heq => hk (heq.symm.trans hb)
        rw [if_pos hb, tableFind, tableFind, List.find?_cons_of_neg (by simpa using hk.symm),
          List.find?_cons_of_neg (by simpa using hbk)]
      · rw [if_neg hb]
        by_cases hbk : key b = k
        · rw [tableFind, tableFind, List.find?_cons_of_pos (by simpa using hbk),
            List.find?_cons_of_pos (by simpa using hbk)]
        · rw [tableFind, tableFind, List.find?_cons_of_neg (by simpa using hbk),
            List.find?_cons_of_neg (by simpa using hbk)]
          exact ih

theorem tableFind_eq_none_iff : tableFind key table k = none ↔ k ∉ table.map key := by
  rw [tableFind, List.find?_eq_none]
  simp

/-- An entry changes what is found for its own key only. -/
theorem tableFind_put_ne (hk : k ≠ key a) :
    tableFind key (tablePut key cap table a) k = tableFind key table k := by
  rw [tablePut]
  split
  · exact tableFind_replace_ne hk
  · split
    · rw [tableFind, tableFind, List.find?_append, List.find?_cons_of_neg (by simpa using hk.symm),
        List.find?_nil, Option.or_none]
    · rfl

/-- An entry is found if its key was there, or there was room. -/
theorem tableFind_put_self (hroom : key a ∈ table.map key ∨ table.length < cap) :
    tableFind key (tablePut key cap table a) (key a) = some a := by
  rw [tablePut]
  split
  · rename_i hmem
    exact tableFind_replace_self hmem
  · rename_i hmem
    have hnone := tableFind_eq_none_iff.mpr hmem
    rw [tableFind] at hnone
    rw [if_pos (hroom.resolve_left hmem), tableFind, List.find?_append, hnone, Option.none_or,
      List.find?_cons_of_pos (by simp)]

/-! ## Histories -/

theorem lastEntry_append : lastEntry key (h ++ [a]) k =
    if key a = k then some a else lastEntry key h k := by
  rw [lastEntry, List.reverse_append, List.reverse_singleton, List.singleton_append]
  split
  · rename_i hk
    rw [List.find?_cons_of_pos (by simpa using hk)]
  · rename_i hk
    rw [List.find?_cons_of_neg (by simpa using hk), lastEntry]

theorem lastEntry_eq_none_iff : lastEntry key h k = none ↔ k ∉ h.map key := by
  rw [lastEntry, List.find?_eq_none]
  simp

theorem firstKeys_append : firstKeys key (h ++ [a]) =
    if key a ∈ firstKeys key h then firstKeys key h else firstKeys key h ++ [key a] := by
  rw [firstKeys, List.foldl_append]
  rfl

theorem mem_firstKeys : k ∈ firstKeys key h ↔ k ∈ h.map key := by
  induction h using List.reverseRecOn with
  | nil => rfl
  | append_singleton h a ih =>
      rw [firstKeys_append, List.map_append, List.mem_append, List.map_singleton,
        List.mem_singleton, ← ih]
      split
      · rename_i hmem
        constructor
        · exact .inl
        · intro hk
          rcases hk with hk | rfl
          · exact hk
          · exact hmem
      · rw [List.mem_append, List.mem_singleton]

theorem nodup_firstKeys (h : List α) : (firstKeys key h).Nodup := by
  induction h using List.reverseRecOn with
  | nil => exact List.nodup_nil
  | append_singleton h a ih =>
      rw [firstKeys_append]
      split
      · exact ih
      · rename_i hmem
        rw [← List.concat_eq_append]
        exact ih.concat hmem

/-- Keys that are all different come in their order. -/
theorem firstKeys_of_nodup (hnodup : (h.map key).Nodup) : firstKeys key h = h.map key := by
  induction h using List.reverseRecOn with
  | nil => rfl
  | append_singleton h a ih =>
      rw [List.map_append, List.map_singleton, ← List.concat_eq_append,
        List.nodup_concat] at hnodup
      rw [firstKeys_append, ih hnodup.2, if_neg hnodup.1, List.map_append, List.map_singleton]

/-- The table holds the keys that came first. -/
theorem map_key_run (cap : ℕ) (h : List α) :
    (h.foldl (tablePut key cap) []).map key = (firstKeys key h).take cap := by
  induction h using List.reverseRecOn with
  | nil => simp [firstKeys]
  | append_singleton h a ih =>
      have hlen := congrArg List.length ih
      rw [List.length_map, List.length_take] at hlen
      rw [List.foldl_append, List.foldl_cons, List.foldl_nil, firstKeys_append, tablePut, ih]
      by_cases hmem : key a ∈ (firstKeys key h).take cap
      · rw [if_pos hmem, if_pos (List.mem_of_mem_take hmem), map_tableReplace, ih]
      · rw [if_neg hmem]
        by_cases hroom : (h.foldl (tablePut key cap) []).length < cap
        · have hall : (firstKeys key h).take cap = firstKeys key h :=
            List.take_of_length_le (by omega)
          rw [hall] at hmem ih
          rw [if_pos hroom, if_neg hmem, List.map_append, ih, List.map_singleton,
            List.take_of_length_le]
          rw [List.length_append, List.length_singleton]
          omega
        · rw [if_neg hroom, ih]
          split
          · rfl
          · rw [List.take_append_of_le_length (by omega)]

/-- What is found after a history: the last entry, for the keys that came first. -/
theorem tableFind_run (cap : ℕ) (h : List α) (k : κ) :
    tableFind key (h.foldl (tablePut key cap) []) k =
      if k ∈ (firstKeys key h).take cap then lastEntry key h k else none := by
  induction h using List.reverseRecOn with
  | nil => simp [firstKeys, tableFind]
  | append_singleton h a ih =>
      have hkeys : ((h ++ [a]).foldl (tablePut key cap) []).map key = _ := map_key_run cap (h ++ [a])
      rw [← hkeys]
      split
      · rename_i hmem
        rw [lastEntry_append]
        rw [List.foldl_append, List.foldl_cons, List.foldl_nil] at hmem ⊢
        split
        · rename_i hk
          subst hk
          apply tableFind_put_self
          by_contra hno
          obtain ⟨hold, hfull⟩ := not_or.mp hno
          rw [tablePut, if_neg hold, if_neg hfull] at hmem
          exact hold hmem
        · rename_i hk
          rw [tableFind_put_ne (Ne.symm hk), ih, ← map_key_run, if_pos]
          have hfound : tableFind key (tablePut key cap (h.foldl (tablePut key cap) []) a) k ≠ none :=
            fun hnone => tableFind_eq_none_iff.mp hnone hmem
          rw [tableFind_put_ne (Ne.symm hk)] at hfound
          by_contra hno
          exact hfound (tableFind_eq_none_iff.mpr hno)
      · rename_i hmem
        exact tableFind_eq_none_iff.mpr hmem

theorem tableFind_run_of_mem (hk : k ∈ (firstKeys key h).take cap) :
    tableFind key (h.foldl (tablePut key cap) []) k = lastEntry key h k := by
  rw [tableFind_run, if_pos hk]

theorem tableFind_run_of_not_mem (hk : k ∉ (firstKeys key h).take cap) :
    tableFind key (h.foldl (tablePut key cap) []) k = none := by
  rw [tableFind_run, if_neg hk]

end LispDos.Foundation
