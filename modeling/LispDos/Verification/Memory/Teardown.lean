import LispDos.Verification.Memory.Mapping

/-! # The trace of a teardown

`vmm_free_pagemap` frees the pages below the lower half of the PML4, each after those
below it, and then the PML4 itself. -/

namespace LispDos.Memory

open Foundation

variable {m : Machine} {mem : PhysMem} {root : ℕ} {map : Word}

/-- The page an entry refers to, as the loops of the source read it. -/
def codeNext (e : Word) : Option ℕ := if present e then some (tableOf e) else none

theorem codeNext_of_not_present {e : Word} (h : present e = false) : codeNext e = none := by
  simp [codeNext, h]

theorem codeNext_tableEntry {n : ℕ} (hn : n < 2 ^ 52) : codeNext (tableEntry n) = some n := by
  simp [codeNext, present_tableEntry hn, tableOf_tableEntry hn]

theorem codeNext_leafEntry {n : ℕ} (hn : n < 2 ^ 52) {flags : Word} (hf : flags.toNat < 4096) :
    codeNext (leafEntry (pageAddr n) flags) = some n := by
  simp [codeNext, present_leafEntry, tableOf_leafEntry hn hf]

/-! ## The calls of `pmm_free_page` -/

/-- The arguments of the calls that one loop makes. -/
def freedLoop (mem : PhysMem) (count table : ℕ) (below : ℕ → List Word) : List Word :=
  (List.range count).flatMap fun idx =>
    if present (mem table idx) then
      below (tableOf (mem table idx)) ++ [mem table idx &&& ~~~0xFFF#64]
    else []

def freedPt (mem : PhysMem) (pt : ℕ) : List Word := freedLoop mem 512 pt fun _ => []

def freedPd (mem : PhysMem) (pd : ℕ) : List Word := freedLoop mem 512 pd (freedPt mem)

def freedPdpt (mem : PhysMem) (pdpt : ℕ) : List Word := freedLoop mem 512 pdpt (freedPd mem)

/-- The arguments of all calls of `pmm_free_page` in `vmm_free_pagemap`, in order. -/
def freedPages (m : Machine) (map : Word) : List Word :=
  if map = 0#64 then []
  else freedLoop m.mem 256 (map.toNat / 4096) (freedPdpt m.mem) ++ [map]

@[simp] theorem Machine.freePage_mem (m : Machine) (page : Word) :
    (m.freePage page).mem = m.mem := rfl

theorem foldl_freePage_mem (pages : List Word) (m : Machine) :
    (pages.foldl Machine.freePage m).mem = m.mem := by
  induction pages generalizing m with
  | nil => rfl
  | cons page pages ih =>
      rw [List.foldl_cons, ih, Machine.freePage_mem]

theorem foldl_freePage_highest (pages : List Word) (m : Machine) :
    (pages.foldl Machine.freePage m).pmm.highestPage = m.pmm.highestPage := by
  induction pages generalizing m with
  | nil => rfl
  | cons page pages ih =>
      rw [List.foldl_cons, ih]
      exact pmmFreePage_highestPage m.pmm page

theorem freeLoop_eq {below : ℕ → Machine → Machine} {freed : ℕ → List Word}
    (hbelow : ∀ t m, m.mem = mem → below t m = (freed t).foldl Machine.freePage m)
    (count table : ℕ) (m : Machine) (hm : m.mem = mem) :
    freeLoop count table below m =
      (freedLoop mem count table freed).foldl Machine.freePage m := by
  induction count with
  | zero => rfl
  | succ count ih =>
      have hmem := foldl_freePage_mem (freedLoop mem count table freed) m
      simp only [freeLoop, freedLoop] at ih hmem ⊢
      rw [List.range_succ, List.foldl_append, ih, List.flatMap_append, List.foldl_append,
        List.foldl_cons, List.foldl_nil, List.flatMap_cons, List.flatMap_nil, List.append_nil,
        hmem, hm]
      split
      · rw [hbelow _ _ (hmem.trans hm), List.foldl_append]
        rfl
      · rfl

/-- The teardown is the sequence of its calls of `pmm_free_page`. -/
theorem vmmFreePagemap_eq (m : Machine) (map : Word) :
    vmmFreePagemap m map = (freedPages m map).foldl Machine.freePage m := by
  have hpt : ∀ t m', m'.mem = m.mem →
      freePt t m' = (freedPt m.mem t).foldl Machine.freePage m' := by
    intro t m' hm
    have hnone : ∀ (s : ℕ) (m'' : Machine), m''.mem = m.mem →
        (fun (_ : ℕ) (k : Machine) => k) s m'' =
          ((fun _ => []) s : List Word).foldl Machine.freePage m'' := by
      intro s m'' _
      rw [List.foldl_nil]
    exact freeLoop_eq hnone 512 t m' hm
  have hpd : ∀ t m', m'.mem = m.mem →
      freePd t m' = (freedPd m.mem t).foldl Machine.freePage m' :=
    fun t m' hm => freeLoop_eq hpt 512 t m' hm
  have hpdpt : ∀ t m', m'.mem = m.mem →
      freePdpt t m' = (freedPdpt m.mem t).foldl Machine.freePage m' :=
    fun t m' hm => freeLoop_eq hpd 512 t m' hm
  simp only [vmmFreePagemap, freedPages]
  split
  · rfl
  · rw [freeLoop_eq hpdpt 256 _ m rfl, List.foldl_append]
    rfl

/-! ## The pages behind the calls -/

theorem freedLoop_eq (mem : PhysMem) (d count t : ℕ) {freed : ℕ → List Word}
    (hfreed : ∀ s, freed s = (subtables codeNext mem 512 d 512 s).map pageAddr) :
    freedLoop mem count t freed = (subtables codeNext mem 512 (d + 1) count t).map pageAddr := by
  simp only [freedLoop, subtables, List.map_flatMap]
  congr 1
  funext i
  by_cases hpres : present (mem t i) = true
  · simp only [hpres, if_true, codeNext, Option.elim_some, List.map_append, List.map_cons,
      List.map_nil, hfreed, pageMask_eq]
  · simp only [hpres, if_false, codeNext, Option.elim_none, List.map_nil, Bool.false_eq_true]

/-- The calls free the tables and pages that the lower half leads to. -/
theorem freedPages_eq (hmap : map ≠ 0#64) :
    freedPages m map =
      (subtables codeNext m.mem 512 4 256 (map.toNat / 4096)).map pageAddr ++ [map] := by
  have hpt : ∀ s, freedPt m.mem s = (subtables codeNext m.mem 512 1 512 s).map pageAddr :=
    fun s => freedLoop_eq m.mem 0 512 s (fun _ => rfl)
  have hpd : ∀ s, freedPd m.mem s = (subtables codeNext m.mem 512 2 512 s).map pageAddr :=
    fun s => freedLoop_eq m.mem 1 512 s hpt
  have hpdpt : ∀ s, freedPdpt m.mem s = (subtables codeNext m.mem 512 3 512 s).map pageAddr :=
    fun s => freedLoop_eq m.mem 2 512 s hpd
  rw [freedPages, if_neg hmap, freedLoop_eq m.mem 3 256 _ hpdpt]

/-! ## Freeing distinct used pages -/

theorem pageBytes_succ (n : ℕ) :
    4096#64 * BitVec.ofNat 64 (n + 1) = 4096#64 + 4096#64 * BitVec.ofNat 64 n := by
  rw [BitVec.ofNat_add, BitVec.mul_add, BitVec.add_comm]
  rfl

theorem foldl_freePage_bits (pages : List ℕ) (m : Machine) (hnodup : pages.Nodup)
    (hlt : ∀ i ∈ pages, i < 2 ^ 52) (hset : ∀ i ∈ pages, bitmapTest m.pmm.bitmap i = true) :
    (∀ i, bitmapTest ((pages.map pageAddr).foldl Machine.freePage m).pmm.bitmap i =
      (!decide (i ∈ pages) && bitmapTest m.pmm.bitmap i)) ∧
    ((pages.map pageAddr).foldl Machine.freePage m).pmm.freeMemory =
      m.pmm.freeMemory + 4096#64 * BitVec.ofNat 64 pages.length := by
  induction pages generalizing m with
  | nil => simp
  | cons page pages ih =>
      obtain ⟨hnot, hnodup⟩ := List.nodup_cons.mp hnodup
      have hdiv := pageAddr_div (hlt page (by simp))
      have hbits : ∀ i, bitmapTest (m.freePage (pageAddr page)).pmm.bitmap i =
          (!decide (i = page) && bitmapTest m.pmm.bitmap i) := by
        intro i
        have hfree := pmmFreePage_bits m.pmm (pageAddr page) i
        rw [hdiv] at hfree
        exact hfree
      have hcount : (m.freePage (pageAddr page)).pmm.freeMemory = m.pmm.freeMemory + 4096#64 := by
        have hfree := pmmFreePage_freeMemory m.pmm (pageAddr page)
        rw [hdiv, if_pos (hset page (by simp))] at hfree
        exact hfree
      obtain ⟨ihbits, ihcount⟩ := ih (m.freePage (pageAddr page)) hnodup
        (fun i hi => hlt i (List.mem_cons_of_mem _ hi)) (by
          intro i hi
          have hne : i ≠ page := by
            rintro rfl
            exact hnot hi
          rw [hbits, hset i (List.mem_cons_of_mem _ hi)]
          simp [hne])
      rw [List.map_cons, List.foldl_cons]
      constructor
      · intro i
        rw [ihbits, hbits]
        by_cases hi : i = page <;> simp [hi]
      · rw [ihcount, hcount, List.length_cons, pageBytes_succ, BitVec.add_assoc]

end LispDos.Memory
