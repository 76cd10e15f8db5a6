import LispDos.Verification.Tarfs.Reads
import Mathlib.Data.List.TakeWhile

/-! # Truncated archives

The walks stay in the ramdisk exactly if every header that they come to is in it, as far as they
read it, with the data of the first file of every name. -/

namespace LispDos.Tarfs

open Console Foundation

variable {r : Ramdisk} {offset : ℕ} {filename : List UInt8}

/-! ## The four visits -/

/-- A text ends in the ramdisk. -/
def EndsInside (r : Ramdisk) (offset : ℕ) : Prop := ∃ i, offset ≤ i ∧ i < r.size ∧ r.bytes i = 0

/-- Data of that size is in the ramdisk. -/
def DataInside (r : Ramdisk) (offset size : ℕ) : Prop := size = 0 ∨ offset + size ≤ r.size

theorem endsInside_iff :
    (printedIn r (r.size - offset) offset).isSome = true ↔ EndsInside r offset := by
  rw [printedIn_isSome_iff]
  constructor
  · intro ⟨i, _, hlt, hzero⟩
    exact ⟨offset + i, Nat.le_add_right _ _, hlt, hzero⟩
  · intro ⟨i, hle, hlt, hzero⟩
    have hi : offset + (i - offset) = i := by omega
    exact ⟨i - offset, by omega, by omega, by rw [hi]; exact hzero⟩

theorem dataInside_iff {size : ℕ} :
    (dataIn r offset size).isSome = true ↔ DataInside r offset size := by
  constructor
  · intro h
    obtain ⟨data, hdata⟩ := Option.isSome_iff_exists.mp h
    exact (dataIn_eq_some_iff.mp hdata).1
  · intro h
    rw [dataIn_eq_some_iff.mpr ⟨h, rfl⟩]
    rfl

/-- A header of a file is listed if its name ends in the ramdisk. -/
theorem visitDir_spec (r : Ramdisk) : VisitSpec (visitDir r)
    (fun offset _ => offset + typeField < r.size ∧
      (r.bytes (offset + typeField) ≠ 0x35 → EndsInside r offset)) (fun _ => False) := by
  constructor
  · intro offset size
    rw [← endsInside_iff, visitDir]
    by_cases hin : offset + typeField < r.size
    · rw [Ramdisk.read_of_lt hin, and_iff_right hin]
      simp only [Option.bind_eq_bind, Option.bind_some]
      by_cases hdir : r.bytes (offset + typeField) = 0x35
      · simp [hdir]
      · rw [if_pos hdir]
        cases printedIn r (r.size - offset) offset <;> simp [hdir]
    · rw [Ramdisk.read_of_le (by omega)]
      exact iff_of_false nofun fun h => hin h.1
  · intro offset size ops x hvisit
    rw [iff_false, Bool.not_eq_true]
    unfold visitDir at hvisit
    obtain ⟨typeflag, _, hvisit⟩ := Option.bind_eq_some_iff.mp hvisit
    split_ifs at hvisit
    · obtain ⟨name, _, hvisit⟩ := Option.bind_eq_some_iff.mp hvisit
      rw [← (Prod.mk.inj (Option.some_inj.mp hvisit)).2]
      rfl
    · rw [← (Prod.mk.inj (Option.some_inj.mp hvisit)).2]
      rfl

section Lookups

variable {β : Type} {visit : ℕ → ℕ → Option (List Op × Option β)} {ok : ℕ → ℕ → Prop}

/-- A look-up compares the name of every header, and stops at the first equal one. -/
theorem lookup_spec (found : ℕ → ℕ → Option (List Op × β))
    (hvisit : ∀ offset size, visit offset size =
      (sameNameIn r offset filename).bind fun same =>
        if same then (found offset size).map fun v => (v.1, some v.2) else some ([], none))
    (hfound : ∀ offset size, (found offset size).isSome = true ↔ ok offset size) :
    VisitSpec visit
      (fun offset size => ComparedInside r offset filename ∧
        (sameName r.bytes offset filename = true → ok offset size))
      (fun offset => sameName r.bytes offset filename = true) := by
  constructor
  · intro offset size
    rw [hvisit, ← hfound]
    cases hcompare : sameNameIn r offset filename with
    | none =>
        refine iff_of_false nofun fun h => ?_
        rw [sameNameIn_eq_some_iff.mpr ⟨h.1, rfl⟩] at hcompare
        cases hcompare
    | some same =>
        obtain ⟨hinside, rfl⟩ := sameNameIn_eq_some_iff.mp hcompare
        rw [Option.bind_some, and_iff_right hinside]
        split_ifs with hsame
        · rw [Option.isSome_map, forall_prop_of_true hsame]
        · exact iff_of_true rfl fun h => absurd h hsame
  · intro offset size ops x hx
    rw [hvisit] at hx
    obtain ⟨same, hcompare, hx⟩ := Option.bind_eq_some_iff.mp hx
    obtain ⟨_, rfl⟩ := sameNameIn_eq_some_iff.mp hcompare
    split_ifs at hx with hsame
    · obtain ⟨v, _, hv⟩ := Option.map_eq_some_iff.mp hx
      rw [← (Prod.mk.inj hv).2]
      exact iff_of_true rfl hsame
    · rw [← (Prod.mk.inj (Option.some_inj.mp hx)).2]
      exact iff_of_false nofun hsame

end Lookups

theorem visitSize_spec (r : Ramdisk) (filename : List UInt8) : VisitSpec (visitSize r filename)
    (fun offset _ => ComparedInside r offset filename ∧
      (sameName r.bytes offset filename = true → True))
    (fun offset => sameName r.bytes offset filename = true) :=
  lookup_spec (fun _ size => some ([], size)) (fun _ _ => rfl) fun _ _ => iff_of_true rfl trivial

theorem visitRead_spec (r : Ramdisk) (filename : List UInt8) : VisitSpec (visitRead r filename)
    (fun offset size => ComparedInside r offset filename ∧
      (sameName r.bytes offset filename = true → DataInside r (offset + 512) size))
    (fun offset => sameName r.bytes offset filename = true) := by
  refine lookup_spec (fun offset size => (dataIn r (offset + 512) size).map ([], ·)) ?_ ?_
  · intro offset size
    unfold visitRead
    cases dataIn r (offset + 512) size <;> rfl
  · intro offset size
    rw [Option.isSome_map, dataInside_iff]

theorem visitType_spec (r : Ramdisk) (filename : List UInt8) : VisitSpec (visitType r filename)
    (fun offset size => ComparedInside r offset filename ∧
      (sameName r.bytes offset filename = true → DataInside r (offset + 512) size))
    (fun offset => sameName r.bytes offset filename = true) := by
  refine lookup_spec (fun offset size => (dataIn r (offset + 512) size).map fun data =>
    ((data.filter (· ≠ 0x0D)).map Op.putchar ++ [.print (kernelText "\n")], ())) ?_ ?_
  · intro offset size
    unfold visitType
    cases dataIn r (offset + 512) size <;> rfl
  · intro offset size
    rw [Option.isSome_map, dataInside_iff]

/-! ## Names -/

/-- The name at an offset, as far as the ramdisk goes. -/
def nameAt (r : Ramdisk) (offset : ℕ) : List UInt8 :=
  ((List.range (r.size - offset)).map fun i => r.bytes (offset + i)).takeWhile (· ≠ 0)

theorem zero_not_mem_nameAt (r : Ramdisk) (offset : ℕ) : 0 ∉ nameAt r offset := by
  intro hmem
  have hne := List.mem_takeWhile_imp hmem
  simp at hne

/-- A name that ends in the ramdisk is there with its terminator. -/
theorem EndsInside.nameAt_spec (h : EndsInside r offset) :
    offset + (nameAt r offset).length < r.size ∧
      ∀ i ≤ (nameAt r offset).length, r.bytes (offset + i) = (nameAt r offset).getD i 0 := by
  obtain ⟨z, hle, hlt, hzero⟩ := h
  let bytes := (List.range (r.size - offset)).map fun i => r.bytes (offset + i)
  have hlength : bytes.length = r.size - offset := by simp [bytes]
  have hget : ∀ i < bytes.length, r.bytes (offset + i) = bytes.getD i 0 := by
    intro i hi
    rw [List.getD_eq_getElem _ _ hi, List.getElem_map, List.getElem_range]
  -- the first zero ends the name
  have hrest : bytes.dropWhile (· ≠ 0) ≠ [] := by
    rw [ne_eq, List.dropWhile_eq_nil_iff]
    intro hall
    have hmem : (0 : UInt8) ∈ bytes := by
      refine List.mem_map.mpr ⟨z - offset, List.mem_range.mpr (by omega), ?_⟩
      rw [Nat.add_sub_cancel' hle, hzero]
    simpa using hall 0 hmem
  obtain ⟨c, rest, hdrop⟩ := List.exists_cons_of_ne_nil hrest
  have hc : c = 0 := by
    have hhead := List.head_dropWhile_not (fun c : UInt8 => decide (c ≠ 0)) hrest
    simp only [hdrop, List.head_cons] at hhead
    simpa using hhead
  have hsplit : nameAt r offset ++ 0 :: rest = bytes := by
    rw [← hc, ← hdrop]
    exact List.takeWhile_append_dropWhile
  have htotal := congrArg List.length hsplit
  rw [List.length_append, List.length_cons] at htotal
  refine ⟨by omega, ?_⟩
  intro i hi
  rw [hget i (by omega), ← hsplit]
  by_cases hend : i < (nameAt r offset).length
  · rw [List.getD_append _ _ _ _ hend]
  · have hi : i = (nameAt r offset).length := by omega
    rw [hi, List.getD_append_right _ _ _ _ le_rfl, Nat.sub_self, List.getD_cons_zero,
      List.getD_eq_getElem?_getD, List.getElem?_eq_none le_rfl, Option.getD_none]

/-- The comparison of a name that ends in the ramdisk stays there. -/
theorem EndsInside.compared (h : EndsInside r offset) (hfilename : 0 ∉ filename) :
    ComparedInside r offset filename := by
  obtain ⟨z, hle, hlt, hzero⟩ := h
  intro i hi hbefore
  by_contra hout
  have hcommon := hbefore (z - offset) (by omega)
  rw [Nat.add_sub_cancel' hle, hzero] at hcommon
  exact hfilename (List.mem_of_getElem? hcommon)

/-- An equal name is the one in the ramdisk. -/
theorem EndsInside.sameName_iff (h : EndsInside r offset) (hfilename : 0 ∉ filename) :
    sameName r.bytes offset filename = true ↔ nameAt r offset = filename :=
  Tarfs.sameName_iff hfilename (zero_not_mem_nameAt r offset) h.nameAt_spec.2

/-! ## Results -/

section Results

variable {β : Type} {visit : ℕ → ℕ → Option (List Op × Option β)} {ok : ℕ → ℕ → Prop}

/-- A walk in the ramdisk stops at the header that the look-up finds. -/
theorem findEntry_of_returns
    (hspec : VisitSpec visit ok fun offset => sameName r.bytes offset filename = true)
    {w : Walk} {result : Option (List Op × Option β)} (h : LoopReturns (tarRound r visit) w result)
    {screen : List Op} {x : Option β} (hresult : result = some (screen, x)) {n : ℕ}
    (hn : r.size < w.offset + 512 * n) :
    (x = none ∧ findEntry r filename n w.offset = none) ∨
      ∃ start ops v, x = some v ∧
        findEntry r filename n w.offset = some (start, entrySize r start) ∧
        visit start (entrySize r start) = some (ops, some v) := by
  induction h generalizing n with
  | @leave w result hround =>
      have hcase := tarRound_cases r visit w
      rw [hround, hresult] at hcase
      cases hcase with
      | ended hno =>
          refine .inl ⟨rfl, ?_⟩
          cases n with
          | zero => rfl
          | succ n =>
              rw [findEntry]
              by_cases hin : w.offset < r.size
              · rw [if_pos hin, if_pos (not_not.mp fun hne => hno ⟨hin, hne⟩)]
              · rw [if_neg hin]
      | found hheader _ ops v hvisit =>
          obtain ⟨n, rfl⟩ := Nat.exists_eq_succ_of_ne_zero (n := n) (by have := hheader.1; omega)
          have hsame := (hspec.stops _ _ _ _ hvisit).mp rfl
          refine .inr ⟨w.offset, ops, v, rfl, ?_, hvisit⟩
          rw [findEntry, if_pos hheader.1, if_neg hheader.2]
          exact if_pos hsame
  | @next w t result hround _ ih =>
      have hcase := tarRound_cases r visit w
      rw [hround] at hcase
      cases hcase with
      | on hheader _ ops hvisit =>
          obtain ⟨n, rfl⟩ := Nat.exists_eq_succ_of_ne_zero (n := n) (by have := hheader.1; omega)
          have hother : ¬ sameName r.bytes w.offset filename = true := by
            intro hsame
            cases (hspec.stops _ _ _ _ hvisit).mpr hsame
          have hstep : findEntry r filename (n + 1) w.offset =
              findEntry r filename n (nextHeader r w.offset) := by
            rw [findEntry, if_pos hheader.1, if_neg hheader.2]
            exact if_neg hother
          rw [hstep]
          refine ih hresult ?_
          have hnext : w.offset + 512 ≤ nextHeader r w.offset := by
            unfold nextHeader
            omega
          show r.size < nextHeader r w.offset + 512 * n
          omega

/-- The result of `tarfs_get_file_size` is the one of the look-up. -/
theorem TarfsGetFileSize.eq {size : ℕ} (h : TarfsGetFileSize r filename size) :
    size = tarfsGetFileSize (some r) filename := by
  obtain ⟨screen, found, hreturns, rfl⟩ := h
  unfold tarfsGetFileSize lookup
  rw [Option.bind_some]
  rcases findEntry_of_returns (visitSize_spec r filename) hreturns rfl (n := r.size / 512 + 1)
    (by dsimp only; omega) with ⟨rfl, hnone⟩ | ⟨start, ops, v, rfl, hsome, hvisit⟩
  · rw [hnone]
    rfl
  · rw [hsome]
    unfold visitSize at hvisit
    obtain ⟨same, _, hvisit⟩ := Option.bind_eq_some_iff.mp hvisit
    split_ifs at hvisit
    · exact (Option.some_inj.mp (Prod.mk.inj (Option.some_inj.mp hvisit)).2).symm
    · cases (Prod.mk.inj (Option.some_inj.mp hvisit)).2

/-- What `tarfs_read_file` stores is the data of the file that the look-up finds. -/
theorem TarfsReadFile.eq {result : ℤ × List UInt8} (h : TarfsReadFile r filename result) :
    tarfsReadFile (some r) filename =
      (result.1, (List.range result.2.length).map fun i => (i, result.2.getD i 0)) := by
  obtain ⟨screen, found, hreturns, rfl⟩ := h
  unfold tarfsReadFile lookup
  rw [Option.bind_some]
  rcases findEntry_of_returns (visitRead_spec r filename) hreturns rfl (n := r.size / 512 + 1)
    (by dsimp only; omega) with ⟨rfl, hnone⟩ | ⟨start, ops, v, rfl, hsome, hvisit⟩
  · rw [hnone]
    rfl
  · rw [hsome]
    unfold visitRead at hvisit
    obtain ⟨same, _, hvisit⟩ := Option.bind_eq_some_iff.mp hvisit
    split_ifs at hvisit
    · obtain ⟨data, hdata, hvisit⟩ := Option.bind_eq_some_iff.mp hvisit
      obtain rfl := Option.some_inj.mp (Prod.mk.inj (Option.some_inj.mp hvisit)).2
      obtain ⟨_, rfl⟩ := dataIn_eq_some_iff.mp hdata
      simp only [Option.getD_some, List.length_map, List.length_range]
      refine Prod.ext rfl (List.map_congr_left ?_)
      intro i hi
      rw [List.mem_range] at hi
      rw [List.getD_eq_getElem _ _ (by simpa using hi), List.getElem_map, List.getElem_range]
    · cases (Prod.mk.inj (Option.some_inj.mp hvisit)).2

end Results

/-! ## All the walks -/

/-- The four functions return without an access outside of the ramdisk. -/
structure WalksInside (r : Ramdisk) : Prop where
  dir : ∃ printed, TarfsDir r printed
  type : ∀ filename, 0 ∉ filename → ∃ printed, TarfsType r filename printed
  size : ∀ filename, 0 ∉ filename → ∃ size, TarfsGetFileSize r filename size
  read : ∀ filename, 0 ∉ filename → ∃ result, TarfsReadFile r filename result

/-- Every header of the archive is in the ramdisk: its size up to a zero, its type and its name
with a zero behind it. So is the data of the first file of every name. -/
structure Intact (r : Ramdisk) : Prop where
  size : ∀ offset, Visited r (fun _ => False) offset → Header r offset →
    FieldInside r (offset + sizeField) 11
  typeflag : ∀ offset, Visited r (fun _ => False) offset → Header r offset →
    offset + typeField < r.size
  name : ∀ offset, Visited r (fun _ => False) offset → Header r offset → EndsInside r offset
  data : ∀ offset,
    Visited r (fun before => sameName r.bytes before (nameAt r offset) = true) offset →
      Header r offset → DataInside r (offset + 512) (entrySize r offset)

theorem Visited.mono {stop stop' : ℕ → Prop} (h : Visited r stop offset)
    (hstop : ∀ offset, stop' offset → stop offset) : Visited r stop' offset := by
  induction h with
  | first => exact .first
  | next _ hheader hgo ih => exact .next ih hheader fun h => hgo (hstop _ h)

theorem Visited.all {stop : ℕ → Prop} (h : Visited r stop offset) :
    Visited r (fun _ => False) offset :=
  h.mono fun _ h => h.elim

/-- In an intact archive a look-up stays in the ramdisk at every header. -/
theorem Intact.lookup (h : Intact r) (hfilename : 0 ∉ filename)
    (hvisited : Visited r (fun before => sameName r.bytes before filename = true) offset)
    (hheader : Header r offset) :
    FieldInside r (offset + sizeField) 11 ∧ ComparedInside r offset filename ∧
      (sameName r.bytes offset filename = true →
        DataInside r (offset + 512) (entrySize r offset)) := by
  have hname := h.name offset hvisited.all hheader
  refine ⟨h.size offset hvisited.all hheader, hname.compared hfilename, ?_⟩
  intro hsame
  have heq := (hname.sameName_iff hfilename).mp hsame
  rw [← heq] at hvisited
  exact h.data offset hvisited hheader

theorem Intact.walksInside (h : Intact r) : WalksInside r := by
  constructor
  · refine (exists_result_iff (visitDir_spec r) _).mpr ?_
    intro offset hvisited hheader
    exact ⟨h.size offset hvisited hheader, h.typeflag offset hvisited hheader,
      fun _ => h.name offset hvisited hheader⟩
  · intro filename hfilename
    have hskip : 0 ∉ skipSpaces filename :=
      fun hmem => hfilename ((List.dropWhile_suffix _).subset hmem)
    exact (exists_result_iff (visitType_spec r _) _).mpr fun _ => h.lookup hskip
  · intro filename hfilename
    refine (exists_result_iff (visitSize_spec r _) _).mpr ?_
    intro offset hvisited hheader
    obtain ⟨hfield, hcompared, _⟩ := h.lookup hfilename hvisited hheader
    exact ⟨hfield, hcompared, fun _ => trivial⟩
  · intro filename hfilename
    exact (exists_result_iff (visitRead_spec r _) _).mpr fun _ => h.lookup hfilename

/-- A name that is longer than the ramdisk is compared with every header, and is none of the
names. -/
theorem WalksInside.compared_long (h : WalksInside r) (hfilename : 0 ∉ filename)
    (hlong : r.size ≤ filename.length) (hvisited : Visited r (fun _ => False) offset) :
    Visited r (fun before => sameName r.bytes before filename = true) offset := by
  have hinside := (exists_result_iff (visitSize_spec r filename) _).mp (h.size filename hfilename)
  induction hvisited with
  | first => exact .first
  | @next offset _ hheader _ ih =>
      refine .next ih hheader fun hsame => ?_
      have hcompared := (hinside offset ih hheader).2.1
      have hend := hcompared _ le_rfl fun j hj => common_of_sameName hsame hj
      omega

/-- The names of the headers end in the ramdisk, whatever their type: a long name that goes on as
the ramdisk does is compared with them to its end. -/
theorem WalksInside.endsInside (h : WalksInside r) (hvisited : Visited r (fun _ => False) offset)
    (hheader : Header r offset) : EndsInside r offset := by
  by_contra hends
  let bytes := (List.range (r.size - offset)).map fun i => r.bytes (offset + i)
  let filename := bytes ++ List.replicate r.size 1
  have hlength : bytes.length = r.size - offset := by simp [bytes]
  have hfilename : 0 ∉ filename := by
    intro hmem
    rcases List.mem_append.mp hmem with hmem | hmem
    · obtain ⟨i, hi, hzero⟩ := List.mem_map.mp hmem
      rw [List.mem_range] at hi
      exact hends ⟨offset + i, Nat.le_add_right _ _, by omega, hzero⟩
    · cases List.eq_of_mem_replicate hmem
  have hlong : r.size ≤ filename.length := by
    rw [List.length_append, List.length_replicate]
    omega
  have hinside := (exists_result_iff (visitSize_spec r filename) _).mp (h.size filename hfilename)
  have hcompared := (hinside offset (h.compared_long hfilename hlong hvisited) hheader).2.1
  have hin := hheader.1
  have hend := hcompared bytes.length (by rw [List.length_append]; omega) ?_
  · omega
  · intro j hj
    rw [List.getElem?_append_left hj, List.getElem?_eq_getElem hj, List.getElem_map,
      List.getElem_range]

theorem WalksInside.intact (h : WalksInside r) : Intact r := by
  have hdir := (exists_result_iff (visitDir_spec r) _).mp h.dir
  constructor
  · intro offset hvisited hheader
    exact (hdir offset hvisited hheader).1
  · intro offset hvisited hheader
    exact (hdir offset hvisited hheader).2.1
  · intro offset hvisited hheader
    exact h.endsInside hvisited hheader
  · intro offset hvisited hheader
    have hends := h.endsInside hvisited.all hheader
    have hname := zero_not_mem_nameAt r offset
    have hread := (exists_result_iff (visitRead_spec r (nameAt r offset)) _).mp (h.read _ hname)
    exact (hread offset hvisited hheader).2.2 ((hends.sameName_iff hname).mpr rfl)

/-- The four functions return, for every name, without an access outside of the ramdisk exactly if
the archive is intact. -/
theorem walksInside_iff (r : Ramdisk) : WalksInside r ↔ Intact r :=
  ⟨WalksInside.intact, Intact.walksInside⟩

/-- The first bytes of an archive: the size field of its only header is not in the ramdisk. -/
def truncated : Ramdisk := ⟨fun _ => 0x41, 100, by norm_num⟩

theorem not_walksInside_truncated : ¬ WalksInside truncated := by
  intro h
  have hfield := (exists_result_iff (visitDir_spec truncated) _).mp h.dir 0 .first (by decide)
  have hfirst := hfield.1 0 (by decide) fun j hj => absurd hj (Nat.not_lt_zero j)
  exact absurd hfirst (by decide)

end LispDos.Tarfs
