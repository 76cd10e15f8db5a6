import LispDos.Kernel.TarfsWalk
import LispDos.Verification.Tarfs.Archive

/-! # Reads of the ramdisk

Which bytes the walks over the archive read. The offset of a header is all that the source
compares with `ramdisk_size`. -/

namespace LispDos.Tarfs

open Console Foundation

variable {r : Ramdisk} {offset n x : ℕ} {filename : List UInt8}

/-! ## Fields -/

theorem Ramdisk.read_of_lt (h : offset < r.size) : r.read offset = some (r.bytes offset) :=
  if_pos h

theorem Ramdisk.read_of_le (h : r.size ≤ offset) : r.read offset = none := if_neg (by omega)

/-- A field of `n` bytes is in the ramdisk up to its first zero. -/
def FieldInside (r : Ramdisk) (offset n : ℕ) : Prop :=
  ∀ i < n, (∀ j < i, r.bytes (offset + j) ≠ 0) → offset + i < r.size

theorem fieldInside_succ : FieldInside r offset (n + 1) ↔
    offset < r.size ∧ (r.bytes offset ≠ 0 → FieldInside r (offset + 1) n) := by
  constructor
  · intro h
    refine ⟨h 0 (Nat.succ_pos n) fun j hj => absurd hj (Nat.not_lt_zero j), ?_⟩
    intro hne i hi hbefore
    have hin := h (i + 1) (by omega) ?_
    · omega
    · intro j hj
      cases j with
      | zero => exact hne
      | succ j =>
          have hj' := hbefore j (by omega)
          rwa [Nat.add_assoc, Nat.add_comm 1 j] at hj'
  · intro ⟨hfirst, hrest⟩ i hi hbefore
    cases i with
    | zero => exact hfirst
    | succ i =>
        have hin := hrest (hbefore 0 (Nat.succ_pos i)) i (by omega) ?_
        · omega
        · intro j hj
          have hj' := hbefore (j + 1) (by omega)
          rwa [Nat.add_assoc, Nat.add_comm 1 j]

/-- The size is read exactly if its field is in the ramdisk. -/
theorem octalToIntIn_eq_some_iff {acc : ℕ} : octalToIntIn r offset n acc = some x ↔
    FieldInside r offset n ∧ octalToInt r.bytes offset n acc = x := by
  induction n generalizing offset acc with
  | zero =>
      rw [octalToIntIn, octalToInt, Option.some_inj]
      exact (and_iff_right fun i hi => absurd hi (Nat.not_lt_zero i)).symm
  | succ n ih =>
      rw [octalToIntIn, octalToInt, fieldInside_succ]
      by_cases hin : offset < r.size
      · rw [Ramdisk.read_of_lt hin]
        simp only [Option.bind_eq_bind, Option.bind_some]
        by_cases hzero : r.bytes offset = 0
        · simp [hzero, hin]
        · rw [if_neg hzero, if_neg hzero, ih]
          simp [hzero, hin]
      · rw [Ramdisk.read_of_le (by omega)]
        exact iff_of_false (Option.some_ne_none x).symm fun h => hin h.1.1

/-- A comparison with the name stays in the ramdisk: it ends behind the common characters. -/
def ComparedInside (r : Ramdisk) (offset : ℕ) (filename : List UInt8) : Prop :=
  ∀ i ≤ filename.length, (∀ j < i, filename[j]? = some (r.bytes (offset + j))) →
    offset + i < r.size

theorem comparedInside_nil : ComparedInside r offset [] ↔ offset < r.size := by
  constructor
  · intro h
    exact h 0 (Nat.zero_le _) fun j hj => absurd hj (Nat.not_lt_zero j)
  · intro h i hi _
    rw [List.length_nil] at hi
    omega

theorem comparedInside_cons {d : UInt8} : ComparedInside r offset (d :: filename) ↔
    offset < r.size ∧ (r.bytes offset = d → ComparedInside r (offset + 1) filename) := by
  constructor
  · intro h
    refine ⟨h 0 (Nat.zero_le _) fun j hj => absurd hj (Nat.not_lt_zero j), ?_⟩
    intro hd i hi hbefore
    have hin := h (i + 1) (by rw [List.length_cons]; omega) ?_
    · omega
    · intro j hj
      cases j with
      | zero => rw [List.getElem?_cons_zero, Nat.add_zero, hd]
      | succ j =>
          rw [List.getElem?_cons_succ, hbefore j (by omega), Nat.add_assoc, Nat.add_comm 1 j]
  · intro ⟨hfirst, hrest⟩ i hi hbefore
    cases i with
    | zero => exact hfirst
    | succ i =>
        have hd : r.bytes offset = d := by
          have hzero := hbefore 0 (Nat.succ_pos i)
          rw [List.getElem?_cons_zero, Nat.add_zero] at hzero
          exact (Option.some_inj.mp hzero).symm
        rw [List.length_cons] at hi
        have hin := hrest hd i (by omega) ?_
        · omega
        · intro j hj
          have hj' := hbefore (j + 1) (by omega)
          rwa [List.getElem?_cons_succ, Nat.add_comm j 1, ← Nat.add_assoc] at hj'

/-- The characters of an equal name are those of the header. -/
theorem common_of_sameName (h : sameName r.bytes offset filename = true) {j : ℕ}
    (hj : j < filename.length) : filename[j]? = some (r.bytes (offset + j)) := by
  induction filename generalizing offset j with
  | nil => cases hj
  | cons d filename ih =>
      rw [sameName, Bool.and_eq_true, beq_iff_eq] at h
      cases j with
      | zero => rw [List.getElem?_cons_zero, Nat.add_zero, h.1]
      | succ j =>
          rw [List.getElem?_cons_succ, ih h.2 (Nat.lt_of_succ_lt_succ hj), Nat.add_assoc,
            Nat.add_comm 1 j]

theorem sameNameIn_eq_some_iff {same : Bool} : sameNameIn r offset filename = some same ↔
    ComparedInside r offset filename ∧ sameName r.bytes offset filename = same := by
  induction filename generalizing offset with
  | nil =>
      rw [sameNameIn, sameName, comparedInside_nil]
      by_cases hin : offset < r.size
      · rw [Ramdisk.read_of_lt hin]
        simp [hin]
      · rw [Ramdisk.read_of_le (by omega)]
        exact iff_of_false (Option.some_ne_none same).symm fun h => hin h.1
  | cons d filename ih =>
      rw [sameNameIn, sameName, comparedInside_cons]
      by_cases hin : offset < r.size
      · rw [Ramdisk.read_of_lt hin]
        simp only [Option.bind_eq_bind, Option.bind_some]
        by_cases hd : r.bytes offset = d
        · rw [if_pos hd, ih]
          simp [hd, hin]
        · have hne : (r.bytes offset == d) = false := beq_eq_false_iff_ne.mpr hd
          rw [if_neg hd, hne]
          simp [hd, hin]
      · rw [Ramdisk.read_of_le (by omega)]
        exact iff_of_false (Option.some_ne_none same).symm fun h => hin h.1.1

/-- A text is printed if it ends in the ramdisk. -/
theorem printedIn_isSome_iff : (printedIn r n offset).isSome = true ↔
    ∃ i < n, offset + i < r.size ∧ r.bytes (offset + i) = 0 := by
  induction n generalizing offset with
  | zero => simp [printedIn]
  | succ n ih =>
      rw [printedIn]
      by_cases hin : offset < r.size
      · rw [Ramdisk.read_of_lt hin]
        simp only [Option.bind_eq_bind, Option.bind_some]
        by_cases hzero : r.bytes offset = 0
        · rw [if_pos hzero]
          exact iff_of_true rfl ⟨0, Nat.succ_pos n, hin, hzero⟩
        · have hrest : ((printedIn r n (offset + 1)).bind fun rest =>
              some (r.bytes offset :: rest)).isSome = (printedIn r n (offset + 1)).isSome := by
            cases printedIn r n (offset + 1) <;> rfl
          rw [if_neg hzero, hrest, ih]
          constructor
          · intro ⟨i, hi, hlt, hend⟩
            rw [Nat.add_assoc, Nat.add_comm 1 i] at hlt hend
            exact ⟨i + 1, by omega, hlt, hend⟩
          · intro ⟨i, hi, hlt, hend⟩
            cases i with
            | zero => exact absurd hend hzero
            | succ i =>
                rw [Nat.add_comm i 1, ← Nat.add_assoc] at hlt hend
                exact ⟨i, by omega, hlt, hend⟩
      · rw [Ramdisk.read_of_le (by omega)]
        refine iff_of_false Bool.false_ne_true ?_
        intro ⟨i, _, hi, _⟩
        omega

/-- Data is read if it is in the ramdisk. -/
theorem dataIn_eq_some_iff {data : List UInt8} : dataIn r offset n = some data ↔
    (n = 0 ∨ offset + n ≤ r.size) ∧ (List.range n).map (fun i => r.bytes (offset + i)) = data := by
  induction n generalizing offset data with
  | zero => simp [dataIn]
  | succ n ih =>
      rw [dataIn]
      by_cases hin : offset < r.size
      · rw [Ramdisk.read_of_lt hin, List.range_succ_eq_map, List.map_cons, List.map_map]
        have hshift : ((fun i => r.bytes (offset + i)) ∘ Nat.succ) =
            fun i => r.bytes (offset + 1 + i) := by
          funext i
          rw [Function.comp_apply, Nat.succ_eq_add_one, Nat.add_assoc, Nat.add_comm 1 i]
        rw [hshift]
        simp only [Option.bind_eq_bind, Option.bind_some, Option.bind_eq_some_iff, ih,
          Option.some_inj]
        constructor
        · intro ⟨rest, ⟨hroom, hrest⟩, hdata⟩
          refine ⟨.inr (by omega), ?_⟩
          rw [hrest]
          exact hdata
        · intro ⟨hroom, hdata⟩
          exact ⟨_, ⟨by omega, rfl⟩, hdata⟩
      · rw [Ramdisk.read_of_le (by omega)]
        refine iff_of_false (Option.some_ne_none data).symm ?_
        intro h
        omega

/-! ## Headers -/

/-- The walk finds a header at the offset. -/
def Header (r : Ramdisk) (offset : ℕ) : Prop := offset < r.size ∧ r.bytes offset ≠ 0

instance (r : Ramdisk) : DecidablePred (Header r) := fun offset =>
  inferInstanceAs (Decidable (offset < r.size ∧ r.bytes offset ≠ 0))

/-- The size that a header records. -/
def entrySize (r : Ramdisk) (offset : ℕ) : ℕ := octalToInt r.bytes (offset + sizeField) 11 0

/-- The offset behind the data of a header. -/
def nextHeader (r : Ramdisk) (offset : ℕ) : ℕ :=
  offset + (512 + (entrySize r offset + 511) / 512 * 512)

/-- The offsets that a walk comes to, unless it stops at a header before. -/
inductive Visited (r : Ramdisk) (stop : ℕ → Prop) : ℕ → Prop where
  | first : Visited r stop 0
  | next {offset : ℕ} : Visited r stop offset → Header r offset → ¬ stop offset →
      Visited r stop (nextHeader r offset)

theorem octalToInt_lt (bytes : ℕ → UInt8) (offset n acc : ℕ) :
    octalToInt bytes offset n acc < (acc + 1) * 8 ^ n := by
  induction n generalizing offset acc with
  | zero =>
      rw [octalToInt]
      omega
  | succ n ih =>
      rw [octalToInt]
      split_ifs with hzero hdigit
      · exact (Nat.lt_succ_self acc).trans_le
          (Nat.le_mul_of_pos_right _ (Nat.pow_pos (by decide)))
      · have hlow := UInt8.le_iff_toNat_le.mp hdigit.2
        have hvalue : (0x37 : UInt8).toNat = 55 := by decide
        have hrest := ih (offset + 1) (acc * 8 + ((bytes offset).toNat - 0x30))
        have hbound : acc * 8 + ((bytes offset).toNat - 0x30) + 1 ≤ (acc + 1) * 8 := by omega
        calc octalToInt bytes (offset + 1) n (acc * 8 + ((bytes offset).toNat - 0x30))
            < (acc * 8 + ((bytes offset).toNat - 0x30) + 1) * 8 ^ n := hrest
          _ ≤ (acc + 1) * 8 * 8 ^ n := Nat.mul_le_mul_right _ hbound
          _ = (acc + 1) * 8 ^ (n + 1) := by rw [Nat.pow_succ, Nat.mul_assoc, Nat.mul_comm 8]
      · exact (ih (offset + 1) acc).trans_le
          (Nat.mul_le_mul_left _ (Nat.pow_le_pow_right (by decide) (Nat.le_succ n)))

/-- The offset does not wrap around. -/
theorem nextHeader_lt (h : offset < r.size) :
    offset < nextHeader r offset ∧ nextHeader r offset < 2 ^ 64 := by
  have hsize := octalToInt_lt r.bytes (offset + sizeField) 11 0
  have hphysical := r.physical
  unfold nextHeader entrySize
  omega

/-! ## Rounds -/

section Walks

variable {β : Type} {visit : ℕ → ℕ → Option (List Op × Option β)} {stop : ℕ → Prop}
  {ok : ℕ → ℕ → Prop} {w : Walk}

/-- What a round of a walk can do. -/
inductive RoundCase (r : Ramdisk) (visit : ℕ → ℕ → Option (List Op × Option β)) (w : Walk) :
    LoopStep Walk (Option (List Op × Option β)) → Prop where
  | ended (h : ¬ Header r w.offset) : RoundCase r visit w (.leave (some (w.screen, none)))
  | outside (h : Header r w.offset)
      (hno : ¬ (FieldInside r (w.offset + sizeField) 11 ∧
        (visit w.offset (entrySize r w.offset)).isSome = true)) :
      RoundCase r visit w (.leave none)
  | found (h : Header r w.offset) (hfield : FieldInside r (w.offset + sizeField) 11)
      (ops : List Op) (x : β)
      (hvisit : visit w.offset (entrySize r w.offset) = some (ops, some x)) :
      RoundCase r visit w (.leave (some (w.screen ++ ops, some x)))
  | on (h : Header r w.offset) (hfield : FieldInside r (w.offset + sizeField) 11) (ops : List Op)
      (hvisit : visit w.offset (entrySize r w.offset) = some (ops, none)) :
      RoundCase r visit w (.next ⟨nextHeader r w.offset, w.screen ++ ops⟩)

theorem tarRound_cases (r : Ramdisk) (visit : ℕ → ℕ → Option (List Op × Option β)) (w : Walk) :
    RoundCase r visit w (tarRound r visit w) := by
  unfold tarRound
  by_cases hin : w.offset < r.size
  · rw [if_pos hin, Ramdisk.read_of_lt hin]
    by_cases hzero : r.bytes w.offset = 0
    · simp only [if_pos hzero]
      exact .ended fun h => h.2 hzero
    · have hheader : Header r w.offset := ⟨hin, hzero⟩
      simp only [if_neg hzero]
      cases hsize : octalToIntIn r (w.offset + sizeField) 11 0 with
      | none =>
          refine .outside hheader fun h => ?_
          rw [octalToIntIn_eq_some_iff.mpr ⟨h.1, rfl⟩] at hsize
          cases hsize
      | some size =>
          obtain ⟨hfield, rfl⟩ := octalToIntIn_eq_some_iff.mp hsize
          simp only
          rw [← entrySize]
          cases hvisit : visit w.offset (entrySize r w.offset) with
          | none =>
              refine .outside hheader fun h => ?_
              rw [hvisit] at h
              cases h.2
          | some v =>
              obtain ⟨ops, x⟩ := v
              cases x with
              | some x => exact .found hheader hfield ops x hvisit
              | none =>
                  show RoundCase r visit w
                    (.next ⟨nextHeader r w.offset % 2 ^ 64, w.screen ++ ops⟩)
                  rw [Nat.mod_eq_of_lt (nextHeader_lt hin).2]
                  exact .on hheader hfield ops hvisit
  · rw [if_neg hin]
    exact .ended fun h => hin h.1

/-- What a function does with a header: where it stays in the ramdisk, and where it stops. -/
structure VisitSpec (visit : ℕ → ℕ → Option (List Op × Option β)) (ok : ℕ → ℕ → Prop)
    (stop : ℕ → Prop) : Prop where
  inside : ∀ offset size, (visit offset size).isSome = true ↔ ok offset size
  stops : ∀ offset size ops x, visit offset size = some (ops, x) → (x.isSome = true ↔ stop offset)

/-- A walk that comes to an end in the ramdisk has been in it at every header that it has come
to. -/
theorem inside_of_returns (hspec : VisitSpec visit ok stop) {result : List Op × Option β}
    (h : LoopReturns (tarRound r visit) ⟨0, []⟩ (some result)) {offset : ℕ}
    (hvisited : Visited r stop offset) :
    ∃ screen, LoopReturns (tarRound r visit) ⟨offset, screen⟩ (some result) := by
  induction hvisited with
  | first => exact ⟨[], h⟩
  | @next offset hbefore hheader hgo ih =>
      obtain ⟨screen, hreturns⟩ := ih
      have hcase := tarRound_cases r visit ⟨offset, screen⟩
      cases hreturns with
      | leave hround =>
          rw [hround] at hcase
          cases hcase with
          | ended hno => exact absurd hheader hno
          | found _ _ ops x hvisit =>
              exact absurd ((hspec.stops _ _ _ _ hvisit).mp rfl) hgo
      | next hround hrest =>
          rw [hround] at hcase
          cases hcase with
          | on => exact ⟨_, hrest⟩

/-- The walk ends in every ramdisk. -/
theorem exists_returns (r : Ramdisk) (visit : ℕ → ℕ → Option (List Op × Option β)) (w : Walk) :
    ∃ result, LoopReturns (tarRound r visit) w result := by
  apply exists_loopReturns fun w => r.size - w.offset
  intro w t hround
  have hcase := tarRound_cases r visit w
  rw [hround] at hcase
  cases hcase with
  | on hheader =>
      have hlt := nextHeader_lt hheader.1
      have hin := hheader.1
      dsimp only
      omega

/-- A walk stays in the ramdisk exactly if it does at every header that it comes to. -/
theorem walkReturns_iff (hspec : VisitSpec visit ok stop) :
    (∃ screen result, WalkReturns r visit screen result) ↔
      ∀ offset, Visited r stop offset → Header r offset →
        FieldInside r (offset + sizeField) 11 ∧ ok offset (entrySize r offset) := by
  constructor
  · intro ⟨screen, result, hreturns⟩ offset hvisited hheader
    obtain ⟨screen', hhere⟩ := inside_of_returns hspec hreturns hvisited
    have hcase := tarRound_cases r visit ⟨offset, screen'⟩
    have hok : ∀ {v}, visit offset (entrySize r offset) = some v → ok offset (entrySize r offset) :=
      fun hv => (hspec.inside _ _).mp (by rw [hv]; rfl)
    cases hhere with
    | leave hround =>
        rw [hround] at hcase
        cases hcase with
        | ended hno => exact absurd hheader hno
        | found _ hfield ops x hvisit => exact ⟨hfield, hok hvisit⟩
    | next hround _ =>
        rw [hround] at hcase
        cases hcase with
        | on _ hfield ops hvisit => exact ⟨hfield, hok hvisit⟩
  · intro hinside
    obtain ⟨result, hreturns⟩ := exists_returns r visit ⟨0, []⟩
    have hsome : result ≠ none := by
      refine hreturns.of_invariant (fun w => Visited r stop w.offset) (· ≠ none) .first ?_ ?_
      · intro w t hvisited hround
        have hcase := tarRound_cases r visit w
        rw [hround] at hcase
        cases hcase with
        | on hheader _ ops hvisit =>
            refine .next hvisited hheader fun hstop => ?_
            cases (hspec.stops _ _ _ _ hvisit).mpr hstop
      · intro w result hvisited hround
        have hcase := tarRound_cases r visit w
        rw [hround] at hcase
        cases hcase with
        | ended => exact Option.some_ne_none _
        | found => exact Option.some_ne_none _
        | outside hheader hno =>
            obtain ⟨hfield, hok⟩ := hinside _ hvisited hheader
            exact absurd ⟨hfield, (hspec.inside _ _).mpr hok⟩ hno
    obtain ⟨⟨screen, x⟩, rfl⟩ := Option.ne_none_iff_exists'.mp hsome
    exact ⟨screen, x, hreturns⟩

/-- A function returns what it makes of a walk in the ramdisk. -/
theorem exists_result_iff (hspec : VisitSpec visit ok stop) {γ : Type}
    (f : List Op → Option β → γ) :
    (∃ y screen result, WalkReturns r visit screen result ∧ y = f screen result) ↔
      ∀ offset, Visited r stop offset → Header r offset →
        FieldInside r (offset + sizeField) 11 ∧ ok offset (entrySize r offset) := by
  rw [← walkReturns_iff hspec]
  constructor
  · intro ⟨_, screen, result, hreturns, _⟩
    exact ⟨screen, result, hreturns⟩
  · intro ⟨screen, result, hreturns⟩
    exact ⟨_, screen, result, hreturns, rfl⟩

end Walks

end LispDos.Tarfs
