import LispDos.Hal.Acpi
import LispDos.Verification.Fat16.AnyDisk

/-! # The search for the state S5

The characters `_S5_` with the name opcode before them. Where no package follows, `s5Addr` moves
behind them and `i` does not go back to zero, so the search goes on that many bytes further. -/

namespace LispDos.Acpi

open Foundation

variable {d : Dsdt} {p q i offset : ℕ} {xs : List UInt8} {s : Scan}

/-! ## Occurrences -/

/-- The bytes from the offset on begin with the given ones. -/
def Matches (d : Dsdt) : ℕ → List UInt8 → Prop
  | _, [] => True
  | offset, x :: xs => d.bytes offset = x ∧ Matches d (offset + 1) xs

instance decidableMatches (d : Dsdt) : ∀ offset xs, Decidable (Matches d offset xs)
  | _, [] => .isTrue trivial
  | offset, x :: xs =>
      have := decidableMatches d (offset + 1) xs
      inferInstanceAs (Decidable (d.bytes offset = x ∧ Matches d (offset + 1) xs))

/-- The name opcode, or the name opcode and the root character, is before the offset. -/
def Preceded (d : Dsdt) (p : ℕ) : Prop :=
  (0 < p ∧ Matches d (p - 1) [0x08]) ∨ (1 < p ∧ Matches d (p - 2) [0x08, 0x5C])

instance (d : Dsdt) : DecidablePred (Preceded d) := fun _ => inferInstanceAs (Decidable (_ ∨ _))

/-- The characters `_S5_` as a name. -/
def Named (d : Dsdt) (p : ℕ) : Prop := Matches d p [0x5F, 0x53, 0x35, 0x5F] ∧ Preceded d p

instance (d : Dsdt) : DecidablePred (Named d) := fun _ => inferInstanceAs (Decidable (_ ∧ _))

/-- The name is in the table, with a package behind it. -/
def Qualifies (d : Dsdt) (p : ℕ) : Prop := p + 4 < d.length ∧ Named d p ∧ d.bytes (p + 4) = 0x12

instance (d : Dsdt) : DecidablePred (Qualifies d) := fun _ =>
  inferInstanceAs (Decidable (_ ∧ _ ∧ _))

def First (d : Dsdt) (p : ℕ) : Prop := Qualifies d p ∧ ∀ q < p, ¬ Qualifies d q

/-- The first element of the package, with or without the byte opcode. -/
def typeByte (d : Dsdt) (p : ℕ) : UInt8 :=
  if d.bytes (p + 7) = 0x0A then d.bytes (p + 8) else d.bytes (p + 7)

def slpValue (d : Dsdt) (p : ℕ) : BitVec 16 := BitVec.ofNat 16 ((typeByte d p).toNat <<< 10)

/-- The first element of the package is in the table. -/
def TypeInside (d : Dsdt) (p : ℕ) : Prop :=
  p + 7 < d.length ∧ (d.bytes (p + 7) = 0x0A → p + 8 < d.length)

instance (d : Dsdt) : DecidablePred (TypeInside d) := fun _ => inferInstanceAs (Decidable (_ ∧ _))

theorem Named.pos (h : Named d p) : 0 < p := by
  rcases h.2 with h | h
  · exact h.1
  · exact Nat.zero_lt_of_lt h.1

/-! ## Comparisons -/

theorem Dsdt.read_of_lt (h : offset < d.length) : d.read offset = some (d.bytes offset) := if_pos h

theorem Dsdt.read_of_le (h : d.length ≤ offset) : d.read offset = none := if_neg (by omega)

theorem Dsdt.length_lt (d : Dsdt) : d.length < 2 ^ 32 := by
  have h4 := (d.bytes 4).toNat_lt
  have h5 := (d.bytes 5).toNat_lt
  have h6 := (d.bytes 6).toNat_lt
  have h7 := (d.bytes 7).toNat_lt
  unfold Dsdt.length
  omega

theorem compareAt_of_le (h : offset + xs.length ≤ d.length) :
    compareAt d offset xs = some (decide (Matches d offset xs)) := by
  induction xs generalizing offset with
  | nil => rfl
  | cons x xs ih =>
      rw [List.length_cons] at h
      rw [compareAt, Dsdt.read_of_lt (by omega)]
      have hrest : offset + 1 + xs.length ≤ d.length := by omega
      simp only [Option.bind_eq_bind, Option.bind_some, ih hrest]
      by_cases hx : d.bytes offset = x
      · simp [Matches, hx]
      · simp [Matches, hx]

/-- What a comparison tells near the end of the table. -/
theorem compareAt_eq_some {same : Bool} (h : compareAt d offset xs = some same) :
    (same = true ↔ Matches d offset xs) ∧ (xs ≠ [] → offset < d.length) ∧
      (same = true → ∀ j < xs.length, offset + j < d.length) := by
  induction xs generalizing offset with
  | nil =>
      obtain rfl := Option.some_inj.mp h
      exact ⟨iff_of_true rfl trivial, fun hne => absurd rfl hne, fun _ j hj => absurd hj (by simp)⟩
  | cons x xs ih =>
      rw [compareAt] at h
      by_cases hin : offset < d.length
      · rw [Dsdt.read_of_lt hin] at h
        simp only [Option.bind_eq_bind, Option.bind_some] at h
        by_cases hx : d.bytes offset = x
        · rw [if_pos hx] at h
          obtain ⟨hsame, _, hinside⟩ := ih h
          refine ⟨?_, fun _ => hin, ?_⟩
          · rw [hsame, Matches, and_iff_right hx]
          · intro htrue j hj
            cases j with
            | zero => exact hin
            | succ j =>
                have hj' := hinside htrue j (by simpa using hj)
                omega
        · rw [if_neg hx] at h
          obtain rfl := Option.some_inj.mp h
          exact ⟨iff_of_false Bool.false_ne_true fun hm => hx hm.1, fun _ => hin, nofun⟩
      · rw [Dsdt.read_of_le (by omega)] at h
        cases h

/-- The guards on `i` are as good as guards on the offset. -/
theorem s5Before_eq (hguard : s.s5Addr = 0 ∨ 2 ≤ s.i) (hin : s.s5Addr + s.i < d.length) :
    s5Before d s = some (decide (Preceded d (s.s5Addr + s.i))) := by
  have hone : 0 < s.i ↔ 0 < s.s5Addr + s.i := by omega
  have htwo : 1 < s.i ↔ 1 < s.s5Addr + s.i := by omega
  unfold s5Before Preceded
  simp only [hone, htwo]
  by_cases hpos : 0 < s.s5Addr + s.i
  · rw [if_pos hpos, compareAt_of_le (by rw [List.length_singleton]; omega)]
    simp only [Option.bind_eq_bind, Option.bind_some, decide_eq_true_eq, hpos, true_and]
    by_cases hdirect : Matches d (s.s5Addr + s.i - 1) [0x08]
    · simp [hdirect]
    · by_cases hgt : 1 < s.s5Addr + s.i
      · rw [if_neg hdirect, if_pos hgt,
          compareAt_of_le (by simp only [List.length_cons, List.length_nil]; omega)]
        simp [hdirect, hgt]
      · rw [if_neg hdirect, if_neg hgt]
        simp [hdirect, hgt]
  · have hgt : ¬ 1 < s.s5Addr + s.i := by omega
    simp [hpos, hgt]

theorem s5Value_eq (d : Dsdt) (p : ℕ) :
    s5Value d (p + 4) = if TypeInside d p then some (slpValue d p) else none := by
  unfold s5Value slpValue typeByte TypeInside
  by_cases hin : p + 7 < d.length
  · rw [Dsdt.read_of_lt (by omega)]
    simp only [Option.bind_eq_bind, Option.bind_some]
    by_cases hbyte : d.bytes (p + 7) = 0x0A
    · by_cases hin' : p + 4 + 4 < d.length
      · rw [Dsdt.read_of_lt hin']
        simp [hbyte, hin, hin']
      · rw [Dsdt.read_of_le (Nat.le_of_not_lt hin')]
        simp [hbyte, hin']
    · simp [hbyte, hin]
  · rw [Dsdt.read_of_le (by omega)]
    simp [hin]

/-! ## Rounds -/

theorem scanEnd_eq (h : d.length < 2 ^ 31) : d.scanEnd = some ((d.length : ℤ) - 4) := by
  unfold Dsdt.scanEnd
  rw [Fat16.toInt32_of_lt h]
  exact if_neg (by omega)

/-- What a round of the search can do. -/
inductive RoundCase (d : Dsdt) (s : Scan) :
    LoopStep Scan (Option (Option (ℕ × BitVec 16))) → Prop where
  | ended (hend : d.length ≤ s.i + 4) : RoundCase d s (.leave (some none))
  | outside (hi : s.i + 4 < d.length) (hout : s.s5Addr + s.i + 4 < d.length →
      Qualifies d (s.s5Addr + s.i) ∧ ¬ TypeInside d (s.s5Addr + s.i)) :
      RoundCase d s (.leave none)
  | on (hi : s.i + 4 < d.length) (hin : s.s5Addr + s.i < d.length)
      (hname : ¬ Named d (s.s5Addr + s.i)) : RoundCase d s (.next ⟨s.s5Addr, s.i + 1⟩)
  | skip (hi : s.i + 4 < d.length) (hin : s.s5Addr + s.i + 4 < d.length)
      (hname : Named d (s.s5Addr + s.i)) (hopcode : d.bytes (s.s5Addr + s.i + 4) ≠ 0x12) :
      RoundCase d s (.next ⟨s.s5Addr + (s.i + 4), s.i + 1⟩)
  | found (hi : s.i + 4 < d.length) (hqualifies : Qualifies d (s.s5Addr + s.i))
      (hinside : TypeInside d (s.s5Addr + s.i)) :
      RoundCase d s (.leave (some (some (s.s5Addr + s.i, slpValue d (s.s5Addr + s.i)))))

theorem s5Round_cases (hguard : s.s5Addr = 0 ∨ 2 ≤ s.i) :
    RoundCase d s (s5Round d ((d.length : ℤ) - 4) s) := by
  unfold s5Round
  by_cases hi : s.i + 4 < d.length
  · have hlt : (s.i : ℤ) < (d.length : ℤ) - 4 := by omega
    rw [if_pos hlt]
    cases hname : s5Name d s with
    | none =>
        refine .outside hi fun hin => ?_
        have hroom : s.s5Addr + s.i + [0x5F, 0x53, 0x35, (0x5F : UInt8)].length ≤ d.length := hin.le
        rw [s5Name, compareAt_of_le hroom] at hname
        cases hname
    | some name =>
        obtain ⟨hmatch, hfirst, hinside⟩ := compareAt_eq_some hname
        have hin := hfirst (List.cons_ne_nil _ _)
        cases name with
        | false => exact .on hi hin fun hn => Bool.false_ne_true (hmatch.mpr hn.1)
        | true =>
            rw [s5Before_eq hguard hin]
            by_cases hbefore : Preceded d (s.s5Addr + s.i)
            · have hnamed : Named d (s.s5Addr + s.i) := ⟨hmatch.mp rfl, hbefore⟩
              simp only [decide_eq_true hbefore]
              rw [← Nat.add_assoc s.s5Addr s.i 4]
              by_cases hin4 : s.s5Addr + s.i + 4 < d.length
              · rw [Dsdt.read_of_lt hin4]
                dsimp only
                by_cases hopcode : d.bytes (s.s5Addr + s.i + 4) = 0x12
                · have hqualifies : Qualifies d (s.s5Addr + s.i) := ⟨hin4, hnamed, hopcode⟩
                  rw [if_pos hopcode, s5Value_eq]
                  by_cases hinside : TypeInside d (s.s5Addr + s.i)
                  · rw [if_pos hinside]
                    exact .found hi hqualifies hinside
                  · rw [if_neg hinside]
                    exact .outside hi fun _ => ⟨hqualifies, hinside⟩
                · rw [if_neg hopcode]
                  exact .skip hi hin4 hnamed hopcode
              · rw [Dsdt.read_of_le (Nat.le_of_not_lt hin4)]
                exact .outside hi fun hlt => absurd hlt hin4
            · simp only [decide_eq_false hbefore]
              exact .on hi hin fun hn => hbefore hn.2
  · have hge : ¬ (s.i : ℤ) < (d.length : ℤ) - 4 := by omega
    rw [if_neg hge]
    exact .ended (Nat.le_of_not_lt hi)

theorem s5Round_ended (hend : d.length ≤ s.i + 4) :
    s5Round d ((d.length : ℤ) - 4) s = .leave (some none) := by
  have hge : ¬ (s.i : ℤ) < (d.length : ℤ) - 4 := by omega
  exact if_neg hge

theorem s5Round_on (hguard : s.s5Addr = 0 ∨ 2 ≤ s.i) (hin : s.s5Addr + s.i + 4 < d.length)
    (hname : ¬ Named d (s.s5Addr + s.i)) :
    s5Round d ((d.length : ℤ) - 4) s = .next ⟨s.s5Addr, s.i + 1⟩ := by
  have hcase := s5Round_cases (d := d) hguard
  generalize s5Round d ((d.length : ℤ) - 4) s = step at hcase ⊢
  cases hcase with
  | ended => omega
  | outside _ hout => exact absurd (hout hin).1.2.1 hname
  | on => rfl
  | skip _ _ hnamed => exact absurd hnamed hname
  | found _ hqualifies => exact absurd hqualifies.2.1 hname

theorem s5Round_skip (hguard : s.s5Addr = 0 ∨ 2 ≤ s.i) (hin : s.s5Addr + s.i + 4 < d.length)
    (hname : Named d (s.s5Addr + s.i)) (hopcode : d.bytes (s.s5Addr + s.i + 4) ≠ 0x12) :
    s5Round d ((d.length : ℤ) - 4) s = .next ⟨s.s5Addr + (s.i + 4), s.i + 1⟩ := by
  have hcase := s5Round_cases (d := d) hguard
  generalize s5Round d ((d.length : ℤ) - 4) s = step at hcase ⊢
  cases hcase with
  | ended => omega
  | outside _ hout => exact absurd (hout hin).1.2.2 hopcode
  | on _ _ hnamed => exact absurd hname hnamed
  | skip => rfl
  | found _ hqualifies => exact absurd hqualifies.2.2 hopcode

theorem s5Round_found (hguard : s.s5Addr = 0 ∨ 2 ≤ s.i) (hqualifies : Qualifies d (s.s5Addr + s.i))
    (hinside : TypeInside d (s.s5Addr + s.i)) :
    s5Round d ((d.length : ℤ) - 4) s =
      .leave (some (some (s.s5Addr + s.i, slpValue d (s.s5Addr + s.i)))) := by
  have hcase := s5Round_cases (d := d) hguard
  have hin := hqualifies.1
  generalize s5Round d ((d.length : ℤ) - 4) s = step at hcase ⊢
  cases hcase with
  | ended => omega
  | outside _ hout => exact absurd hinside (hout hin).2
  | on _ _ hnamed => exact absurd hqualifies.2.1 hnamed
  | skip _ _ _ hopcode => exact absurd hqualifies.2.2 hopcode
  | found => rfl

end LispDos.Acpi
