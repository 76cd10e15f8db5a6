import LispDos.Verification.Acpi.Search

/-! # The sleep type

The search finds the first package of the name `_S5_` exactly if it comes to it. After a name
without a package it leaves out some of the bytes, and it does not stop before the end of the
table any more. -/

namespace LispDos.Acpi

open Foundation

variable {d : Dsdt} {p q i : ℕ} {s : Scan}

/-! ## Runs -/

/-- The offsets that the search comes to, with the value of `i` there. -/
inductive Reached (d : Dsdt) : ℕ → ℕ → Prop where
  | start : Reached d 0 0
  | on {p i : ℕ} : Reached d p i → ¬ Named d p → Reached d (p + 1) (i + 1)
  | skip {p i : ℕ} : Reached d p i → Named d p → d.bytes (p + 4) ≠ 0x12 →
      Reached d (p + i + 5) (i + 1)

/-- No name with a byte behind it is in the table, unless it is at the very end and that byte opens
no package. -/
def Nothing (d : Dsdt) : Prop :=
  ∀ p, p + 4 < d.length → Named d p → p + 5 = d.length ∧ d.bytes (p + 4) ≠ 0x12

theorem Nothing.not_qualifies (h : Nothing d) : ¬ Qualifies d p :=
  fun hq => (h p hq.1 hq.2.1).2 hq.2.2

/-- Before the first name without a package `s5Addr` is zero. Behind it `s5Addr` is so far on that
the table ends before `i` does, unless the name was at the very end. -/
structure ScanInv (d : Dsdt) (s : Scan) : Prop where
  reached : Reached d (s.s5Addr + s.i) s.i
  mode : (s.s5Addr = 0 ∧ ∀ q < s.i, ¬ Named d q) ∨
    (5 ≤ s.s5Addr ∧ 2 ≤ s.i ∧ s.i + 4 < d.length) ∨
    (2 ≤ s.i ∧ s.i + 4 = d.length ∧ Nothing d)

theorem ScanInv.guard (h : ScanInv d s) : s.s5Addr = 0 ∨ 2 ≤ s.i := by
  have hmode := h.mode
  omega

theorem ScanInv.on (h : ScanInv d s) (hi : s.i + 4 < d.length) (hin : s.s5Addr + s.i < d.length)
    (hname : ¬ Named d (s.s5Addr + s.i)) : ScanInv d ⟨s.s5Addr, s.i + 1⟩ := by
  refine ⟨.on h.reached hname, ?_⟩
  rcases h.mode with ⟨hbase, hbefore⟩ | ⟨hbase, hi', _⟩ | ⟨_, hend, _⟩
  · refine .inl ⟨hbase, fun q hq => ?_⟩
    rw [hbase, Nat.zero_add] at hname
    rcases Nat.lt_succ_iff_lt_or_eq.mp hq with hlt | rfl
    · exact hbefore q hlt
    · exact hname
  · exact .inr (.inl ⟨hbase, Nat.le_succ_of_le hi', by dsimp only; omega⟩)
  · omega

theorem ScanInv.skip (h : ScanInv d s) (hi : s.i + 4 < d.length)
    (hin : s.s5Addr + s.i + 4 < d.length) (hname : Named d (s.s5Addr + s.i))
    (hopcode : d.bytes (s.s5Addr + s.i + 4) ≠ 0x12) :
    ScanInv d ⟨s.s5Addr + (s.i + 4), s.i + 1⟩ := by
  have hposition : s.s5Addr + (s.i + 4) + (s.i + 1) = s.s5Addr + s.i + s.i + 5 := by omega
  have hpos := hname.pos
  constructor
  · show Reached d (s.s5Addr + (s.i + 4) + (s.i + 1)) (s.i + 1)
    rw [hposition]
    exact .skip h.reached hname hopcode
  rcases h.mode with ⟨hbase, hbefore⟩ | ⟨hbase, hi', _⟩ | ⟨_, hend, _⟩
  · rw [hbase, Nat.zero_add] at hpos hopcode hname
    by_cases hlast : s.i + 5 < d.length
    · exact .inr (.inl ⟨by dsimp only; omega, by dsimp only; omega, hlast⟩)
    · refine .inr (.inr ⟨by dsimp only; omega, by dsimp only; omega, ?_⟩)
      intro q hq hnamed
      rcases Nat.lt_trichotomy q s.i with hlt | rfl | hgt
      · exact absurd hnamed (hbefore q hlt)
      · exact ⟨by omega, hopcode⟩
      · omega
  · exact .inr (.inl ⟨by dsimp only; omega, by dsimp only; omega, by dsimp only; omega⟩)
  · omega

/-- What the search has found when it has come to an end within the table. -/
def FoundSpec (d : Dsdt) : Option (Option (ℕ × BitVec 16)) → Prop
  | none => True
  | some none => Nothing d
  | some (some (p, value)) =>
      (∃ i, Reached d p i) ∧ Qualifies d p ∧ TypeInside d p ∧ value = slpValue d p

theorem foundSpec_of_returns {r : Option (Option (ℕ × BitVec 16))}
    (h : LoopReturns (s5Round d ((d.length : ℤ) - 4)) ⟨0, 0⟩ r) : FoundSpec d r := by
  refine h.of_invariant (ScanInv d) (FoundSpec d) ⟨.start, .inl ⟨rfl, nofun⟩⟩ ?_ ?_
  · intro s t hinv hround
    have hcase := s5Round_cases (d := d) hinv.guard
    rw [hround] at hcase
    cases hcase with
    | on hi hin hname => exact hinv.on hi hin hname
    | skip hi hin hname hopcode => exact hinv.skip hi hin hname hopcode
  · intro s r hinv hround
    have hcase := s5Round_cases (d := d) hinv.guard
    rw [hround] at hcase
    cases hcase with
    | outside => trivial
    | found _ hqualifies hinside => exact ⟨⟨_, hinv.reached⟩, hqualifies, hinside, rfl⟩
    | ended hend =>
        rcases hinv.mode with ⟨hbase, hbefore⟩ | ⟨_, _, hgo⟩ | ⟨_, _, hnothing⟩
        · intro p hp hname
          exact absurd hname (hbefore p (by omega))
        · omega
        · exact hnothing

/-- The search comes to what is reached, as long as it is in the table. -/
theorem Reached.returns (h : Reached d p i) (hp : p + 4 < d.length) :
    ∃ base, base + i = p ∧ (base = 0 ∨ 2 ≤ i) ∧ ∀ r,
      LoopReturns (s5Round d ((d.length : ℤ) - 4)) ⟨base, i⟩ r →
        LoopReturns (s5Round d ((d.length : ℤ) - 4)) ⟨0, 0⟩ r := by
  induction h with
  | start => exact ⟨0, rfl, .inl rfl, fun _ => id⟩
  | @on p i _ hname ih =>
      obtain ⟨base, rfl, hguard, hreturns⟩ := ih (by omega)
      have hround := s5Round_on (s := ⟨base, i⟩) hguard (by dsimp only; omega) hname
      exact ⟨base, rfl, hguard.imp_right Nat.le_succ_of_le,
        fun r hr => hreturns r (.next hround hr)⟩
  | @skip p i _ hname hopcode ih =>
      obtain ⟨base, rfl, hguard, hreturns⟩ := ih (by omega)
      have hround := s5Round_skip (s := ⟨base, i⟩) hguard (by dsimp only; omega) hname hopcode
      have hpos := hname.pos
      exact ⟨base + (i + 4), by omega, by omega, fun r hr => hreturns r (.next hround hr)⟩

theorem Reached.returns_found (h : Reached d p i) (hqualifies : Qualifies d p)
    (hinside : TypeInside d p) :
    LoopReturns (s5Round d ((d.length : ℤ) - 4)) ⟨0, 0⟩ (some (some (p, slpValue d p))) := by
  obtain ⟨base, rfl, hguard, hreturns⟩ := h.returns hqualifies.1
  exact hreturns _ (.leave (s5Round_found (s := ⟨base, i⟩) hguard hqualifies hinside))

theorem Reached.straight (h : ∀ q < p, ¬ Named d q) : Reached d p p := by
  induction p with
  | zero => exact .start
  | succ p ih => exact .on (ih fun q hq => h q (Nat.lt_succ_of_lt hq)) (h p (Nat.lt_succ_self p))

/-- Where there is nothing to find, the search comes to its end. -/
theorem Nothing.returns (h : Nothing d) :
    LoopReturns (s5Round d ((d.length : ℤ) - 4)) ⟨0, 0⟩ (some none) := by
  by_cases hshort : d.length ≤ 4
  · exact .leave (s5Round_ended hshort)
  · have hreached : Reached d (d.length - 5) (d.length - 5) := by
      apply Reached.straight
      intro q hq hname
      have hlast := (h q (by omega) hname).1
      omega
    obtain ⟨base, hbase, _, hreturns⟩ := hreached.returns (by omega)
    obtain rfl : base = 0 := by omega
    apply hreturns
    -- one more round, after which `i` has come to the end
    have hin : 0 + (d.length - 5) + 4 < d.length := by omega
    have hend : d.length ≤ d.length - 5 + 1 + 4 := by omega
    by_cases hname : Named d (0 + (d.length - 5))
    · have hopcode := (h _ hin hname).2
      exact .next (s5Round_skip (s := ⟨0, d.length - 5⟩) (.inl rfl) hin hname hopcode)
        (.leave (s5Round_ended hend))
    · exact .next (s5Round_on (s := ⟨0, d.length - 5⟩) (.inl rfl) hin hname)
        (.leave (s5Round_ended hend))

/-! ## The sleep type of the table -/

/-- The type of the first package of the name, or the default where there is none. -/
def Expected (d : Dsdt) (typ : SlpTyp) : Prop :=
  (∃ p, First d p ∧ typ = ⟨slpValue d p, some p⟩) ∨
    ((∀ p, ¬ Qualifies d p) ∧ typ = defaultTyp)

/-- The search stays in the table and sets `slp_typa` as expected. -/
def SearchCorrect (d : Dsdt) : Prop := ∃ typ, AcpiInit d typ ∧ Expected d typ

/-- The tables that the search is right for. -/
inductive Searchable (d : Dsdt) : Prop where
  /-- It comes to the first package, which records a type other than zero in the table. -/
  | found {p i : ℕ} (hlength : d.length < 2 ^ 31) (hfirst : First d p) (hreached : Reached d p i)
      (hinside : TypeInside d p) (htype : (typeByte d p).toNat % 64 ≠ 0)
  | nothing (hlength : d.length < 2 ^ 31) (hnothing : Nothing d)
  /-- The length is negative as an `int`, and there is no package to find. -/
  | negative (hlength : 2 ^ 31 + 4 ≤ d.length) (hnone : ∀ p, ¬ Qualifies d p)

theorem slpValue_eq_zero_iff : slpValue d p = 0 ↔ (typeByte d p).toNat % 64 = 0 := by
  have hvalue : (slpValue d p).toNat = (typeByte d p).toNat * 1024 % 65536 := by
    rw [slpValue, BitVec.toNat_ofNat, Nat.shiftLeft_eq]
  have hzero : slpValue d p = 0 ↔ (slpValue d p).toNat = 0 := by
    rw [← BitVec.toNat_inj]
    rfl
  rw [hzero, hvalue]
  omega

theorem default_ne (d : Dsdt) (p : ℕ) : defaultTyp ≠ ⟨slpValue d p, some p⟩ := by
  intro htyp
  have hsource : none = some p := congrArg SlpTyp.source htyp
  cases hsource

/-- The length as an `int`. -/
theorem scanEnd_cases (d : Dsdt) :
    (d.length < 2 ^ 31 ∧ d.scanEnd = some ((d.length : ℤ) - 4)) ∨
      (2 ^ 31 ≤ d.length ∧ d.length < 2 ^ 31 + 4 ∧ d.scanEnd = none) ∨
      (2 ^ 31 + 4 ≤ d.length ∧ ∃ scanEnd < 0, d.scanEnd = some scanEnd) := by
  have hlt := d.length_lt
  by_cases hsmall : d.length < 2 ^ 31
  · exact .inl ⟨hsmall, scanEnd_eq hsmall⟩
  · have hlen : toInt32 d.length = (d.length : ℤ) - 2 ^ 32 := by
      unfold toInt32
      rw [Int.bmod_def]
      omega
    unfold Dsdt.scanEnd
    rw [hlen]
    by_cases hover : d.length < 2 ^ 31 + 4
    · exact .inr (.inl ⟨Nat.le_of_not_lt hsmall, hover, if_pos (by omega)⟩)
    · exact .inr (.inr ⟨Nat.le_of_not_lt hover, _, by omega, if_neg (by omega)⟩)

theorem SearchCorrect.searchable (h : SearchCorrect d) : Searchable d := by
  obtain ⟨typ, ⟨scanEnd, found, hscan, hreturns, rfl⟩, hexpected⟩ := h
  rcases scanEnd_cases d with ⟨hsmall, heq⟩ | ⟨_, _, heq⟩ | ⟨hlarge, e, hneg, heq⟩
  · obtain rfl := Option.some_inj.mp (hscan.symm.trans heq)
    have hspec := foundSpec_of_returns hreturns
    cases found with
    | none => exact .nothing hsmall hspec
    | some v =>
        obtain ⟨q, value⟩ := v
        obtain ⟨⟨i, hreached⟩, hqualifies, hinside, rfl⟩ := hspec
        rcases hexpected with ⟨p, hfirst, htyp⟩ | ⟨hnone, _⟩
        · rw [setTyp] at htyp
          split_ifs at htyp with hzero
          · exact absurd htyp (default_ne d p)
          · obtain rfl := Option.some_inj.mp (SlpTyp.mk.inj htyp).2
            exact .found hsmall hfirst hreached hinside fun h => hzero (slpValue_eq_zero_iff.mpr h)
        · exact absurd hqualifies (hnone q)
  · rw [heq] at hscan
    cases hscan
  · obtain rfl := Option.some_inj.mp (hscan.symm.trans heq)
    have hround : s5Round d scanEnd ⟨0, 0⟩ = .leave (some none) := if_neg (by dsimp only; omega)
    obtain rfl := Option.some_inj.mp (hreturns.unique (.leave hround))
    rcases hexpected with ⟨p, _, htyp⟩ | ⟨hnone, _⟩
    · exact absurd htyp (default_ne d p)
    · exact .negative hlarge hnone

theorem Searchable.searchCorrect (h : Searchable d) : SearchCorrect d := by
  cases h with
  | @found p i hlength hfirst hreached hinside htype =>
      have hset : setTyp (some (p, slpValue d p)) = ⟨slpValue d p, some p⟩ :=
        if_neg fun hzero => htype (slpValue_eq_zero_iff.mp hzero)
      exact ⟨_, ⟨_, _, scanEnd_eq hlength, hreached.returns_found hfirst.1 hinside, hset.symm⟩,
        .inl ⟨p, hfirst, rfl⟩⟩
  | nothing hlength hnothing =>
      exact ⟨_, ⟨_, _, scanEnd_eq hlength, hnothing.returns, rfl⟩,
        .inr ⟨fun _ => hnothing.not_qualifies, rfl⟩⟩
  | negative hlength hnone =>
      rcases scanEnd_cases d with ⟨hsmall, _⟩ | ⟨_, hover, _⟩ | ⟨_, e, hneg, heq⟩
      · omega
      · omega
      · have hround : s5Round d e ⟨0, 0⟩ = .leave (some none) := if_neg (by dsimp only; omega)
        exact ⟨_, ⟨e, _, heq, .leave hround, rfl⟩, .inr ⟨hnone, rfl⟩⟩

/-- The search stays in the table and finds the first package of the name, if there is one, exactly
if the table is one of these. -/
theorem searchCorrect_iff (d : Dsdt) : SearchCorrect d ↔ Searchable d :=
  ⟨SearchCorrect.searchable, Searchable.searchCorrect⟩

/-- Behind the first name without a package the search leaves out as many bytes as `i` counts. -/
theorem Reached.after_skip (h : Reached d q i) (hname : Named d p)
    (hbefore : ∀ j < p, ¬ Named d j) : (q ≤ p ∧ q = i) ∨ 2 * p + 5 ≤ q := by
  induction h with
  | start => exact .inl ⟨Nat.zero_le p, rfl⟩
  | @on q i _ hother ih =>
      have hne : q ≠ p := by
        rintro rfl
        exact hother hname
      omega
  | @skip q i _ hsame _ ih =>
      have hge : ¬ q < p := fun hlt => hbefore q hlt hsame
      omega

/-- A table in which an integer of the name comes before the package. -/
def twoNamesBytes : List UInt8 :=
  [0x44, 0x53, 0x44, 0x54, 55, 0, 0, 0] ++ List.replicate 28 0 ++
    [0x08, 0x5F, 0x53, 0x35, 0x5F, 0x0A, 0x00,
      0x08, 0x5F, 0x53, 0x35, 0x5F, 0x12, 0x06, 0x04, 0x0A, 0x05, 0x0A, 0x05]

def twoNames : Dsdt := ⟨fun i => twoNamesBytes.getD i 0⟩

/-- The search leaves the table behind the integer. -/
theorem not_searchCorrect_twoNames : ¬ SearchCorrect twoNames := by
  intro h
  have hlength : twoNames.length = 55 := by decide
  have hname : Named twoNames 37 := by decide
  have hbefore : ∀ j < 37, ¬ Named twoNames j := by decide +kernel
  cases h.searchable with
  | @found p i _ hfirst hreached =>
      obtain ⟨hin, hnamed, hopcode⟩ := hfirst.1
      rcases hreached.after_skip hname hbefore with ⟨hle, _⟩ | hge
      · obtain rfl : p = 37 := by
          have hnot : ¬ p < 37 := fun hlt => hbefore p hlt hnamed
          omega
        exact absurd hopcode (by decide)
      · omega
  | nothing _ hnothing =>
      have hlast := (hnothing 37 (by rw [hlength]; decide) hname).1
      omega
  | negative hlarge => omega

end LispDos.Acpi
