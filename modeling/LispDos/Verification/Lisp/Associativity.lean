import LispDos.Verification.Lisp.Arithmetic
import LispDos.Verification.Lisp.Evaluation
import Mathlib.Algebra.BigOperators.Group.List.Lemmas
import Mathlib.Algebra.Group.Int.Units

/-! # Operators with many operands

Subtraction takes away every operand from the first, in order. Division stops after the
second operand, so it associates to the left only where the others would not change the
quotient. -/

namespace LispDos.Lisp

variable {a b c r r' : BitVec 32} {vs : List (BitVec 32)} {op : Op} {args : List Arith}

/-! ## Repeated division of integers -/

/-- Dividing by a number other than 1 and -1 makes a number smaller. -/
theorem natAbs_tdiv_lt {x d : ℤ} (hx : x ≠ 0) (hd : 2 ≤ d.natAbs) :
    (x.tdiv d).natAbs < x.natAbs := by
  rw [Int.natAbs_tdiv]
  exact Nat.div_lt_self (Int.natAbs_pos.mpr hx) hd

theorem tdiv_eq_mul {x d : ℤ} (hd : d.natAbs = 1) : x.tdiv d = x * d := by
  rcases Int.natAbs_eq_iff.mp hd with rfl | rfl
  · simp
  · simp

theorem natAbs_foldl_tdiv_le (ds : List ℤ) (x : ℤ) : (ds.foldl Int.tdiv x).natAbs ≤ x.natAbs := by
  induction ds generalizing x with
  | nil => exact le_rfl
  | cons d ds ih => exact (ih (x.tdiv d)).trans (Int.natAbs_tdiv_le_natAbs x d)

/-- A number is unchanged by a row of divisions exactly if the product of the divisors is 1. -/
theorem foldl_tdiv_eq_iff {ds : List ℤ} (hds : ∀ d ∈ ds, d ≠ 0) {x : ℤ} (hx : x ≠ 0) :
    ds.foldl Int.tdiv x = x ↔ ds.prod = 1 := by
  have hunits : ∀ (ds : List ℤ) (x : ℤ), (∀ d ∈ ds, d ≠ 0) → x ≠ 0 →
      (ds.foldl Int.tdiv x).natAbs = x.natAbs → ∀ d ∈ ds, d.natAbs = 1 := by
    intro ds
    induction ds with
    | nil => simp
    | cons d ds ih =>
        intro x hds hx h
        obtain ⟨hd, hds⟩ := List.forall_mem_cons.mp hds
        have hle := natAbs_foldl_tdiv_le ds (x.tdiv d)
        rw [List.foldl_cons] at h
        have hone : d.natAbs = 1 := by
          by_contra hne
          have hlt := natAbs_tdiv_lt hx (d := d) (by omega)
          omega
        rw [tdiv_eq_mul hone] at h
        refine List.forall_mem_cons.mpr ⟨hone, ih (x * d) hds (mul_ne_zero hx hd) ?_⟩
        rw [h, Int.natAbs_mul, hone, Nat.mul_one]
  have hmul : ∀ (ds : List ℤ) (x : ℤ), (∀ d ∈ ds, d.natAbs = 1) →
      ds.foldl Int.tdiv x = x * ds.prod := by
    intro ds
    induction ds with
    | nil => simp
    | cons d ds ih =>
        intro x h
        obtain ⟨hd, hds⟩ := List.forall_mem_cons.mp h
        rw [List.foldl_cons, tdiv_eq_mul hd, ih (x * d) hds, List.prod_cons, mul_assoc]
  constructor
  · intro h
    have hone := hunits ds x hds hx (by rw [h])
    rw [hmul ds x hone] at h
    exact mul_left_cancel₀ hx (h.trans (mul_one x).symm)
  · intro h
    have hunit : IsUnit ds.prod := h ▸ isUnit_one
    have hone : ∀ d ∈ ds, d.natAbs = 1 := by
      intro d hd
      exact Int.isUnit_iff_natAbs_eq.mp (List.prod_isUnit_iff.mp hunit d hd)
    rw [hmul ds x hone, h, mul_one]

/-! ## Divisions in 32 bits -/

/-- No divisor is zero, and every step has a quotient. -/
def DivSteps : BitVec 32 → List (BitVec 32) → Prop
  | _, [] => True
  | a, d :: ds => Op.div.Takes [a, d] ∧ DivSteps (a.sdiv d) ds

theorem toInt_sdiv_of_takes (h : Op.div.Takes [a, b]) :
    (a.sdiv b).toInt = a.toInt.tdiv b.toInt := by
  apply BitVec.toInt_sdiv_of_ne_or_ne
  by_contra hno
  obtain ⟨ha, hb⟩ := not_or.mp hno
  rw [not_not] at ha hb
  subst ha hb
  exact h.2 (by decide)

theorem DivSteps.ne_zero (h : DivSteps a vs) : ∀ d ∈ vs.map BitVec.toInt, d ≠ 0 := by
  induction vs generalizing a with
  | nil => simp
  | cons v vs ih =>
      obtain ⟨⟨hv, _⟩, hvs⟩ := h
      refine List.forall_mem_cons.mpr ⟨?_, ih hvs⟩
      intro hzero
      exact hv (BitVec.eq_of_toInt_eq hzero)

theorem DivSteps.toInt_foldl (h : DivSteps a vs) :
    (vs.foldl BitVec.sdiv a).toInt = (vs.map BitVec.toInt).foldl Int.tdiv a.toInt := by
  induction vs generalizing a with
  | nil => rfl
  | cons v vs ih =>
      obtain ⟨hv, hvs⟩ := h
      rw [List.foldl_cons, ih hvs, toInt_sdiv_of_takes hv]
      rfl

/-- A row of divisions leaves a number as it is. -/
theorem DivSteps.foldl_eq_iff (h : DivSteps a vs) :
    a = vs.foldl BitVec.sdiv a ↔ a = 0 ∨ (vs.map BitVec.toInt).prod = 1 := by
  rw [← BitVec.toInt_inj, h.toInt_foldl]
  by_cases hzero : a = 0
  · have hfold := natAbs_foldl_tdiv_le (vs.map BitVec.toInt) a.toInt
    have hnum : a.toInt = 0 := by
      rw [hzero]
      rfl
    refine iff_of_true ?_ (.inl hzero)
    omega
  · have hne : a.toInt ≠ 0 := fun hnum => hzero (BitVec.eq_of_toInt_eq hnum)
    rw [eq_comm, foldl_tdiv_eq_iff h.ne_zero hne]
    exact (or_iff_right hzero).symm

/-! ## Evaluation -/

/-- Where no operator is bound, the expression is evaluated to `r`, provided that the pool has
room for two nodes for each call; otherwise the interpreter exits. -/
def Evaluates (e : Arith) (r : BitVec 32) : Prop :=
  ∀ locals s, OperatorsFree locals → OperatorsFree s.globals →
    Yields (evaluate e.tree locals) (.num r) (nodeSize * (2 * e.calls)) s

theorem Yields.evaluate {e : Node} {locals : List EnvVar} {n d : ℕ} {v : Node} {s : Interp}
    (h : Yields (eval n e locals) v d s) : Yields (evaluate e locals) v d s := by
  constructor
  · intro hroom
    exact evaluate_eq (by simp) (h.1 hroom)
  · intro hpos hfull
    obtain ⟨t, hexit⟩ := h.2 hpos hfull
    exact ⟨t, evaluate_eq (by simp) hexit⟩

/-- An expression has one value at most. -/
theorem Evaluates.unique {e : Arith} (hcalls : e.calls ≤ 2) (h : Evaluates e r)
    (h' : Evaluates e r') : r = r' := by
  have hfree : OperatorsFree [] := by simp [OperatorsFree]
  have hroom : nodeSize * (2 * e.calls) = 0 ∨ 0 + nodeSize * (2 * e.calls) ≤ poolSize := by
    simp only [nodeSize, poolSize]
    omega
  have hok := (h [] ⟨[], 0, [], []⟩ hfree hfree).1 hroom
  rw [(h' [] ⟨[], 0, [], []⟩ hfree hfree).1 hroom] at hok
  cases hok
  rfl

/-- A call whose operands are evaluated to numbers that the function takes. -/
theorem evaluates_call (hargs : AllValid args) (hlen : args.length ≤ 16)
    (hbuiltin : ∀ s, callBuiltin op.name ((values args).map .num) s = newLvalNum r s) :
    Evaluates (.call op args) r := by
  intro locals s hlocals hglobals
  apply Yields.evaluate (n := depthOf args + 2)
  exact eval_call_yields hlocals op args (depthOf args) hbuiltin (fun t ht =>
    evalArgs_yields hlocals args hargs (depthOf args + 1) (Nat.lt_succ_self _) 0 (by omega) t ht)
    s hglobals

/-! ## Operand lists -/

/-- The call `(op v₁ … vₙ)`. -/
def flat (op : Op) (vs : List (BitVec 32)) : Arith := .call op (vs.map .lit)

/-- The call `(op (op a b) v₁ … vₙ)`. -/
def grouped (op : Op) (a b : BitVec 32) (vs : List (BitVec 32)) : Arith :=
  .call op (.call op [.lit a, .lit b] :: vs.map .lit)

theorem values_lits (vs : List (BitVec 32)) : values (vs.map .lit) = vs := by
  induction vs with
  | nil => rfl
  | cons v vs ih => rw [List.map_cons, values, Arith.value, ih]

theorem allValid_lits (vs : List (BitVec 32)) : AllValid (vs.map .lit) := by
  induction vs with
  | nil => trivial
  | cons v vs ih => exact ⟨trivial, ih⟩

theorem callsOf_lits (vs : List (BitVec 32)) : callsOf (vs.map .lit) = 0 := by
  induction vs with
  | nil => rfl
  | cons v vs ih => rw [List.map_cons, callsOf, ih, Arith.calls]

/-- The operands may be grouped from the left. -/
def LeftAssoc (op : Op) (a b : BitVec 32) (vs : List (BitVec 32)) : Prop :=
  ∃ r, Evaluates (flat op (a :: b :: vs)) r ∧ Evaluates (grouped op a b vs) r

/-- The step from one operand to the next. -/
def Op.step : Op → BitVec 32 → BitVec 32 → BitVec 32
  | .add => (· + ·)
  | .sub => (· - ·)
  | .mul => (· * ·)
  | .div => BitVec.sdiv

/-- All operands are used, from left to right. -/
def UsesAll (op : Op) (a : BitVec 32) (vs : List (BitVec 32)) : Prop :=
  Evaluates (flat op (a :: vs)) (vs.foldl op.step a)

theorem evaluates_flat (hlen : vs.length ≤ 16)
    (hbuiltin : ∀ s, callBuiltin op.name (vs.map .num) s = newLvalNum r s) :
    Evaluates (flat op vs) r := by
  apply evaluates_call (allValid_lits vs)
  · rwa [List.length_map]
  · rwa [values_lits]

theorem evaluates_grouped (htakes : op.Takes [a, b]) (hlen : vs.length ≤ 15)
    (hbuiltin : ∀ s, callBuiltin op.name
      ((BitVec.ofInt 32 (op.result [a.toInt, b.toInt]) :: vs).map .num) s = newLvalNum r s) :
    Evaluates (grouped op a b vs) r := by
  apply evaluates_call
  · exact ⟨⟨htakes, trivial, trivial, trivial⟩, allValid_lits vs⟩
  · rw [List.length_cons, List.length_map]
    omega
  · rw [values, values_lits]
    exact hbuiltin

/-! ## Subtraction and division -/

theorem sub_flat (hlen : (a :: b :: vs).length ≤ 16) :
    Evaluates (flat .sub (a :: b :: vs)) ((b :: vs).foldl (· - ·) a) :=
  evaluates_flat hlen (callBuiltin_sub a b vs)

theorem sub_grouped (hlen : (c :: vs).length ≤ 15) :
    Evaluates (grouped .sub a b (c :: vs)) ((b :: c :: vs).foldl (· - ·) a) := by
  have hfirst : BitVec.ofInt 32 (Op.sub.result [a.toInt, b.toInt]) = a - b := by
    have hdiff := foldl_sub_eq [b] a.toInt
    rw [BitVec.ofInt_toInt] at hdiff
    exact hdiff.symm
  have htakes : Op.sub.Takes [a, b] := ⟨by simp, by simp⟩
  apply evaluates_grouped htakes hlen
  rw [hfirst]
  exact callBuiltin_sub (a - b) c vs

/-- A division with more than two operands gives the quotient of the first two. -/
theorem div_flat (hlen : (a :: b :: vs).length ≤ 16) (h : Op.div.Takes [a, b]) :
    Evaluates (flat .div (a :: b :: vs)) (a.sdiv b) :=
  evaluates_flat hlen (callBuiltin_div a b h.1 h.2 vs)

theorem div_grouped (hlen : (c :: vs).length ≤ 15) (h : Op.div.Takes [a, b])
    (h' : Op.div.Takes [a.sdiv b, c]) :
    Evaluates (grouped .div a b (c :: vs)) ((a.sdiv b).sdiv c) := by
  apply evaluates_grouped h hlen
  have hfirst : BitVec.ofInt 32 (Op.div.result [a.toInt, b.toInt]) = a.sdiv b :=
    (sdiv_eq_ofInt a b).symm
  rw [hfirst]
  exact callBuiltin_div (a.sdiv b) c h'.1 h'.2 vs

/-- The third operand leaves the quotient as it is. -/
theorem sdiv_eq_self_iff (h : Op.div.Takes [a, b]) : a = a.sdiv b ↔ a = 0 ∨ b = 1 := by
  have hsteps : DivSteps a [b] := ⟨h, trivial⟩
  have hone : b.toInt = 1 ↔ b = 1 := by
    rw [← BitVec.toInt_inj]
    rfl
  have hfold := hsteps.foldl_eq_iff
  rw [List.map_singleton, List.prod_singleton, hone] at hfold
  exact hfold

/-- Subtraction associates to the left and uses all its operands. Division associates to the
left exactly if the first quotient is zero or the third operand is 1, and its result is that
of using all operands exactly if the quotient is zero or the further operands multiply to 1. -/
theorem left_associative_iff (a b c : BitVec 32) (vs : List (BitVec 32)) (hlen : vs.length ≤ 13) :
    LeftAssoc .sub a b (c :: vs) ∧ UsesAll .sub a (b :: c :: vs) ∧
      (DivSteps a (b :: c :: vs) →
        (LeftAssoc .div a b (c :: vs) ↔ a.sdiv b = 0 ∨ c = 1) ∧
          (UsesAll .div a (b :: c :: vs) ↔
            a.sdiv b = 0 ∨ ((c :: vs).map BitVec.toInt).prod = 1)) := by
  have hflat : (a :: b :: c :: vs).length ≤ 16 := by
    simp only [List.length_cons]
    omega
  have hrest : (c :: vs).length ≤ 15 := by
    rw [List.length_cons]
    omega
  have hcalls : (flat .div (a :: b :: c :: vs)).calls ≤ 2 := by
    rw [flat, Arith.calls, callsOf_lits]
    decide
  refine ⟨⟨_, sub_flat hflat, sub_grouped hrest⟩, sub_flat hflat, ?_⟩
  intro hsteps
  obtain ⟨hfirst, hsecond⟩ := hsteps
  have hdiv := div_flat hflat hfirst
  have hgrouped := div_grouped hrest hfirst hsecond.1
  refine ⟨?_, ?_⟩
  · rw [← sdiv_eq_self_iff hsecond.1]
    constructor
    · intro h
      rcases h with ⟨r, hr, hr'⟩
      have hcalls' : (grouped .div a b (c :: vs)).calls ≤ 2 := by
        rw [grouped, Arith.calls, callsOf, callsOf_lits]
        exact le_refl 2
      exact (hdiv.unique hcalls hr).trans (hgrouped.unique hcalls' hr').symm
    · intro h
      rw [← h] at hgrouped
      exact ⟨_, hdiv, hgrouped⟩
  · rw [← hsecond.foldl_eq_iff]
    constructor
    · intro h
      exact hdiv.unique hcalls h
    · intro h
      rw [UsesAll]
      show Evaluates _ ((c :: vs).foldl BitVec.sdiv (a.sdiv b))
      rw [← h]
      exact hdiv

theorem left_associative_iff_eight : LeftAssoc .sub 8 2 [2] ∧ UsesAll .sub 8 [2, 2] ∧
    (LeftAssoc .div 8 2 [2] ↔ (8 : BitVec 32).sdiv 2 = 0 ∨ (2 : BitVec 32) = 1) ∧
      (UsesAll .div 8 [2, 2] ↔
        (8 : BitVec 32).sdiv 2 = 0 ∨ ([(2 : BitVec 32)].map BitVec.toInt).prod = 1) := by
  obtain ⟨hsub, hall, hdiv⟩ := left_associative_iff 8 2 2 [] (by decide)
  have hsteps : DivSteps 8 [2, 2] := ⟨by simp [Op.Takes], by simp [Op.Takes], trivial⟩
  exact ⟨hsub, hall, hdiv hsteps⟩

/-- The call `(/ 8 2 2)` gives 4, and `(/ (/ 8 2) 2)` gives 2. -/
theorem division_stops : ¬ ∀ (a b c : BitVec 32) (vs : List (BitVec 32)), vs.length ≤ 13 →
    DivSteps a (b :: c :: vs) → LeftAssoc .div a b (c :: vs) := by
  intro h
  have hfirst : Op.div.Takes [8, 2] := by simp [Op.Takes]
  have hsecond : Op.div.Takes [(8 : BitVec 32).sdiv 2, 2] := by simp [Op.Takes]
  obtain ⟨r, hr, hr'⟩ := h 8 2 2 [] (by decide) ⟨hfirst, hsecond, trivial⟩
  have hflat : Evaluates (flat .div [8, 2, 2]) ((8 : BitVec 32).sdiv 2) := div_flat (by decide) hfirst
  have hgrouped : Evaluates (grouped .div 8 2 [2]) (((8 : BitVec 32).sdiv 2).sdiv 2) :=
    div_grouped (by decide) hfirst hsecond
  exact absurd ((hflat.unique (by decide) hr).trans (hgrouped.unique (by decide) hr').symm) (by decide)

end LispDos.Lisp
