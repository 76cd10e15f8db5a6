import LispDos.Verification.Lisp.Assignments
import LispDos.Verification.Lisp.Safety
import Mathlib.Data.List.Perm.Basic

/-! # The environment as a map

After a script the table of global variables is the map of its assignments, up to the
capacity of the table. -/

namespace LispDos.Lisp

open Foundation

variable {start s t : Interp} {es : List Node} {h table : List EnvVar}
  {sym : List UInt8} {v : Node}

/-! ## Scripts -/

/-- The expressions `es` have been evaluated one after the other without an error, from the
state `start` on, with the assignments `h`. Reading an expression leaves the table as it is. -/
inductive ScriptRun (start : Interp) : List Node → List EnvVar → Interp → Prop where
  | start : ScriptRun start [] [] start
  | next (es : List Node) (h : List EnvVar) (s : Interp) (e : Node) (t : Interp) (v : Node)
      (u : Interp) (h' : List EnvVar) (before : ScriptRun start es h s)
      (read : t.globals = s.globals) (value : Call.Returns ⟨e, [], t⟩ v u) (not_err : ¬ IsErr v)
      (assigns : Assigns (.call ⟨e, [], t⟩) h') : ScriptRun start (es ++ [e]) (h ++ h') u

/-- The loop over a script runs one. -/
theorem Reached.scriptRun (hs : Reached start s) : ∃ es h, ScriptRun start es h s := by
  induction hs with
  | start => exact ⟨[], [], .start⟩
  | next s ast t v u _ reads value not_err ih =>
      obtain ⟨es, h, hscript⟩ := ih
      obtain ⟨n, heval⟩ := value
      obtain ⟨h', hassigns⟩ := assigns_of_eval n ast [] t v u heval
      have hread : t.globals = s.globals := (readExpr_tree reads.read).2
      exact ⟨es ++ [ast], h ++ h', .next es h s ast t v u h' hscript hread ⟨n, heval⟩ not_err hassigns⟩

/-- The table after a script. -/
theorem ScriptRun.globals (hs : ScriptRun start es h s) : s.globals = h.foldl store start.globals := by
  induction hs with
  | start => rfl
  | next es h s e t v u h' _ read value _ assigns ih =>
      have hstep : u.globals = h'.foldl store t.globals := assigns.globals u ⟨v, value⟩
      rw [hstep, read, ih, List.foldl_append]

/-! ## Looking up -/

/-- What a symbol means that has not been assigned. -/
def unbound (sym : List UInt8) : Node :=
  if builtins.contains sym then .sym sym else .err (text "Variavel/Funcao nao definida")

/-- What a symbol means after the assignments: the value of the last one, if there is one. -/
def meaning (h : List EnvVar) (sym : List UInt8) : Node :=
  (lastEntry EnvVar.sym h sym).elim (unbound sym) EnvVar.val

/-- Without local variables the symbol is looked up as `v`, in every state with these global
variables that has room for a node. -/
def Denotes (table : List EnvVar) (sym : List UInt8) (v : Node) : Prop :=
  ∀ t : Interp, t.globals = table → t.pool + nodeSize ≤ poolSize →
    ∃ t', envGet sym [] t = .ok v t'

theorem envGet_globals (hroom : t.pool + nodeSize ≤ poolSize) : ∃ t', envGet sym [] t =
    .ok ((tableFind EnvVar.sym t.globals sym).elim (unbound sym) EnvVar.val) t' := by
  have hlocals : ([] : List EnvVar).find? (fun v => v.sym = sym) = none := rfl
  simp only [envGet, hlocals]
  rw [tableFind]
  cases t.globals.find? fun v => v.sym = sym with
  | some v => exact ⟨t, rfl⟩
  | none =>
      simp only [Option.elim_none, unbound, List.contains_iff_mem]
      split
      · exact ⟨_, allocNode_ok _ hroom⟩
      · exact ⟨_, allocNode_ok _ hroom⟩

theorem denotes_iff : Denotes table sym v ↔
    v = (tableFind EnvVar.sym table sym).elim (unbound sym) EnvVar.val := by
  constructor
  · intro hv
    have hroom : 0 + nodeSize ≤ poolSize := by decide
    obtain ⟨t, ht⟩ := hv ⟨[], 0, table, []⟩ rfl hroom
    obtain ⟨t', ht'⟩ : ∃ t', envGet sym [] ⟨[], 0, table, []⟩ = .ok _ t' := envGet_globals hroom
    rw [ht] at ht'
    cases ht'
    rfl
  · rintro rfl t rfl hroom
    exact envGet_globals hroom

/-- An assignment changes what its own symbol is looked up as, and nothing else. -/
theorem denotes_store {b : EnvVar} (hsym : sym ≠ b.sym) :
    Denotes (store table b) sym v ↔ Denotes table sym v := by
  rw [denotes_iff, denotes_iff, store, tableFind_put_ne hsym]

/-- The symbols that came first are looked up as what they mean, the others as unbound. -/
theorem denotes_run (h : List EnvVar) (sym : List UInt8) :
    Denotes (h.foldl store []) sym (meaning h sym) ↔
      (sym ∈ (firstKeys EnvVar.sym h).drop 128 → meaning h sym = unbound sym) := by
  have hnodup : (firstKeys EnvVar.sym h).Nodup := nodup_firstKeys h
  rw [← List.take_append_drop 128 (firstKeys EnvVar.sym h)] at hnodup
  rw [denotes_iff]
  by_cases htake : sym ∈ (firstKeys EnvVar.sym h).take 128
  · have hfind : tableFind EnvVar.sym (h.foldl store []) sym = lastEntry EnvVar.sym h sym :=
      tableFind_run_of_mem htake
    rw [hfind]
    refine iff_of_true rfl ?_
    intro hdrop
    exact (List.disjoint_of_nodup_append hnodup htake hdrop).elim
  · have hfind : tableFind EnvVar.sym (h.foldl store []) sym = none :=
      tableFind_run_of_not_mem htake
    rw [hfind, Option.elim_none]
    constructor
    · exact fun heq _ => heq
    · intro hdropped
      by_cases hdrop : sym ∈ (firstKeys EnvVar.sym h).drop 128
      · exact hdropped hdrop
      -- the symbol was never assigned
      · have hnever : sym ∉ h.map EnvVar.sym := by
          rw [← mem_firstKeys, ← List.take_append_drop 128 (firstKeys EnvVar.sym h),
            List.mem_append]
          exact fun hmem => hmem.elim htake hdrop
        rw [meaning, lastEntry_eq_none_iff.mpr hnever, Option.elim_none]

/-- After a script that starts with an empty table, every symbol is looked up as what it means
exactly if this does not matter for the symbols after the first 128. -/
theorem environment_is_map_iff (hstart : start.globals = []) (hscript : ScriptRun start es h s) :
    (∀ sym, Denotes s.globals sym (meaning h sym)) ↔
      ∀ sym ∈ (firstKeys EnvVar.sym h).drop 128, meaning h sym = unbound sym := by
  have hglobals := hscript.globals
  rw [hstart] at hglobals
  rw [hglobals]
  exact forall_congr' (denotes_run h)

/-- After a script that starts with an empty table, the first 128 symbols that were assigned are
looked up as the value of their last assignment, and all others as unbound. Assigning one
symbol never changes another. -/
theorem environment_keeps_first_symbols (start s : Interp) (es : List Node) (h : List EnvVar)
    (hstart : start.globals = []) (hscript : ScriptRun start es h s) :
    (∀ sym ∈ (firstKeys EnvVar.sym h).take 128,
        ∃ b, lastEntry EnvVar.sym h sym = some b ∧ Denotes s.globals sym b.val) ∧
      (∀ sym ∉ (firstKeys EnvVar.sym h).take 128, Denotes s.globals sym (unbound sym)) ∧
      ∀ sym val, ∃ u, envSet sym val s = .ok () u ∧
        ∀ other ≠ sym, ∀ v, Denotes u.globals other v ↔ Denotes s.globals other v := by
  have hglobals := hscript.globals
  rw [hstart] at hglobals
  refine ⟨?_, ?_, ?_⟩
  · intro sym hsym
    have hassigned := mem_firstKeys.mp (List.mem_of_mem_take hsym)
    have hsome : lastEntry EnvVar.sym h sym ≠ none :=
      fun hnone => lastEntry_eq_none_iff.mp hnone hassigned
    obtain ⟨b, hb⟩ := Option.ne_none_iff_exists'.mp hsome
    refine ⟨b, hb, ?_⟩
    have hfind : tableFind EnvVar.sym (h.foldl store []) sym = lastEntry EnvVar.sym h sym :=
      tableFind_run_of_mem hsym
    rw [denotes_iff, hglobals, hfind, hb, Option.elim_some]
  · intro sym hsym
    have hfind : tableFind EnvVar.sym (h.foldl store []) sym = none := tableFind_run_of_not_mem hsym
    rw [denotes_iff, hglobals, hfind, Option.elim_none]
  · intro sym val
    refine ⟨_, envSet_eq sym val s, ?_⟩
    intro other hother v
    exact denotes_store hother

/-! ## Many variables -/

/-- The form `(setq x n)`. -/
def setqForm (b : List UInt8 × BitVec 32) : Node :=
  .list (.sym (text "setq")) (.list (.sym b.1) (.list (.num b.2) .nil))

def setqVar (b : List UInt8 × BitVec 32) : EnvVar := ⟨b.1, .num b.2⟩

theorem setqForm_returns (b : List UInt8 × BitVec 32) (s : Interp) :
    Call.Returns ⟨setqForm b, [], s⟩ (.num b.2) { s with globals := store s.globals (setqVar b) } := by
  refine ⟨2, ?_⟩
  show evalSetq (fun e => eval 1 e []) (.list (.sym b.1) (.list (.num b.2) .nil)) s = _
  have hset := envSet_eq b.1 (.num b.2) s
  show (envSet b.1 (.num b.2) >>= fun _ => pure (Node.num b.2)) s = _
  rw [bind_ok hset]
  rfl

theorem setqForm_assigns (b : List UInt8 × BitVec 32) (s : Interp) :
    Assigns (.call ⟨setqForm b, [], s⟩) [setqVar b] := by
  have hnum : ¬ IsList (.num b.2) := by
    intro hlist
    rcases hlist with ⟨_, _, hnum⟩
    cases hnum
  exact .setq ⟨setqForm b, [], s⟩ _ (.sym b.1) (.list (.num b.2) .nil) (.num b.2) (.num b.2) s b.1 []
    rfl rfl rfl rfl rfl ⟨1, rfl⟩ (.atom ⟨.num b.2, [], s⟩ hnum)

theorem setqForms_script (bs : List (List UInt8 × BitVec 32)) :
    ∃ s, ScriptRun ⟨[], 0, [], []⟩ (bs.map setqForm) (bs.map setqVar) s := by
  induction bs using List.reverseRecOn with
  | nil => exact ⟨_, .start⟩
  | append_singleton bs b ih =>
      obtain ⟨s, hs⟩ := ih
      rw [List.map_append, List.map_append]
      refine ⟨_, .next _ _ s _ s _ _ _ hs rfl (setqForm_returns b s) ?_ (setqForm_assigns b s)⟩
      intro herr
      rcases herr with ⟨m, hm⟩
      cases hm

/-- The names `aa`, `ab`, … -/
def varName (i : ℕ) : List UInt8 := [UInt8.ofNat (0x61 + i / 16), UInt8.ofNat (0x61 + i % 16)]

/-- Variables with these names and their numbers. -/
def manyVars (n : ℕ) : List (List UInt8 × BitVec 32) :=
  (List.range n).map fun i => (varName i, BitVec.ofNat 32 i)

theorem varName_inj {i j : ℕ} (hi : i < 256) (hj : j < 256) (h : varName i = varName j) :
    i = j := by
  simp only [varName, List.cons.injEq, and_true] at h
  have hhigh := congrArg UInt8.toNat h.1
  have hlow := congrArg UInt8.toNat h.2
  simp only [UInt8.toNat_ofNat'] at hhigh hlow
  omega

theorem firstKeys_manyVars {n : ℕ} (hn : n ≤ 256) :
    firstKeys EnvVar.sym ((manyVars n).map setqVar) = (List.range n).map varName := by
  have hkeys : ((manyVars n).map setqVar).map EnvVar.sym = (List.range n).map varName := by
    rw [manyVars, List.map_map, List.map_map]
    rfl
  have hnodup : ((List.range n).map varName).Nodup := by
    refine List.nodup_range.map_on ?_
    intro i hi j hj
    exact varName_inj ((List.mem_range.mp hi).trans_le hn) ((List.mem_range.mp hj).trans_le hn)
  rw [← hkeys] at hnodup ⊢
  exact firstKeys_of_nodup hnodup

theorem environment_keeps_first_symbols_many : ∃ s : Interp,
    ∀ sym ∈ (firstKeys EnvVar.sym ((manyVars 2).map setqVar)).take 128,
      ∃ b, lastEntry EnvVar.sym ((manyVars 2).map setqVar) sym = some b ∧
        Denotes s.globals sym b.val := by
  obtain ⟨s, hs⟩ := setqForms_script (manyVars 2)
  exact ⟨s, (environment_keeps_first_symbols _ s _ _ rfl hs).1⟩

/-- The variable number 128 is not stored. -/
theorem last_variable_lost : ¬ ∀ start s es h, start.globals = [] → ScriptRun start es h s →
    ∀ sym, Denotes s.globals sym (meaning h sym) := by
  intro hlaw
  obtain ⟨s, hs⟩ := setqForms_script (manyVars 129)
  have hlost := hlaw _ s _ _ rfl hs (varName 128)
  rw [hs.globals] at hlost
  have hmem : varName 128 ∈ (firstKeys EnvVar.sym ((manyVars 129).map setqVar)).drop 128 := by
    rw [firstKeys_manyVars (by decide), ← List.map_drop]
    exact List.mem_map_of_mem (by decide)
  have hvalue : meaning ((manyVars 129).map setqVar) (varName 128) = .num 128 := by
    rw [manyVars, List.range_succ, List.map_append, List.map_append, meaning, List.map_singleton,
      List.map_singleton, lastEntry_append]
    rfl
  have hunbound := (denotes_run _ _).mp hlost hmem
  rw [hvalue] at hunbound
  exact absurd hunbound (by decide)

end LispDos.Lisp
