import LispDos.Foundation.Fuel
import LispDos.Tools.LispEval

/-! # Properties of the evaluator

The evaluator is put together from a few calls by sequencing. What these calls have and
sequencing keeps, the whole evaluator has, for any recursive calls that have it. The
properties are those of families of calls, so that one may compare evaluators. -/

namespace LispDos.Lisp

open Foundation

/-- A property of families of calls that the basic calls have and that sequencing keeps. -/
structure Closed {I : Type} (P : ∀ {α : Type}, (I → Run α) → Prop) : Prop where
  pure {α : Type} (a : α) : P fun _ => pure a
  fault {α : Type} : P fun _ => (fault : Run α)
  bind {α β : Type} {x : I → Run α} {f : I → α → Run β} :
    P x → (∀ a, P fun i => f i a) → P fun i => x i >>= f i
  allocNode (e : Node) : P fun _ => allocNode e
  print (cs : List UInt8) : P fun _ => print cs
  envSet (sym : List UInt8) (val : Node) : P fun _ => envSet sym val
  envGet (sym : List UInt8) (locals : List EnvVar) : P fun _ => envGet sym locals

namespace Closed

variable {I : Type} {P : ∀ {α : Type}, (I → Run α) → Prop}

theorem getFirst (h : Closed P) (e : Node) : P fun _ => e.getFirst := by
  cases e <;> first | exact h.fault | exact h.pure _

theorem getRest (h : Closed P) (e : Node) : P fun _ => e.getRest := by
  cases e <;> first | exact h.fault | exact h.pure _

theorem getSym (h : Closed P) (e : Node) : P fun _ => e.getSym := by
  cases e <;> first | exact h.fault | exact h.pure _

theorem getNum (h : Closed P) (e : Node) : P fun _ => e.getNum := by
  cases e <;> first | exact h.fault | exact h.pure _

theorem foldlM (h : Closed P) {α β : Type} {f : β → α → Run β} (hf : ∀ b a, P fun _ => f b a)
    (l : List α) (b : β) : P fun _ => l.foldlM f b := by
  induction l generalizing b with
  | nil => exact h.pure b
  | cons a l ih => exact h.bind (hf b a) ih

theorem printArgs (h : Closed P) (args : List Node) : P fun _ => printArgs args := by
  induction args with
  | nil => exact h.pure ()
  | cons arg args ih =>
      refine h.bind ?_ fun _ => h.bind (h.print _) fun _ => ih
      cases arg <;> first | exact h.fault | exact h.print _ | exact h.pure _

theorem foldArgs (h : Closed P) (op : BitVec 32 → BitVec 32 → BitVec 32) (args : List Node)
    (res : BitVec 32) : P fun _ => foldArgs op args res := by
  refine h.foldlM ?_ args res
  intro res arg
  exact h.bind (h.getNum arg) fun n => h.pure (op res n)

theorem callSub (h : Closed P) (args : List Node) : P fun _ => callSub args := by
  rcases args with _ | ⟨arg, _ | ⟨arg', args⟩⟩
  · exact h.fault
  · exact h.bind (h.getNum _) fun _ => h.allocNode _
  · exact h.bind (h.getNum _) fun _ => h.bind (h.foldArgs _ _ _) fun _ => h.allocNode _

theorem callDiv (h : Closed P) (args : List Node) : P fun _ => callDiv args := by
  rcases args with _ | ⟨arg, _ | ⟨arg', args⟩⟩
  · exact h.allocNode _
  · exact h.allocNode _
  · refine h.bind (h.getNum _) fun divisor => ?_
    split
    · refine h.bind (h.getNum _) fun dividend => ?_
      split
      · exact h.fault
      · exact h.allocNode _
    · exact h.allocNode _

theorem callBuiltin (h : Closed P) (name : List UInt8) (args : List Node) :
    P fun _ => callBuiltin name args := by
  unfold Lisp.callBuiltin
  split
  · exact h.bind (h.foldArgs _ args 0) fun _ => h.allocNode _
  · split
    · exact h.callSub args
    · split
      · exact h.bind (h.foldArgs _ args 1) fun _ => h.allocNode _
      · split
        · exact h.callDiv args
        · split
          · exact h.bind (h.printArgs args) fun _ => h.bind (h.print _) fun _ => h.allocNode _
          · exact h.allocNode _

theorem evalArgs (h : Closed P) {ev : I → Node → Run Node} (hev : ∀ e, P fun i => ev i e)
    (e : Node) (ac : ℕ) : P fun i => evalArgs (ev i) e ac := by
  induction e generalizing ac with
  | list first rest _ ih =>
      refine h.bind (hev first) fun _ => ?_
      split
      · exact h.bind (ih (ac + 1)) fun _ => h.pure _
      · exact h.fault
  | null => exact h.pure _
  | err => exact h.pure _
  | num => exact h.pure _
  | sym => exact h.pure _
  | nil => exact h.pure _
  | func => exact h.pure _

theorem bindParams (h : Closed P) (params : Node) (args : List Node) :
    P fun _ => bindParams params args := by
  fun_induction Lisp.bindParams with
  | case1 param params arg args ih =>
      exact h.bind (h.getSym param) fun _ => h.bind ih fun _ => h.pure _
  | case2 => exact h.pure _

theorem evalDefun (h : Closed P) (rest : Node) : P fun _ => evalDefun rest :=
  h.bind (h.getFirst _) fun _ => h.bind (h.getRest _) fun _ => h.bind (h.getFirst _) fun _ =>
    h.bind (h.getRest _) fun _ => h.bind (h.getFirst _) fun _ => h.bind (h.allocNode _) fun _ =>
    h.bind (h.getSym _) fun _ => h.bind (h.envSet _ _) fun _ => h.allocNode _

theorem evalSetq (h : Closed P) {ev : I → Node → Run Node} (hev : ∀ e, P fun i => ev i e)
    (rest : Node) : P fun i => evalSetq (ev i) rest :=
  h.bind (h.getFirst _) fun _ => h.bind (h.getRest _) fun _ => h.bind (h.getFirst _) fun _ =>
    h.bind (hev _) fun _ => h.bind (h.getSym _) fun _ => h.bind (h.envSet _ _) fun _ => h.pure _

theorem evalCall (h : Closed P) {ev : I → Node → List EnvVar → Run Node}
    (hev : ∀ e locals, P fun i => ev i e locals) (f rest : Node) (locals : List EnvVar) :
    P fun i => evalCall (ev i) f rest locals := by
  have hargs := h.evalArgs (fun e => hev e locals) rest 0
  cases f with
  | null => exact h.fault
  | err => exact h.pure _
  | sym => exact h.bind hargs fun _ => h.callBuiltin _ _
  | func => exact h.bind hargs fun _ => h.bind (h.bindParams _ _) fun _ => hev _ _
  | num => exact h.bind hargs fun _ => h.allocNode _
  | list => exact h.bind hargs fun _ => h.allocNode _
  | nil => exact h.bind hargs fun _ => h.allocNode _

theorem evalList (h : Closed P) (ev : I → Node → List EnvVar → Run Node)
    (hev : ∀ e locals, P fun i => ev i e locals) (first rest : Node) (locals : List EnvVar) :
    P fun i => evalList (ev i) first rest locals := by
  unfold Lisp.evalList
  split
  · exact h.fault
  · split
    · exact h.evalDefun rest
    · split
      · exact h.evalSetq (fun e => hev e locals) rest
      · exact h.bind (hev first locals) fun f => h.evalCall hev f rest locals

/-- One more nested call. -/
theorem eval_succ (h : Closed P) (fuel : I → ℕ)
    (hev : ∀ e locals, P fun i => eval (fuel i) e locals) (e : Node) (locals : List EnvVar) :
    P fun i => eval (fuel i + 1) e locals := by
  cases e with
  | null => exact h.allocNode _
  | num => exact h.pure _
  | sym => exact h.envGet _ _
  | nil => exact h.pure _
  | err => exact h.allocNode _
  | func => exact h.allocNode _
  | list first rest => exact h.evalList _ hev first rest locals

/-- A property that a cut off evaluation has as well. -/
theorem eval (h : Closed P) (htimeout : P fun _ => (timeout : Run Node)) (fuel : ℕ) (e : Node)
    (locals : List EnvVar) : P fun _ => eval fuel e locals := by
  induction fuel generalizing e locals with
  | zero => exact htimeout
  | succ fuel ih => exact h.eval_succ (fun _ => fuel) ih e locals

end Closed

end LispDos.Lisp
