import PoolProse.Choice
import PoolProse.Environment
import PoolProse.Log

/-!
# Evaluation

Evaluating an expression gives a text, or nothing for a binding. It may change the environment, ask
for choices and write to the log. Only the evaluation of a pool member inside that of another one
counts towards the depth limit.
-/
namespace PoolProse

abbrev Value := Option Text

def Value.text (v : Value) : Text := v.getD []

inductive Fault where
  | undefinedDraw (name : Text)
  | recursionLimit (max : Nat)
  | unhandledExpression
  deriving DecidableEq, Repr

namespace Fault

def code : Fault → String
  | .undefinedDraw _ => "INVOCAT_UNDEFINED_DRAW"
  | .recursionLimit _ => "INVOCAT_RECURSION_LIMIT"
  | .unhandledExpression => "INVOCAT_UNHANDLED_EXPRESSION"

def message : Fault → Text
  | .undefinedDraw name => utf8 "cannot draw from '" ++ name ++ utf8 "'. No such pool exists"
  | .recursionLimit max =>
    utf8 "evaluation exceeded the maximum depth of " ++ Text.ofNat max ++
      utf8 ". Pools that reference each other may never end"
  | .unhandledExpression => utf8 "Evaluator cannot handle an expression of type <nil>"

end Fault

/-- Why evaluation ends without a value: a fault of the document, or a breakdown that no document
should be able to cause. -/
inductive Failure where
  | fault (f : Fault)
  /-- A choice named no member. -/
  | badChoice
  /-- A member was taken out of a pool that is not there. -/
  | badRemoval (f : Environment.RemoveFailure)
  /-- There is no limit, and the depth outgrew every bound. -/
  | endless
  deriving DecidableEq, Repr

def Failure.message? : Failure → Option Text
  | .fault f => some f.message
  | .badRemoval f => f.message?
  | .badChoice | .endless => none

structure World (σ : Type) where
  env : Environment
  /-- The state of the source of choices. -/
  source : σ
  /-- The bounds of the choices made, the latest first. -/
  asked : List Nat := []
  /-- What was logged, the latest entry first. -/
  log : Log := []

/-- How deep pool members may be evaluated inside each other. -/
inductive Limit where
  | atMost (depth : Nat)
  | none
  deriving DecidableEq, Repr

namespace Limit

def ofInt : Int → Limit
  | .ofNat (n + 1) => .atMost (n + 1)
  | _ => .none

def standard : Limit := .atMost 1000

def budget : Limit → Nat
  | .atMost depth => depth
  | .none => Nat.pow 2 62

def failure : Limit → Failure
  | .atMost depth => .fault (.recursionLimit depth)
  | .none => .endless

end Limit

/-- Computations that change a world and may fail. A failure keeps the world it happened in. -/
abbrev Eval (σ : Type) := EStateM Failure (World σ)

namespace Eval

variable {σ : Type}

/-! ## Steps -/

def choose (src : Source σ) (n : Nat) : Eval σ Nat := fun w =>
  let answer := src.choose n w.source
  .ok answer.1 { w with source := answer.2, asked := n :: w.asked }

def update (f : Environment → Environment) : Eval σ Unit :=
  modify fun w => { w with env := f w.env }

def note (level : LogLevel) (message : Text) : Eval σ Unit :=
  modify fun w => { w with log := ⟨level, message⟩ :: w.log }

def pick {α : Type} (src : Source σ) (items : List α) : Eval σ α := do
  let i ← choose src items.length
  match items[i]? with
  | some a => pure a
  | none => throw .badChoice

def takeOut (src : Source σ) (key : Text) (pool : Pool) : Eval σ Expr := do
  let i ← choose src pool.length
  let w ← get
  match w.env.remove key i with
  | .ok (e, env) => set { w with env }; pure e
  | .error f => throw (.badRemoval f)

/-! ## Expressions, given the evaluation of their parts -/

/-- A reference. A pool that does not exist is noted, and the reference stands for itself. -/
def reference (src : Source σ) (member : Expr → Eval σ Value) (name : Eval σ Value) :
    Eval σ Value := do
  let key := (← name).text
  match (← get).env.get? key with
  | none =>
    note .info (utf8 "reference to undefined pool '" ++ key ++ utf8 "'")
    pure (some (Ascii.parenOpen :: (key ++ [Ascii.parenClose])))
  | some pool => member (← pick src pool)

/-- A draw takes the member out of its pool, which must exist. -/
def draw (src : Source σ) (member : Expr → Eval σ Value) (name : Eval σ Value) :
    Eval σ Value := do
  let key := (← name).text
  match (← get).env.get? key with
  | none => throw (.fault (.undefinedDraw key))
  | some pool => member (← takeOut src key pool)

def texts : List (Eval σ Value) → Eval σ (List Text)
  | [] => pure []
  | run :: runs => do
    let v ← run
    let vs ← texts runs
    pure (v.text :: vs)

def bindPool (src : Source σ) (op : Binding) (name : Text) (items : List Expr)
    (runs : List (Eval σ Value)) : Eval σ Value := do
  match op with
  | .define => update (·.put name items)
  | .defineEval =>
    let ts ← texts runs
    update (·.put name (ts.map .lit))
  | .select =>
    if items.isEmpty then update (·.delete name)
    else
      let e ← pick src items
      update (·.put name [e])
  | .selectEval =>
    if runs.isEmpty then update (·.delete name)
    else
      let run ← pick src runs
      let v ← run
      update (·.put name [.lit v.text])
  pure none

/-- Evaluates the operands of a chain one after the other. A single operand is no chain. -/
def perform : List (Eval σ Value) → Eval σ Value
  | [run] => run
  | runs => do
    let ts ← texts runs
    pure (some ts.flatten)

mutual

/-- The evaluations of the operands of a chain of mixes, when `member` evaluates pool members. -/
def operandRuns (src : Source σ) (member : Expr → Eval σ Value) : Expr → List (Eval σ Value)
  | .lit t => [pure (some t)]
  | .mix l r => operandRuns src member l ++ [perform (operandRuns src member r)]
  | .ref name => [reference src member (perform (operandRuns src member name))]
  | .draw name => [draw src member (perform (operandRuns src member name))]
  | .bind op name items => [bindPool src op name items (itemRuns src member items)]
  | .missing => [throw (.fault .unhandledExpression)]

def itemRuns (src : Source σ) (member : Expr → Eval σ Value) : List Expr → List (Eval σ Value)
  | [] => []
  | e :: es => perform (operandRuns src member e) :: itemRuns src member es

end

def expr (src : Source σ) (member : Expr → Eval σ Value) (e : Expr) : Eval σ Value :=
  perform (operandRuns src member e)

/-- Evaluates a pool member when the given depth is left. -/
def memberAt (src : Source σ) (limit : Limit) : Nat → Expr → Eval σ Value
  | 0, _ => throw limit.failure
  | depth + 1, e => expr src (memberAt src limit depth) e

end Eval

structure Outcome (σ : Type) where
  result : Except Failure Value
  env : Environment
  source : σ
  asked : List Nat
  log : Log

/-- Evaluates an expression. A failure leaves the environment as it was given; choices that were
made and entries that were logged stay made. -/
def evaluate {σ : Type} (src : Source σ) (limit : Limit) (e : Expr) (env : Environment)
    (source : σ) : Outcome σ :=
  match Eval.expr src (Eval.memberAt src limit limit.budget) e { env, source } with
  | .ok v w => ⟨.ok v, w.env, w.source, w.asked.reverse, w.log.reverse⟩
  | .error f w => ⟨.error f, env, w.source, w.asked.reverse, w.log.reverse⟩

end PoolProse
