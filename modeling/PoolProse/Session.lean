import PoolProse.Document
import PoolProse.Evaluation
import PoolProse.Settings
import PoolProse.Yaml.Writer

/-!
# Sessions

A session evaluates documents one after the other. Pools that one document defines are there for
the next. A statement that faults has no effect and ends its document.
-/
namespace PoolProse

structure Session (σ : Type) where
  env : Environment := .empty
  source : σ
  limit : Limit := .standard
  /-- The syntax errors of the latest document. -/
  issues : List SyntaxIssue := []

structure Report where
  outputs : List Text
  failure : Option Failure
  log : Log

namespace Session

variable {σ : Type}

/-- A session set up by settings. Without a seed its choices come from `stream`. -/
def ofSettings (settings : Settings) (stream : RandomStream) : Session RandomStream where
  source := (settings.seed.map RandomStream.ofSeed).getD stream
  limit := .ofInt settings.maxDepth

structure Progress (σ : Type) where
  env : Environment
  source : σ
  outputs : List Text := []
  failure : Option Failure := none
  log : Log := []

/-- Evaluates expressions in a row, each by `step`, up to the first that fails. -/
def run (step : Expr → Environment → σ → Outcome σ) (p : Progress σ) : List Expr → Progress σ
  | [] => p
  | e :: es =>
    let o := step e p.env p.source
    let log := p.log ++ o.log
    match o.result with
    | .ok v => run step ⟨o.env, o.source, p.outputs ++ v.toList, none, log⟩ es
    | .error f => ⟨o.env, o.source, p.outputs, some f, log⟩

def summary (evaluated skipped produced : Nat) : LogEntry where
  level := .debug
  message :=
    utf8 "evaluated " ++ Text.ofNat evaluated ++ utf8 " statements, skipped " ++
      Text.ofNat skipped ++ utf8 ", produced " ++ Text.ofNat produced ++ utf8 " values"

/-- Evaluates the statements of a document that has been read, each by `step` under the limit of the
session. -/
def evalDocument (step : Limit → Expr → Environment → σ → Outcome σ) (s : Session σ)
    (d : Document) : Report × Session σ :=
  let noted := d.issues.map fun i => i.toIssue.toLogEntry
  let p := run (step s.limit) { env := s.env, source := s.source } d.expressions
  let closing :=
    match p.failure with
    | some _ => []
    | none => [summary d.expressions.length d.issues.length p.outputs.length]
  (⟨p.outputs, p.failure, noted ++ p.log ++ closing⟩,
    { s with env := p.env, source := p.source, issues := d.issues })

def evalBy [Locator] (step : Limit → Expr → Environment → σ → Outcome σ) (s : Session σ)
    (file text : Text) : Except Position.Failure (Report × Session σ) :=
  (Document.parse file text).map (evalDocument step s)

def eval [Locator] (src : Source σ) (s : Session σ) (file text : Text) :
    Except Position.Failure (Report × Session σ) :=
  evalBy (evaluate src) s file text

theorem eval_of_parse [Locator] {src : Source σ} {s : Session σ} {file text : Text} {d : Document}
    (hd : Document.parse file text = .ok d) :
    eval src s file text = .ok (evalDocument (evaluate src) s d) := by
  rw [eval, evalBy, hd]
  rfl

def dump (s : Session σ) : Text :=
  Yaml.mapping (s.env.entries.map fun (key, pool) => (key, pool.map Expr.render))

end Session

end PoolProse
