import Mathlib.Data.List.ReduceOption
import PoolProse.Proofs.Depth
import PoolProse.Session

/-!
# Statement by statement

A document is evaluated one statement after the other. It comes to its end, or it stops at the first
statement that fails, and then it has done what the statements before that one do.
-/
namespace PoolProse

namespace Session

variable {σ : Type}

/-- The expressions are evaluated in a row and none of them fails. They have the values `values` and
write `log`, and the last one leaves `env'` and `source'`. -/
inductive Steps (src : Source σ) (limit : Limit) :
    (env : Environment) → (source : σ) → List Expr → (values : List Value) → (log : Log) →
      (env' : Environment) → (source' : σ) → Prop where
  | nil {env : Environment} {source : σ} : Steps src limit env source [] [] [] env source
  | cons {env env' env'' : Environment} {source source' source'' : σ} {e : Expr} {es : List Expr}
      {v : Value} {vs : List Value} {asked : List Nat} {log logs : Log}
      (h : evaluate src limit e env source = ⟨.ok v, env', source', asked, log⟩)
      (hrest : Steps src limit env' source' es vs logs env'' source'') :
      Steps src limit env source (e :: es) (v :: vs) (log ++ logs) env'' source''

/-- The sessions that begin with no pools and have evaluated documents since. -/
inductive Reached [Locator] (src : Source σ) : Session σ → Prop where
  | start (source : σ) (limit : Limit) : Reached src { source, limit }
  | eval {s s' : Session σ} {report : Report} {file text : Text} (hs : Reached src s)
      (h : eval src s file text = .ok (report, s')) : Reached src s'

variable {src : Source σ} {limit : Limit} {env env' : Environment} {source source' : σ}
  {es : List Expr} {values : List Value} {log : Log}

/-- Expressions in a row are all evaluated, or there is a first one that fails. -/
theorem steps_or_fails (src : Source σ) (limit : Limit) (env : Environment) (source : σ)
    (es : List Expr) :
    (∃ values log env' source', Steps src limit env source es values log env' source') ∨
      ∃ before e after values log env' source' f, es = before ++ e :: after ∧
        Steps src limit env source before values log env' source' ∧
        (evaluate src limit e env' source').result = .error f := by
  induction es generalizing env source with
  | nil => exact Or.inl ⟨_, _, _, _, .nil⟩
  | cons e es ih =>
      cases ho : evaluate src limit e env source with
      | mk result env₁ source₁ asked log₁ =>
          cases result with
          | error f => exact Or.inr ⟨[], e, es, [], [], env, source, f, rfl, .nil, by rw [ho]⟩
          | ok v =>
              rcases ih env₁ source₁ with ⟨values, log, env', source', hsteps⟩ |
                ⟨before, e', after, values, log, env', source', f, rfl, hsteps, hf⟩
              · exact Or.inl ⟨_, _, _, _, .cons ho hsteps⟩
              · exact Or.inr ⟨e :: before, e', after, _, _, env', source', f, rfl,
                  .cons ho hsteps, hf⟩

theorem Steps.run (h : Steps src limit env source es values log env' source')
    (outputs : List Text) (before : Log) (after : List Expr) :
    Session.run (evaluate src limit) ⟨env, source, outputs, none, before⟩ (es ++ after) =
      Session.run (evaluate src limit)
        ⟨env', source', outputs ++ values.reduceOption, none, before ++ log⟩ after := by
  induction h generalizing outputs before with
  | nil => simp
  | @cons _ _ _ _ _ _ _ _ v _ _ _ _ he _ ih =>
      rw [List.cons_append, Session.run, he]
      simp only
      rw [ih, ← List.append_assoc before]
      cases v <;> simp

theorem Steps.evalDocument {s : Session σ} {d : Document}
    (h : Steps src s.limit s.env s.source d.expressions values log env source) :
    Session.evalDocument (evaluate src) s d =
      (⟨values.reduceOption, none, d.issues.map (fun i => i.toIssue.toLogEntry) ++ log ++
          [summary d.expressions.length d.issues.length values.reduceOption.length]⟩,
        { s with env, source, issues := d.issues }) := by
  have hrun := h.run [] [] []
  rw [List.append_nil] at hrun
  simp only [Session.evalDocument, hrun, Session.run, List.nil_append]

/-- A document with a failure: the environment and the outputs are those of the statements before
it, and the choices and log entries of the one that failed are made and noted. -/
theorem Steps.evalDocument_error {s : Session σ} {d : Document} {before after : List Expr}
    {e : Expr} {f : Failure} (hd : d.expressions = before ++ e :: after)
    (h : Steps src s.limit s.env s.source before values log env source)
    (hf : (evaluate src s.limit e env source).result = .error f) :
    Session.evalDocument (evaluate src) s d =
      (⟨values.reduceOption, some f, d.issues.map (fun i => i.toIssue.toLogEntry) ++
          (log ++ (evaluate src s.limit e env source).log)⟩,
        { s with env, source := (evaluate src s.limit e env source).source,
                 issues := d.issues }) := by
  have hrun := h.run [] [] (e :: after)
  simp only [Session.evalDocument, hd, hrun, Session.run, hf, evaluate_env_of_error hf,
    List.nil_append, List.append_nil]

/-- However a document goes, there are statements `done` that it gets through, and it fails with the
next one if there is a next one. -/
theorem evalDocument_cases (src : Source σ) (s : Session σ) (d : Document) :
    ∃ done rest values log source', d.expressions = done ++ rest ∧
      Steps src s.limit s.env s.source done values log
        (Session.evalDocument (evaluate src) s d).2.env source' ∧
      (Session.evalDocument (evaluate src) s d).1.outputs = values.reduceOption ∧
      ((rest = [] ∧ (Session.evalDocument (evaluate src) s d).1.failure = none) ∨
        ∃ e after f, rest = e :: after ∧
          (evaluate src s.limit e (Session.evalDocument (evaluate src) s d).2.env source').result =
            .error f ∧
          (Session.evalDocument (evaluate src) s d).1.failure = some f) := by
  rcases steps_or_fails src s.limit s.env s.source d.expressions with
    ⟨values, log, env, source, hsteps⟩ |
    ⟨before, e, after, values, log, env, source, f, hd, hsteps, hf⟩
  · rw [hsteps.evalDocument]
    exact ⟨_, [], values, log, source, (List.append_nil _).symm, hsteps, rfl,
      Or.inl ⟨rfl, rfl⟩⟩
  · rw [hsteps.evalDocument_error hd hf]
    exact ⟨before, _, values, log, source, hd, hsteps, rfl, Or.inr ⟨e, after, f, rfl, hf, rfl⟩⟩

theorem exists_parse_of_eval [Locator] {s s' : Session σ} {file text : Text} {report : Report}
    (h : eval src s file text = .ok (report, s')) :
    ∃ d, Document.parse file text = .ok d ∧
      Session.evalDocument (evaluate src) s d = (report, s') := by
  cases hd : Document.parse file text with
  | error f =>
      rw [eval, evalBy, hd] at h
      cases h
  | ok d =>
      rw [eval_of_parse hd] at h
      exact ⟨d, rfl, Except.ok.inj h⟩

theorem limit_of_eval [Locator] {s s' : Session σ} {file text : Text} {report : Report}
    (h : eval src s file text = .ok (report, s')) : s'.limit = s.limit := by
  obtain ⟨d, -, hs'⟩ := exists_parse_of_eval h
  exact congrArg (fun r => r.2.limit) hs'.symm

end Session

end PoolProse
