import PoolProse.Proofs.Depth
import PoolProse.Session

/-!
# The nesting counter

Evaluation can be run with a counter instead of a depth that is handed down: it is raised when a
pool member is entered, compared with the limit, and lowered when the member is left, whether by a
value or by a failure. The counter is where it was after every evaluation, so a session that carries
it along from call to call does what a session without it does.
-/
namespace PoolProse

/-- The counter: how many pool members are being evaluated inside each other. -/
abbrev Nested (σ : Type) := Extended σ Nat

def Limit.isBeyond : Limit → Nat → Bool
  | .atMost max, depth => max < depth
  | .none, _ => false

namespace Eval

variable {σ : Type} {α β γ δ : Type}

def nested (run : Eval (Nested σ) α) : Eval (Nested σ) α := fun w =>
  match run (w.adjust (· + 1)) with
  | .ok a u => .ok a (u.adjust (· - 1))
  | .error f u => .error f (u.adjust (· - 1))

/-- A computation that is refused if the counter is beyond the limit. -/
def guarded (limit : Limit) (run : Eval (Nested σ) α) : Eval (Nested σ) α := do
  if limit.isBeyond (← get).source.extra then throw limit.failure else run

/-- Evaluates a pool member with the counter. Without a limit there may be no end to it, and it is
given up when the fuel is used up. -/
def nestedMember (src : Source σ) (limit : Limit) : (fuel : Nat) → Expr → Eval (Nested σ) Value
  | 0, _ => nested (guarded limit (throw .endless))
  | fuel + 1, e =>
    nested (guarded limit (expr (Extended.silent Nat src) (nestedMember src limit fuel) e))

/-! ## The counter comes back -/

/-- Both computations end in the same way, and the counter is at `depth`. -/
inductive Mirrors (depth : Nat) (R : α → β → Prop) :
    EStateM.Result Failure (World (Nested σ)) β →
      EStateM.Result Failure (World σ) α → Prop where
  | ok {a : α} {b : β} {w : World (Nested σ)} (h : R a b) (hw : w.source.extra = depth) :
      Mirrors depth R (.ok b w) (.ok a w.bare)
  | error {f : Failure} {w : World (Nested σ)} (hw : w.source.extra = depth) :
      Mirrors depth R (.error f w) (.error f w.bare)

/-- The computation with the counter ends as the other one does, and leaves the counter where it
was. -/
def Returns (depth : Nat) (R : α → β → Prop) (m : Eval σ α) (m' : Eval (Nested σ) β) : Prop :=
  ∀ w, w.source.extra = depth → Mirrors depth R (m' w) (m w.bare)

theorem Returns.bind {depth : Nat} {R : α → β → Prop} {T : γ → δ → Prop} {m : Eval σ α}
    {m' : Eval (Nested σ) β} {f : α → Eval σ γ} {f' : β → Eval (Nested σ) δ}
    (h : Returns depth R m m') (hf : ∀ a b, R a b → Returns depth T (f a) (f' b)) :
    Returns depth T (m >>= f) (m' >>= f') := by
  intro w hw
  rw [bind_apply, bind_apply]
  have hmirrors := h w hw
  generalize m w.bare = r at hmirrors ⊢
  generalize m' w = r' at hmirrors ⊢
  cases hmirrors with
  | ok hab hu => exact hf _ _ hab _ hu
  | error hu => exact .error hu

theorem returns_of_untouched {depth : Nat} {R : α → β → Prop} {m : Eval σ α}
    {m' : Eval (Nested σ) β} (h : ∀ w, Untouched R w (m' w) (m w.bare)) : Returns depth R m m' := by
  rintro w rfl
  have huntouched := h w
  generalize m w.bare = r at huntouched ⊢
  generalize m' w = r' at huntouched ⊢
  cases huntouched with
  | ok hab hu => exact .ok hab hu
  | error hu => exact .error hu

def nesting (src : Source σ) (depth : Nat) : Simulation src (Extended.silent Nat src) :=
  beside src (Returns depth) Returns.bind returns_of_untouched

theorem guarded_apply (limit : Limit) (run : Eval (Nested σ) α) (w : World (Nested σ)) :
    guarded limit run w =
      if limit.isBeyond w.source.extra then .error limit.failure w else run w := by
  rw [guarded, look_apply]
  split <;> rfl

theorem Returns.nested {limit : Limit} {depth : Nat} {R : α → β → Prop} {m : Eval σ α}
    {run : Eval (Nested σ) β} (hlimit : limit.isBeyond (depth + 1) = false)
    (h : Returns (depth + 1) R m run) : Returns depth R m (Eval.nested (guarded limit run)) := by
  rintro w rfl
  have hmirrors := h (w.adjust (· + 1)) rfl
  have hsame : (w.adjust (· + 1)).bare = w.bare := rfl
  have hadmitted : limit.isBeyond (w.adjust (· + 1)).source.extra = false := hlimit
  rw [hsame] at hmirrors
  simp only [Eval.nested, guarded_apply, hadmitted, Bool.false_eq_true, if_false]
  generalize run (w.adjust (· + 1)) = r at hmirrors
  generalize m w.bare = r' at hmirrors
  cases hmirrors with
  | @ok a b u hab hu => exact .ok (w := u.adjust (· - 1)) hab (Nat.sub_eq_of_eq_add hu)
  | @error f u hu => exact .error (w := u.adjust (· - 1)) (Nat.sub_eq_of_eq_add hu)

theorem returns_refused {limit : Limit} {depth : Nat} {R : α → β → Prop}
    {run : Eval (Nested σ) β} (hlimit : limit.isBeyond (depth + 1) = true) :
    Returns depth R (throw limit.failure : Eval σ α) (Eval.nested (guarded limit run)) := by
  rintro w rfl
  have hrefused : limit.isBeyond (w.adjust (· + 1)).source.extra = true := hlimit
  simp only [Eval.nested, guarded_apply, hrefused]
  exact .error rfl

theorem isBeyond_budget (limit : Limit) {depth k : Nat} (h : depth + (k + 1) = limit.budget) :
    limit.isBeyond (depth + 1) = false := by
  cases limit with
  | atMost max =>
      have hmax : depth + (k + 1) = max := h
      simp only [Limit.isBeyond, decide_eq_false_iff_not]
      omega
  | none => rfl

/-- The counter and what is left of the depth make up the budget. -/
theorem returns_member (src : Source σ) (limit : Limit) {depth k : Nat}
    (h : depth + k = limit.budget) (e : Expr) :
    Returns depth Eq (memberAt src limit k e) (nestedMember src limit k e) := by
  induction k generalizing depth e with
  | zero =>
      cases limit with
      | atMost max =>
          have hmax : depth = max := h
          exact returns_refused (by simp [Limit.isBeyond, hmax])
      | none => exact Returns.nested rfl ((nesting src _).throw _)
  | succ k ih =>
      have hbudget : depth + 1 + k = limit.budget := by omega
      exact Returns.nested (isBeyond_budget limit h)
        ((nesting src (depth + 1)).expr (fun e => ih hbudget e) e)

theorem returns_expr (src : Source σ) (limit : Limit) (e : Expr) :
    Returns 0 Eq (expr src (memberAt src limit limit.budget) e)
      (expr (Extended.silent Nat src) (nestedMember src limit limit.budget) e) :=
  (nesting src 0).expr (fun e => returns_member src limit (Nat.zero_add _) e) e

end Eval

/-! ## Sessions with the counter -/

def Outcome.nested {σ : Type} (o : Outcome σ) : Outcome (Nested σ) where
  result := o.result
  env := o.env
  source := ⟨o.source, 0⟩
  asked := o.asked
  log := o.log

def evaluateNested {σ : Type} (src : Source σ) (limit : Limit) (e : Expr) (env : Environment)
    (source : Nested σ) : Outcome (Nested σ) :=
  Outcome.ofResult env
    (Eval.expr (Extended.silent Nat src) (Eval.nestedMember src limit limit.budget) e
      { env, source })

/-- Evaluation that finds the counter at zero leaves it at zero, also if it fails. -/
theorem evaluateNested_eq {σ : Type} (src : Source σ) (limit : Limit) (e : Expr)
    (env : Environment) (source : σ) :
    evaluateNested src limit e env ⟨source, 0⟩ =
      (evaluate src limit e env source).nested := by
  have hmirrors := Eval.returns_expr src limit e { env, source := ⟨source, 0⟩ } rfl
  rw [evaluate_eq_limited, limited, evaluateNested]
  have hsame : World.bare { env, source := (⟨source, 0⟩ : Nested σ) } =
      { env, source } := rfl
  rw [hsame] at hmirrors
  generalize Eval.expr (Extended.silent Nat src) _ e { env, source := ⟨source, 0⟩ } = r
    at hmirrors ⊢
  generalize Eval.expr src _ e { env, source } = r' at hmirrors ⊢
  cases hmirrors with
  | @ok a b w hab hw =>
      obtain ⟨env', ⟨state, depth⟩, asked, log⟩ := w
      obtain rfl : depth = 0 := hw
      subst hab
      rfl
  | @error f w hw =>
      obtain ⟨env', ⟨state, depth⟩, asked, log⟩ := w
      obtain rfl : depth = 0 := hw
      rfl

namespace Session

variable {σ : Type}

def nested (s : Session σ) : Session (Nested σ) where
  env := s.env
  source := ⟨s.source, 0⟩
  limit := s.limit
  issues := s.issues

def Progress.nested (p : Progress σ) : Progress (Nested σ) where
  env := p.env
  source := ⟨p.source, 0⟩
  outputs := p.outputs
  failure := p.failure
  log := p.log

theorem run_nested (src : Source σ) (limit : Limit) (p : Progress σ) (es : List Expr) :
    run (evaluateNested src limit) p.nested es = (run (evaluate src limit) p es).nested := by
  induction es generalizing p with
  | nil => rfl
  | cons e es ih =>
      have hstep : evaluateNested src limit e p.nested.env p.nested.source =
          (evaluate src limit e p.env p.source).nested := evaluateNested_eq src limit e _ _
      rw [run, run, hstep]
      obtain ⟨result, env, source, asked, log⟩ := evaluate src limit e p.env p.source
      cases result with
      | error f => rfl
      | ok v => exact ih ⟨env, source, p.outputs ++ v.toList, none, p.log ++ log⟩

/-- A session with the counter does what the session without it does, and the counter is at zero
after every document, whether all of its statements were evaluated or one failed. -/
theorem evalBy_nested [Locator] (src : Source σ) (s : Session σ) (file text : Text) :
    evalBy (evaluateNested src) s.nested file text =
      (eval src s file text).map (Prod.map id nested) := by
  rw [eval, evalBy, evalBy]
  cases Document.parse file text with
  | error f => rfl
  | ok d =>
      have hrun : run (evaluateNested src s.nested.limit)
          { env := s.nested.env, source := s.nested.source } d.expressions =
          (run (evaluate src s.limit) { env := s.env, source := s.source } d.expressions).nested :=
        run_nested src s.limit { env := s.env, source := s.source } d.expressions
      simp only [Except.map, hrun, evalDocument]
      rfl

end Session

end PoolProse
