import PoolProse.Proofs.BigStep

/-!
# Coupled evaluations

Two evaluations of one expression go side by side if their worlds are related by a relation that
every step keeps, and the steps find the same in related worlds. Then both end in the same way.
-/
namespace PoolProse

namespace Eval

variable {σ τ : Type} {α β γ δ : Type}

/-- A relation between worlds that every step of evaluation keeps. -/
structure Coupling (src : Source σ) (src' : Source τ) where
  Rel : World σ → World τ → Prop
  look : ∀ {w w'}, Rel w w' → ∀ key, w.env.get? key = w'.env.get? key
  choose : ∀ {w w'}, Rel w w' → ∀ n, (src.choose n w.source).1 = (src'.choose n w'.source).1 ∧
    Rel { w with source := (src.choose n w.source).2, asked := n :: w.asked }
      { w' with source := (src'.choose n w'.source).2, asked := n :: w'.asked }
  put : ∀ {w w'}, Rel w w' → ∀ name pool,
    Rel { w with env := w.env.put name pool } { w' with env := w'.env.put name pool }
  delete : ∀ {w w'}, Rel w w' → ∀ name,
    Rel { w with env := w.env.delete name } { w' with env := w'.env.delete name }
  remove : ∀ {w w'}, Rel w w' → ∀ key i,
    (∃ e env env', w.env.remove key i = .ok (e, env) ∧ w'.env.remove key i = .ok (e, env') ∧
      Rel { w with env } { w' with env := env' }) ∨
    ∃ f, w.env.remove key i = .error f ∧ w'.env.remove key i = .error f
  note : ∀ {w w'}, Rel w w' → ∀ entry,
    Rel { w with log := entry :: w.log } { w' with log := entry :: w'.log }

namespace Coupling

variable {src : Source σ} {src' : Source τ} (C : Coupling src src')

/-- Both computations end in the same way, in related worlds and with answers related by `R`. -/
inductive Ends (R : α → β → Prop) : Ended σ α → Ended τ β → Prop where
  | ok {a : α} {b : β} {w : World σ} {w' : World τ} (h : R a b) (hw : C.Rel w w') :
      Ends R (.ok a w) (.ok b w')
  | error {f : Failure} {w : World σ} {w' : World τ} (hw : C.Rel w w') :
      Ends R (.error f w) (.error f w')

/-- The computations end in the same way wherever their worlds are related. -/
def Couples (R : α → β → Prop) (m : Eval σ α) (m' : Eval τ β) : Prop :=
  ∀ w w', C.Rel w w' → C.Ends R (m w) (m' w')

variable {C}

theorem Couples.bind {R : α → β → Prop} {T : γ → δ → Prop} {m : Eval σ α} {m' : Eval τ β}
    {f : α → Eval σ γ} {f' : β → Eval τ δ} (h : C.Couples R m m')
    (hf : ∀ a b, R a b → C.Couples T (f a) (f' b)) : C.Couples T (m >>= f) (m' >>= f') := by
  intro w w' hw
  rw [bind_apply, bind_apply]
  have hends := h w w' hw
  generalize m w = r at hends ⊢
  generalize m' w' = r' at hends ⊢
  cases hends with
  | ok hab hu => exact hf _ _ hab _ _ hu
  | error hu => exact .error hu

theorem couples_takeOut (key : Text) (pool : Pool) :
    C.Couples Eq (takeOut src key pool) (takeOut src' key pool) := by
  intro w w' hw
  obtain ⟨hanswer, hchosen⟩ := C.choose hw pool.length
  rw [takeOut_apply, takeOut_apply, ← hanswer]
  rcases C.remove hchosen key (src.choose pool.length w.source).1 with
    ⟨e, env, env', he, he', hrel⟩ | ⟨f, hf, hf'⟩
  · simp only [he, he']
    exact .ok rfl hrel
  · simp only [hf, hf']
    exact .error hchosen

variable (C)

/-- Evaluations of all expressions are coupled by a relation that the steps keep. -/
def simulation : Simulation src src' where
  Rel := C.Couples
  pure h _ _ hw := .ok h hw
  throw _ _ _ hw := .error hw
  bind := Couples.bind
  look _ _ hw := .ok (C.look hw) hw
  choose n _ _ hw := .ok (C.choose hw n).1 (C.choose hw n).2
  put name pool _ _ hw := .ok rfl (C.put hw name pool)
  delete name _ _ hw := .ok rfl (C.delete hw name)
  takeOut := couples_takeOut
  note _ _ _ _ hw := .ok rfl (C.note hw _)

theorem couples_memberAt (limit : Limit) (depth : Nat) (e : Expr) :
    C.Couples Eq (memberAt src limit depth e) (memberAt src' limit depth e) := by
  induction depth generalizing e with
  | zero => exact C.simulation.throw _
  | succ depth ih => exact C.simulation.expr ih e

theorem couples_expr (limit : Limit) (depth : Nat) (e : Expr) :
    C.Couples Eq (expr src (memberAt src limit depth) e)
      (expr src' (memberAt src' limit depth) e) :=
  C.simulation.expr (C.couples_memberAt limit depth) e

theorem couples_texts (limit : Limit) (depth : Nat) (es : List Expr) :
    C.Couples Eq (texts (es.map (expr src (memberAt src limit depth))))
      (texts (es.map (expr src' (memberAt src' limit depth)))) := by
  apply C.simulation.texts
  rw [List.forall₂_map_left_iff, List.forall₂_map_right_iff, List.forall₂_same]
  intro e _
  exact C.couples_expr limit depth e

/-- Evaluations that start in related worlds have outcomes of the same kind. -/
theorem evaluate (limit : Limit) (e : Expr) {env env' : Environment} {source : σ} {source' : τ}
    (h : C.Rel { env, source } { env := env', source := source' }) :
    ∃ r r', PoolProse.evaluate src limit e env source = Outcome.ofResult env r ∧
      PoolProse.evaluate src' limit e env' source' = Outcome.ofResult env' r' ∧ C.Ends Eq r r' :=
  ⟨_, _, evaluate_eq_limited src e env source limit, evaluate_eq_limited src' e env' source' limit,
    C.couples_expr limit limit.budget e _ _ h⟩

end Coupling

end Eval

end PoolProse
