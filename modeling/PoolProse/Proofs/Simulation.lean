import PoolProse.Evaluation
import PoolProse.Proofs.RelatedLists

/-!
# Simulations

Evaluation is put together from a few steps. Two ways to evaluate pool members that are related by a
relation which these steps keep make related evaluations of every expression. What holds of all
evaluations is proved by giving the relation and looking at the steps.
-/
namespace PoolProse

namespace Eval

variable {σ τ : Type}

/-- A relation between computations that is kept by every step of evaluation. `Rel R` relates
computations whose answers are to be related by `R`. -/
structure Simulation (src : Source σ) (src' : Source τ) where
  Rel : ∀ {α β : Type}, (α → β → Prop) → Eval σ α → Eval τ β → Prop
  pure : ∀ {α β : Type} {R : α → β → Prop} {a : α} {b : β}, R a b → Rel R (pure a) (pure b)
  throw : ∀ {α β : Type} {R : α → β → Prop} (f : Failure), Rel R (throw f) (throw f)
  bind : ∀ {α β γ δ : Type} {R : α → β → Prop} {T : γ → δ → Prop} {m : Eval σ α} {m' : Eval τ β}
    {f : α → Eval σ γ} {f' : β → Eval τ δ}, Rel R m m' → (∀ a b, R a b → Rel T (f a) (f' b)) →
      Rel T (m >>= f) (m' >>= f')
  /-- The same names are bound to the same pools. -/
  look : Rel (fun (w : World σ) (w' : World τ) => ∀ key, w.env.get? key = w'.env.get? key) get get
  choose : ∀ n, Rel Eq (choose src n) (choose src' n)
  put : ∀ name pool, Rel Eq (update (·.put name pool)) (update (·.put name pool))
  delete : ∀ name, Rel Eq (update (·.delete name)) (update (·.delete name))
  takeOut : ∀ key pool, Rel Eq (takeOut src key pool) (takeOut src' key pool)
  note : ∀ level message, Rel Eq (note level message) (note level message)

namespace Simulation

variable {src : Source σ} {src' : Source τ} (S : Simulation src src')

theorem pick {α β : Type} {R : α → β → Prop} {as : List α} {bs : List β}
    (h : List.Forall₂ R as bs) : S.Rel R (pick src as) (pick src' bs) := by
  unfold Eval.pick
  rw [h.length_eq]
  apply S.bind (S.choose bs.length)
  rintro i _ rfl
  rcases h.getElem?_cases i with ⟨ha, hb⟩ | ⟨a, b, ha, hb, hab⟩
  · rw [ha, hb]
    exact S.throw _
  · rw [ha, hb]
    exact S.pure hab

theorem texts {runs : List (Eval σ Value)} {runs' : List (Eval τ Value)}
    (h : List.Forall₂ (S.Rel Eq) runs runs') : S.Rel Eq (texts runs) (texts runs') := by
  induction h with
  | nil => exact S.pure rfl
  | cons hrun _ ih =>
      apply S.bind hrun
      rintro v _ rfl
      apply S.bind ih
      rintro vs _ rfl
      exact S.pure rfl

theorem perform {runs : List (Eval σ Value)} {runs' : List (Eval τ Value)}
    (h : List.Forall₂ (S.Rel Eq) runs runs') : S.Rel Eq (perform runs) (perform runs') := by
  have hchain : S.Rel Eq (Eval.texts runs >>= fun ts => Pure.pure (some ts.flatten))
      (Eval.texts runs' >>= fun ts => Pure.pure (some ts.flatten)) := by
    apply S.bind (S.texts h)
    rintro ts _ rfl
    exact S.pure rfl
  match h with
  | .nil => exact hchain
  | .cons hrun .nil => exact hrun
  | .cons _ (.cons _ _) => exact hchain

variable {member : Expr → Eval σ Value} {member' : Expr → Eval τ Value}

theorem reference (hmember : ∀ e, S.Rel Eq (member e) (member' e)) {name : Eval σ Value}
    {name' : Eval τ Value} (hname : S.Rel Eq name name') :
    S.Rel Eq (reference src member name) (reference src' member' name') := by
  apply S.bind hname
  rintro v _ rfl
  apply S.bind S.look
  intro w w' hlook
  rw [hlook]
  cases w'.env.get? v.text with
  | none =>
      apply S.bind (S.note _ _)
      rintro _ _ -
      exact S.pure rfl
  | some pool =>
      apply S.bind (S.pick (List.forall₂_same.2 fun _ _ => rfl))
      rintro e _ rfl
      exact hmember e

theorem draw (hmember : ∀ e, S.Rel Eq (member e) (member' e)) {name : Eval σ Value}
    {name' : Eval τ Value} (hname : S.Rel Eq name name') :
    S.Rel Eq (draw src member name) (draw src' member' name') := by
  apply S.bind hname
  rintro v _ rfl
  apply S.bind S.look
  intro w w' hlook
  rw [hlook]
  cases w'.env.get? v.text with
  | none => exact S.throw _
  | some pool =>
      apply S.bind (S.takeOut _ pool)
      rintro e _ rfl
      exact hmember e

theorem bindPool (op : Binding) (name : Text) (items : List Expr) {runs : List (Eval σ Value)}
    {runs' : List (Eval τ Value)} (h : List.Forall₂ (S.Rel Eq) runs runs') :
    S.Rel Eq (bindPool src op name items runs) (bindPool src' op name items runs') := by
  have hempty : runs.isEmpty = runs'.isEmpty := by cases h <;> rfl
  have hdone : ∀ {m : Eval σ Unit} {m' : Eval τ Unit}, S.Rel Eq m m' →
      S.Rel (Eq (α := Value)) (m >>= fun _ => Pure.pure none) (m' >>= fun _ => Pure.pure none) :=
    fun hm => S.bind hm fun _ _ _ => S.pure rfl
  cases op with
  | define => exact hdone (S.put name items)
  | defineEval =>
      apply S.bind (S.texts h)
      rintro ts _ rfl
      exact hdone (S.put name _)
  | select =>
      by_cases hitems : items.isEmpty = true
      · simp only [Eval.bindPool, hitems, if_true]
        exact hdone (S.delete name)
      · simp only [Eval.bindPool, hitems]
        apply S.bind (S.pick (List.forall₂_same.2 fun _ _ => rfl))
        rintro e _ rfl
        exact hdone (S.put name _)
  | selectEval =>
      by_cases hruns : runs'.isEmpty = true
      · simp only [Eval.bindPool, hempty, hruns, if_true]
        exact hdone (S.delete name)
      · simp only [Eval.bindPool, hempty, hruns]
        apply S.bind (S.pick h)
        intro run run' hrun
        apply S.bind hrun
        rintro v _ rfl
        exact hdone (S.put name _)

mutual

theorem operandRuns (hmember : ∀ e, S.Rel Eq (member e) (member' e)) (e : Expr) :
    List.Forall₂ (S.Rel Eq) (operandRuns src member e) (operandRuns src' member' e) := by
  cases e with
  | lit t => exact .cons (S.pure rfl) .nil
  | mix l r =>
      have hright := S.perform (operandRuns hmember r)
      exact List.rel_append (operandRuns hmember l) (.cons hright .nil)
  | ref name => exact .cons (S.reference hmember (S.perform (operandRuns hmember name))) .nil
  | draw name => exact .cons (S.draw hmember (S.perform (operandRuns hmember name))) .nil
  | bind op name items => exact .cons (S.bindPool op name items (itemRuns hmember items)) .nil
  | missing => exact .cons (S.throw _) .nil

theorem itemRuns (hmember : ∀ e, S.Rel Eq (member e) (member' e)) (es : List Expr) :
    List.Forall₂ (S.Rel Eq) (itemRuns src member es) (itemRuns src' member' es) := by
  cases es with
  | nil => exact .nil
  | cons e es => exact .cons (S.perform (operandRuns hmember e)) (itemRuns hmember es)

end

/-- Related evaluations of pool members make related evaluations of expressions. -/
theorem expr (hmember : ∀ e, S.Rel Eq (member e) (member' e)) (e : Expr) :
    S.Rel Eq (expr src member e) (expr src' member' e) :=
  S.perform (S.operandRuns hmember e)

end Simulation

end Eval

end PoolProse
