import PoolProse.Proofs.Coupling
import PoolProse.Proofs.NormalForm
import PoolProse.Proofs.SameBindings

/-!
# Grouping

The operands of a chain of mixes are collected on the way down its left side, the last one first,
and then evaluated in a loop that starts at the end of the collection. That comes to evaluating one
side of the mix, then the other, and putting their texts together. So it does not matter how the
parts of a text are grouped.
-/
namespace PoolProse

/-! ## Trees of mixes -/

namespace Expr

theorem mixed_of_isMix {e : Expr} (h : e.isMix = false) : e.mixed = [e] := by
  cases e with
  | mix l r => cases h
  | _ => rfl

/-- A property of expressions holds if it holds of all that are no mixes, and of a mix whenever it
holds of both sides. -/
@[elab_as_elim]
theorem mixed_induction {P : Expr → Prop} (leaf : ∀ e, e.isMix = false → P e)
    (mix : ∀ l r, P l → P r → P (.mix l r)) (e : Expr) : P e := by
  cases e with
  | mix l r => exact mix l r (mixed_induction leaf mix l) (mixed_induction leaf mix r)
  | _ => exact leaf _ rfl

theorem mixed_ne_nil (e : Expr) : e.mixed ≠ [] := by
  induction e using mixed_induction with
  | leaf e he => simp [mixed_of_isMix he]
  | mix l r hl hr => simp [mixed, hl]

theorem eq_of_mixed_eq_singleton {e f : Expr} (h : e.mixed = [f]) : e = f := by
  cases e with
  | mix l r =>
      have hl := List.length_pos_iff.2 (mixed_ne_nil l)
      have hr := List.length_pos_iff.2 (mixed_ne_nil r)
      have hlength := congrArg List.length h
      simp only [mixed, List.length_append, List.length_singleton] at hlength
      omega
  | _ => exact List.singleton_inj.1 h

/-- The operands as a walk down the left side of a chain meets them, the last one first. -/
def collect (met : List Expr) : Expr → List Expr
  | .mix l r => collect (met ++ [r]) l
  | e => met ++ [e]

theorem collect_eq (met : List Expr) (e : Expr) : collect met e = met ++ e.operands.reverse := by
  cases e with
  | mix l r =>
      rw [collect, collect_eq, operands, List.reverse_append, List.append_assoc]
      rfl
  | _ => rfl

theorem collect_mix (l r : Expr) : collect [r] l = (operands (.mix l r)).reverse := by
  rw [collect_eq, operands, List.reverse_append]
  rfl

theorem sizeOf_collect_lt {l r o : Expr} (ho : o ∈ collect [r] l) :
    sizeOf o < sizeOf (mix l r) := by
  rw [collect_mix, List.mem_reverse] at ho
  exact sizeOf_mix_lt (sizeOf_operand_le l) ho

end Expr

namespace Eval

variable {σ : Type} (src : Source σ) (member : Expr → Eval σ Value)

/-! ## The loop over a chain -/

/-- Makes the evaluations from the last one back to the first and writes down each text after those
before it. -/
def writeBack (runs : List (Eval σ Value)) (written : Text) : Eval σ Text :=
  runs.foldrM (fun run written => do
    let v ← run
    pure (written ++ v.text)) written

theorem writeBack_reverse (runs : List (Eval σ Value)) (written : Text) :
    writeBack runs.reverse written = texts runs >>= fun ts => pure (written ++ ts.flatten) := by
  rw [writeBack, List.foldrM_reverse]
  induction runs generalizing written with
  | nil => simp [texts]
  | cons run runs ih =>
      simp only [List.foldlM_cons, texts, bind_assoc, pure_bind, ih, List.flatten_cons,
        List.append_assoc]

/-- Evaluation with a loop for chains: the operands are collected from the last to the first, and
the collection is gone through backwards. -/
def looped : Expr → Eval σ Value
  | .lit t => pure (some t)
  | .mix l r => do
    let written ← writeBack ((Expr.collect [r] l).attach.map fun o => looped o.1) []
    pure (some written)
  | .ref name => reference src member (looped name)
  | .draw name => draw src member (looped name)
  | .bind op name items => bindPool src op name items (items.map fun e => looped e)
  | .missing => throw (.fault .unhandledExpression)
termination_by e => sizeOf e
decreasing_by
  · exact Expr.sizeOf_collect_lt o.2
  · simp
  · simp
  · have hlt := List.sizeOf_lt_of_mem ‹_›
    rw [Expr.bind.sizeOf_spec]
    omega

theorem looped_eq_expr (e : Expr) : looped src member e = expr src member e := by
  induction e using Expr.operand_induction with
  | lit t => rw [looped]; rfl
  | missing => rw [looped]; rfl
  | ref name ih => rw [looped, ih]; rfl
  | draw name ih => rw [looped, ih]; rfl
  | bind op name items ih => rw [looped, expr_bind, List.map_congr_left ih]
  | mix l r ih =>
      have hruns : ((Expr.collect [r] l).attach.map fun o => looped src member o.1) =
          ((Expr.operands (.mix l r)).map (expr src member)).reverse := by
        rw [List.attach_map_val, ← List.map_reverse, ← Expr.collect_mix]
        apply List.map_congr_left
        intro o ho
        rw [Expr.collect_mix, List.mem_reverse] at ho
        exact ih o ho
      rw [looped, hruns, writeBack_reverse, expr_mix, bind_assoc]
      simp only [pure_bind, List.nil_append]

/-! ## One side after the other -/

def inTurn (first second : Eval σ Value) : Eval σ Value := do
  let v ← first
  let v' ← second
  pure (some (v.text ++ v'.text))

theorem texts_append (runs runs' : List (Eval σ Value)) :
    texts (runs ++ runs') =
      texts runs >>= fun ts => texts runs' >>= fun ts' => pure (ts ++ ts') := by
  induction runs with
  | nil => simp [texts]
  | cons run runs ih => simp [texts, ih]

theorem flatten_texts_operands (e : Expr) :
    (texts (e.operands.map (expr src member)) >>= fun ts => pure ts.flatten) =
      expr src member e >>= fun v => pure v.text := by
  cases e with
  | mix l r => simp [expr_mix, Value.text]
  | _ => simp [Expr.operands, texts]

theorem expr_mix_eq_inTurn (l r : Expr) :
    expr src member (.mix l r) = inTurn (expr src member l) (expr src member r) := by
  let append (t : Text) : Eval σ Value := expr src member r >>= fun v => pure (some (t ++ v.text))
  calc expr src member (.mix l r)
      = texts (l.operands.map (expr src member)) >>= fun ts => append ts.flatten := by
        rw [expr_mix, Expr.operands, List.map_append, texts_append]
        simp [append, texts]
    _ = (texts (l.operands.map (expr src member)) >>= fun ts => pure ts.flatten) >>= append := by
        simp
    _ = (expr src member l >>= fun v => pure v.text) >>= append := by
        rw [flatten_texts_operands]
    _ = inTurn (expr src member l) (expr src member r) := by
        simp [append, inTurn]

theorem flatten_texts_mixed (e : Expr) :
    (texts (e.mixed.map (expr src member)) >>= fun ts => pure ts.flatten) =
      expr src member e >>= fun v => pure v.text := by
  induction e using Expr.mixed_induction with
  | leaf e he => simp [Expr.mixed_of_isMix he, texts]
  | mix l r hl hr =>
      let append (run : Eval σ Text) (t : Text) : Eval σ Text := run >>= fun t' => pure (t ++ t')
      calc (texts ((Expr.mixed (.mix l r)).map (expr src member)) >>= fun ts => pure ts.flatten)
          = (texts (l.mixed.map (expr src member)) >>= fun ts => pure ts.flatten) >>=
              append (texts (r.mixed.map (expr src member)) >>= fun ts => pure ts.flatten) := by
            simp [Expr.mixed, texts_append, append]
        _ = (expr src member l >>= fun v => pure v.text) >>=
              append (expr src member r >>= fun v => pure v.text) := by
            rw [hl, hr]
        _ = expr src member (.mix l r) >>= fun v => pure v.text := by
            simp [expr_mix_eq_inTurn, inTurn, append, Value.text]

/-- A mix is evaluated by what it mixes, however that is grouped. -/
theorem expr_of_isMix {e : Expr} (he : e.isMix = true) :
    expr src member e =
      texts (e.mixed.map (expr src member)) >>= fun ts => pure (some ts.flatten) := by
  cases e with
  | mix l r =>
      calc expr src member (.mix l r)
          = (expr src member (.mix l r) >>= fun v => pure v.text) >>= fun t => pure (some t) := by
            simp [expr_mix_eq_inTurn, inTurn, Value.text]
        _ = _ := by
            rw [← flatten_texts_mixed]
            simp
  | _ => cases he

theorem expr_eq_of_mixed_eq {e e' : Expr} (h : e.mixed = e'.mixed) :
    expr src member e = expr src member e' := by
  cases he : e.isMix with
  | false =>
      rw [Expr.mixed_of_isMix he] at h
      rw [Expr.eq_of_mixed_eq_singleton h.symm]
  | true =>
      cases he' : e'.isMix with
      | false =>
          rw [Expr.mixed_of_isMix he'] at h
          rw [Expr.eq_of_mixed_eq_singleton h]
      | true => rw [expr_of_isMix src member he, expr_of_isMix src member he', h]

/-! ## Outcomes one after the other -/

/-- Choices and log entries that were made before have no influence. -/
def resuming (asked : List Nat) (log : Log) : Coupling src src where
  Rel w w' := w' = { w with asked := w.asked ++ asked, log := w.log ++ log }
  look := by
    rintro w _ rfl key
    rfl
  choose := by
    rintro w _ rfl n
    exact ⟨rfl, rfl⟩
  put := by
    rintro w _ rfl name pool
    rfl
  delete := by
    rintro w _ rfl name
    rfl
  remove := by
    rintro w _ rfl key i
    cases w.env.remove key i with
    | ok taken => exact Or.inl ⟨taken.1, taken.2, taken.2, rfl, rfl, rfl⟩
    | error f => exact Or.inr ⟨f, rfl, rfl⟩
  note := by
    rintro w _ rfl entry
    rfl

end Eval

/-- The outcome of an evaluation that is followed by another one if it does not fail, with the texts
of both put together. A failure of either leaves the environment `env` that both started from. -/
def Outcome.inTurn {σ : Type} (env : Environment) (o : Outcome σ)
    (next : Environment → σ → Outcome σ) : Outcome σ :=
  match o.result with
  | .error f => ⟨.error f, env, o.source, o.asked, o.log⟩
  | .ok v =>
    let o' := next o.env o.source
    match o'.result with
    | .error f => ⟨.error f, env, o'.source, o.asked ++ o'.asked, o.log ++ o'.log⟩
    | .ok v' =>
      ⟨.ok (some (v.text ++ v'.text)), o'.env, o'.source, o.asked ++ o'.asked, o.log ++ o'.log⟩

section

variable {σ : Type} (src : Source σ) (limit : Limit)

theorem evaluate_mix (l r : Expr) (env : Environment) (source : σ) :
    evaluate src limit (.mix l r) env source =
      (evaluate src limit l env source).inTurn env (evaluate src limit r) := by
  let member := Eval.memberAt src limit limit.budget
  have hresult : ∀ e env source, evaluate src limit e env source =
      Outcome.ofResult env (Eval.expr src member e { env, source }) :=
    fun e env source => evaluate_eq_limited src e env source limit
  rw [hresult, hresult, Eval.expr_mix_eq_inTurn, Eval.inTurn, Eval.bind_apply]
  cases hl : Eval.expr src member l { env, source } with
  | error f u => rfl
  | ok v u =>
      have hends := (Eval.resuming src u.asked u.log).couples_expr limit limit.budget r
        { env := u.env, source := u.source } u rfl
      simp only [Outcome.ofResult, Outcome.inTurn, hresult]
      rw [Eval.bind_apply]
      generalize Eval.expr src member r { env := u.env, source := u.source } = r₁ at hends ⊢
      generalize Eval.expr src member r u = r₂ at hends ⊢
      cases hends with
      | ok hv hw =>
          subst hv hw
          simp [pure, EStateM.pure]
      | error hw =>
          subst hw
          simp

theorem evaluate_eq_of_mixed_eq {e e' : Expr} (h : e.mixed = e'.mixed) (env : Environment)
    (source : σ) : evaluate src limit e env source = evaluate src limit e' env source := by
  rw [evaluate_eq_limited, evaluate_eq_limited, limited, limited, Eval.expr_eq_of_mixed_eq _ _ h]

end

/-! ## A mix as a row of statements -/

namespace Session.Steps

variable {σ : Type} {src : Source σ} {limit : Limit} {env env' : Environment} {source source' : σ}
  {values : List Value} {log : Log}

theorem of_append {es es' : List Expr}
    (h : Steps src limit env source (es ++ es') values log env' source') :
    ∃ vs vs' logs logs' mid source₁, values = vs ++ vs' ∧ log = logs ++ logs' ∧
      Steps src limit env source es vs logs mid source₁ ∧
      Steps src limit mid source₁ es' vs' logs' env' source' := by
  induction es generalizing env source values log with
  | nil => exact ⟨[], values, [], log, env, source, rfl, rfl, .nil, h⟩
  | cons e es ih =>
      cases h with
      | cons he hrest =>
          obtain ⟨vs, vs', logs, logs', mid, source₁, rfl, rfl, hfirst, hsecond⟩ := ih hrest
          exact ⟨_ :: vs, vs', _ ++ logs, logs', mid, source₁, rfl, (List.append_assoc ..).symm,
            .cons he hfirst, hsecond⟩

theorem evaluate_mixed {e : Expr}
    (h : Steps src limit env source e.mixed values log env' source') :
    ∃ v asked, evaluate src limit e env source = ⟨.ok v, env', source', asked, log⟩ ∧
      v.text = (values.map Value.text).flatten ∧ (v = none → values = [none]) := by
  induction e using Expr.mixed_induction generalizing env source values log env' source' with
  | leaf e he =>
      rw [Expr.mixed_of_isMix he] at h
      cases h with
      | @cons _ _ _ _ _ _ _ _ v _ asked _ _ he hrest =>
          cases hrest
          exact ⟨v, asked, by rw [he, List.append_nil], by simp, by rintro rfl; rfl⟩
  | mix l r hl hr =>
      obtain ⟨vs, vs', logs, logs', mid, source₁, rfl, rfl, hfirst, hsecond⟩ := of_append h
      obtain ⟨v, asked, hv, htext, -⟩ := hl hfirst
      obtain ⟨v', asked', hv', htext', -⟩ := hr hsecond
      refine ⟨some (v.text ++ v'.text), asked ++ asked', ?_, ?_, nofun⟩
      · rw [evaluate_mix, hv]
        simp only [Outcome.inTurn, hv']
      · rw [List.map_append, List.flatten_append, ← htext, ← htext']
        rfl

theorem evaluate_mixed_error {e o : Expr} {before after : List Expr} {f : Failure}
    (hmixed : e.mixed = before ++ o :: after)
    (h : Steps src limit env source before values log env' source')
    (hf : (evaluate src limit o env' source').result = .error f) :
    (evaluate src limit e env source).result = .error f := by
  induction e using Expr.mixed_induction generalizing env source values log env' source' before
    after with
  | leaf e he =>
      rw [Expr.mixed_of_isMix he] at hmixed
      cases before with
      | nil =>
          obtain ⟨rfl, -⟩ := List.cons.inj hmixed
          cases h
          exact hf
      | cons b before => simp at hmixed
  | mix l r hl hr =>
      rw [evaluate_mix]
      -- the left side is over when what fails is met
      have hright : ∀ rest, before = l.mixed ++ rest → r.mixed = rest ++ o :: after →
          ((evaluate src limit l env source).inTurn env (evaluate src limit r)).result =
            .error f := by
        rintro rest rfl hrest
        obtain ⟨vs, vs', logs, logs', mid, source₁, rfl, rfl, hfirst, hsecond⟩ := of_append h
        obtain ⟨v, asked, hv, -⟩ := evaluate_mixed hfirst
        rw [hv]
        simp only [Outcome.inTurn, hr hrest hsecond hf]
      rcases List.append_eq_append_iff.1 hmixed with ⟨rest, hbefore, hrest⟩ | ⟨rest, hleft, hafter⟩
      · exact hright rest hbefore hrest
      · cases rest with
        | nil =>
            rw [List.append_nil] at hleft
            exact hright [] (by rw [hleft, List.append_nil]) hafter.symm
        | cons o' rest =>
            obtain ⟨rfl, -⟩ := List.cons.inj hafter
            simp only [Outcome.inTurn, hl hleft h hf]

end Session.Steps

/-- The loop over a chain of mixes does what a walk through the tree does. A mix is evaluated,
wherever it stands and however deep, by evaluating its left side, then its right side in the world
that the left side leaves, and putting their texts together: the choices and log entries of the
second follow those of the first, and the first failure is that of the whole. So trees that mix the
same from left to right are evaluated alike, however they are grouped. -/
theorem evaluate_grouping {σ : Type} (src : Source σ) (limit : Limit) :
    (∀ depth e, Eval.looped src (Eval.memberAt src limit depth) e =
      Eval.expr src (Eval.memberAt src limit depth) e) ∧
    (∀ depth l r, Eval.expr src (Eval.memberAt src limit depth) (.mix l r) =
      Eval.inTurn (Eval.expr src (Eval.memberAt src limit depth) l)
        (Eval.expr src (Eval.memberAt src limit depth) r)) ∧
    (∀ l r env source, evaluate src limit (.mix l r) env source =
      (evaluate src limit l env source).inTurn env (evaluate src limit r)) ∧
    ∀ e e' : Expr, e.mixed = e'.mixed →
      (∀ depth, Eval.expr src (Eval.memberAt src limit depth) e =
        Eval.expr src (Eval.memberAt src limit depth) e') ∧
      ∀ env source, evaluate src limit e env source = evaluate src limit e' env source :=
  ⟨fun _ => Eval.looped_eq_expr src _, fun _ => Eval.expr_mix_eq_inTurn src _,
    evaluate_mix src limit,
    fun _ _ h => ⟨fun _ => Eval.expr_eq_of_mixed_eq src _ h, evaluate_eq_of_mixed_eq src limit h⟩⟩

/-- A pool is bound, referred to and drawn from inside one text. With the binding grouped to either
side the text is the same, and the pool is gone. -/
theorem evaluate_grouping_pet :
    ∃ (src : Source Unit) (left right : Expr), left.mixed = right.mixed ∧ left ≠ right ∧
      (evaluate src (.atMost 9) left .empty ()).result = .ok (some (utf8 "catcat")) ∧
      (evaluate src (.atMost 9) right .empty ()).result = .ok (some (utf8 "catcat")) ∧
      (evaluate src (.atMost 9) right .empty ()).env.get? (utf8 "pet") = none := by
  let src : Source Unit := ⟨fun _ s => (0, s)⟩
  let pool : Pool := [.lit (utf8 "cat")]
  let bound : Expr := .bind .define (utf8 "pet") pool
  let named : Expr := .ref (.lit (utf8 "pet"))
  let drawn : Expr := .draw (.lit (utf8 "pet"))
  let left : Expr := .mix (.mix bound named) drawn
  let right : Expr := .mix bound (.mix named drawn)
  let env := Environment.empty.put (utf8 "pet") pool
  have henv : env.Sound := Environment.sound_empty.put _ _
  have hpet : env.get? (utf8 "pet") = some pool := by
    rw [Environment.sound_empty.get?_put, if_pos rfl, if_neg (List.cons_ne_nil _ _)]
  have htake : Eval.takeOut src (utf8 "pet") pool { env, source := (), asked := [1] } =
      .ok (.lit (utf8 "cat"))
        { env := env.put (utf8 "pet") [], source := (), asked := [1, 1] } := by
    rw [Eval.takeOut_apply, Environment.remove_of_get? hpet]
    rfl
  have hrun : Eval.Evaluates src (.atMost 9) 0 left { env := .empty, source := () } _ _ :=
    .mix (.cons .define (.cons (.ref .lit hpet rfl (.within rfl .lit))
      (.cons (.draw .lit hpet htake (.within rfl .lit)) .nil)))
  have hvalue : (evaluate src (.atMost 9) left .empty ()).result = .ok (some (utf8 "catcat")) := by
    rw [hrun.evaluate_eq]
    rfl
  have hgone : (evaluate src (.atMost 9) left .empty ()).env.get? (utf8 "pet") = none := by
    rw [hrun.evaluate_eq]
    exact henv.get?_put (utf8 "pet") (utf8 "pet") []
  have hne : left ≠ right := fun h => by cases (Expr.mix.inj h).1
  obtain ⟨-, -, -, hgroups⟩ := evaluate_grouping src (.atMost 9)
  have hsame := (hgroups left right rfl).2 .empty ()
  exact ⟨src, left, right, rfl, hne, hvalue, hsame ▸ hvalue, hsame ▸ hgone⟩

end PoolProse
