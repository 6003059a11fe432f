import PoolProse.Proofs.BigStep
import PoolProse.Proofs.PlainPools

/-!
# A fault undoes its statement

A statement that fails has no effect but for the choices that it made and what it logged. Its
document ends with it, and the session goes on as if the document had ended before it.
-/
namespace PoolProse

/-! ## The choices that were made -/

/-- The state of a source after it was asked for numbers below each of the bounds in turn. -/
def Source.advance {σ : Type} (src : Source σ) (s : σ) (bounds : List Nat) : σ :=
  bounds.foldl (fun s n => (src.choose n s).2) s

namespace Eval

variable {σ : Type} {α β γ δ : Type} {src : Source σ}

/-- The source has made the choices that were asked for since, and no others. -/
def Advances (src : Source σ) (w u : World σ) : Prop :=
  ∃ bounds, u.asked = bounds.reverse ++ w.asked ∧ u.source = src.advance w.source bounds

theorem advances_of_eq {w u : World σ} (hasked : u.asked = w.asked)
    (hsource : u.source = w.source) : Advances src w u :=
  ⟨[], hasked, hsource⟩

theorem Advances.trans {w u v : World σ} (h : Advances src w u) (h' : Advances src u v) :
    Advances src w v := by
  obtain ⟨bounds, hasked, hsource⟩ := h
  obtain ⟨bounds', hasked', hsource'⟩ := h'
  refine ⟨bounds ++ bounds', ?_, ?_⟩
  · rw [hasked', hasked, List.reverse_append, List.append_assoc]
  · rw [hsource', hsource, Source.advance, Source.advance, Source.advance, List.foldl_append]

/-- However a computation ends, the source has made the choices that it asked for. An answer is
related to something by `R`. -/
structure Spends (src : Source σ) (R : α → β → Prop) (m : Eval σ β) : Prop where
  answer : ∀ {w b u}, m w = .ok b u → ∃ a, R a b
  advances : ∀ w, Advances src w (left (m w))

theorem Spends.bind {R : α → β → Prop} {T : γ → δ → Prop} {m : Eval σ β}
    {f : β → Eval σ δ} (h : Spends src R m) (hf : ∀ a b, R a b → Spends src T (f b)) :
    Spends src T (m >>= f) where
  answer := by
    intro w c v hc
    rw [bind_apply] at hc
    cases hm : m w with
    | error e u => rw [hm] at hc; cases hc
    | ok b u =>
        rw [hm] at hc
        obtain ⟨a, hab⟩ := h.answer hm
        exact (hf a b hab).answer hc
  advances := by
    intro w
    rw [bind_apply]
    have hadvances := h.advances w
    cases hm : m w with
    | error e u => rwa [hm] at hadvances
    | ok b u =>
        rw [hm] at hadvances
        obtain ⟨a, hab⟩ := h.answer hm
        exact hadvances.trans ((hf a b hab).advances u)

theorem spends_of_ok {R : α → β → Prop} {m : Eval σ β}
    (h : ∀ w, ∃ b u, m w = .ok b u ∧ (∃ a, R a b) ∧ Advances src w u) : Spends src R m where
  answer := by
    intro w b u hb
    obtain ⟨b', u', hm, hanswer, -⟩ := h w
    rw [hm] at hb
    obtain ⟨rfl, -⟩ := EStateM.Result.ok.inj hb
    exact hanswer
  advances := by
    intro w
    obtain ⟨b, u, hm, -, hadvances⟩ := h w
    rwa [hm]

theorem spends_throw {R : α → β → Prop} (f : Failure) : Spends src R (throw f : Eval σ β) where
  answer h := by cases h
  advances _ := advances_of_eq rfl rfl

/-- Of two computations the second is looked at, the first is the same. -/
def spending (src : Source σ) : Simulation src src where
  Rel R _ m := Spends src R m
  pure h := spends_of_ok fun w => ⟨_, w, rfl, ⟨_, h⟩, advances_of_eq rfl rfl⟩
  throw f := spends_throw f
  bind h hf := h.bind hf
  look := spends_of_ok fun w => ⟨_, w, rfl, ⟨w, fun _ => rfl⟩, advances_of_eq rfl rfl⟩
  choose n := spends_of_ok fun w => ⟨_, _, rfl, ⟨_, rfl⟩, [n], rfl, rfl⟩
  put _ _ := spends_of_ok fun w => ⟨_, _, rfl, ⟨_, rfl⟩, advances_of_eq rfl rfl⟩
  delete _ := spends_of_ok fun w => ⟨_, _, rfl, ⟨_, rfl⟩, advances_of_eq rfl rfl⟩
  takeOut key pool := by
    refine ⟨fun {w b u} _ => ⟨b, rfl⟩, fun w => ?_⟩
    rw [takeOut_apply]
    cases w.env.remove key (src.choose pool.length w.source).1 with
    | ok taken => exact ⟨[pool.length], rfl, rfl⟩
    | error f => exact ⟨[pool.length], rfl, rfl⟩
  note _ _ := spends_of_ok fun w => ⟨_, _, rfl, ⟨_, rfl⟩, advances_of_eq rfl rfl⟩

theorem spends_expr {member : Expr → Eval σ Value}
    (h : ∀ e, Spends src (Eq : Value → Value → Prop) (member e)) (e : Expr) :
    Spends src (Eq : Value → Value → Prop) (expr src member e) :=
  @Simulation.expr σ σ src src (spending src) member member h e

theorem spends_memberAt (src : Source σ) (limit : Limit) (depth : Nat) (e : Expr) :
    Spends src (Eq : Value → Value → Prop) (memberAt src limit depth e) := by
  induction depth generalizing e with
  | zero => exact spends_throw _
  | succ depth ih => exact spends_expr ih e

/-! ## Bindings have no value -/

theorem ok_of_bind {m : Eval σ α} {f : α → Eval σ β} {w v : World σ} {b : β}
    (h : (m >>= f) w = .ok b v) : ∃ a u, m w = .ok a u ∧ f a u = .ok b v := by
  rw [bind_apply] at h
  cases hm : m w with
  | error e u => rw [hm] at h; cases h
  | ok a u =>
      rw [hm] at h
      exact ⟨a, u, rfl, h⟩

theorem bindPool_value {op : Binding} {name : Text} {items : List Expr}
    {runs : List (Eval σ Value)} {w u : World σ} {v : Value}
    (h : bindPool src op name items runs w = .ok v u) : v = none := by
  have hdone : ∀ {m : Eval σ Unit} {w : World σ},
      (m >>= fun _ => pure none : Eval σ Value) w = .ok v u → v = none := by
    intro m w h
    obtain ⟨_, _, -, h⟩ := ok_of_bind h
    exact (EStateM.Result.ok.inj h).1.symm
  cases op with
  | define => exact hdone h
  | defineEval =>
      obtain ⟨ts, w, -, h⟩ := ok_of_bind h
      exact hdone h
  | select =>
      cases items with
      | nil => exact hdone h
      | cons e es =>
          obtain ⟨e, w, -, h⟩ := ok_of_bind h
          exact hdone h
  | selectEval =>
      cases runs with
      | nil => exact hdone h
      | cons run runs =>
          obtain ⟨run, w, -, h⟩ := ok_of_bind h
          obtain ⟨v', w, -, h⟩ := ok_of_bind h
          exact hdone h

end Eval

section

variable {σ : Type} {src : Source σ} {limit : Limit} {e : Expr} {env : Environment} {source : σ}

/-- Evaluation leaves the source behind the choices that it asked for. -/
theorem evaluate_source (src : Source σ) (limit : Limit) (e : Expr) (env : Environment)
    (source : σ) :
    (evaluate src limit e env source).source =
      src.advance source (evaluate src limit e env source).asked := by
  have hspends := Eval.spends_expr (Eval.spends_memberAt src limit limit.budget) e
  obtain ⟨bounds, hasked, hsource⟩ := hspends.advances { env, source }
  rw [evaluate_eq_limited, limited]
  generalize Eval.expr src (Eval.memberAt src limit limit.budget) e { env, source } = r
    at hasked hsource
  have hbounds : (Outcome.ofResult env r).asked = bounds := by
    rw [List.append_nil] at hasked
    cases r <;> exact (congrArg List.reverse hasked).trans (List.reverse_reverse bounds)
  rw [hbounds, Outcome.ofResult_source, hsource]

theorem evaluate_binding (hbinding : e.isBinding = true) {v : Value}
    (h : (evaluate src limit e env source).result = .ok v) : v = none := by
  cases e with
  | bind op name items =>
      rw [evaluate_eq_limited, limited] at h
      cases hr : Eval.expr src (Eval.memberAt src limit limit.budget) (.bind op name items)
          { env, source } with
      | error f w => rw [hr] at h; cases h
      | ok v' w =>
          rw [hr] at h
          obtain rfl := Except.ok.inj h
          exact Eval.bindPool_value hr
  | _ => cases hbinding

theorem Session.Steps.bindings {es : List Expr} {values : List Value} {log : Log}
    {env' : Environment} {source' : σ}
    (h : Session.Steps src limit env source es values log env' source') :
    List.Forall₂ (fun e v => e.isBinding = true → v = none) es values := by
  induction h with
  | nil => exact .nil
  | cons he _ ih => exact .cons (fun hbinding => evaluate_binding hbinding (by rw [he])) ih

end

/-! ## Documents with a fault -/

namespace Session

variable {σ : Type} {src : Source σ}

/-- What a session does next depends on its environment, its source and its limit. -/
theorem eval_congr [Locator] {s t : Session σ} (henv : s.env = t.env)
    (hsource : s.source = t.source) (hlimit : s.limit = t.limit) (file text : Text) :
    eval src s file text = eval src t file text := by
  obtain ⟨env, source, limit, issues⟩ := s
  obtain ⟨env', source', limit', issues'⟩ := t
  obtain rfl : env = env' := henv
  obtain rfl : source = source' := hsource
  obtain rfl : limit = limit' := hlimit
  rfl

/-- A fault is atomic. The statement `e`, the first of its document to fail, leaves the environment
of the statements before it, and their values are the outputs. It only takes the choices that it
made from the source and adds what it logged, and no later statement is evaluated. The session goes
on as after any document that ends before `e`, but for these choices, and the nesting counter is
back at zero. -/
theorem eval_fault_atomic [Locator] (src : Source σ) (s : Session σ) (file text : Text)
    {d : Document} (hd : Document.parse file text = .ok d) {before after : List Expr} {e : Expr}
    (hexpr : d.expressions = before ++ e :: after) {values : List Value} {log : Log}
    {env : Environment} {source : σ}
    (hbefore : Steps src s.limit s.env s.source before values log env source) {f : Failure}
    (hfault : (evaluate src s.limit e env source).result = .error f) :
    ∃ report s', eval src s file text = .ok (report, s') ∧
      report.failure = some f ∧ report.outputs = values.reduceOption ∧
      List.Forall₂ (fun e v => e.isBinding = true → v = none) before values ∧
      (∀ depth, src.Lawful → Reached src s → s.limit = .atMost depth →
        List.Forall₂ (fun e v => v.isSome = !e.isBinding) before values) ∧
      s'.env = env ∧ s'.limit = s.limit ∧ s'.issues = d.issues ∧
      s'.source = src.advance source (evaluate src s.limit e env source).asked ∧
      report.log = d.issues.map (fun i => i.toIssue.toLogEntry) ++
        (log ++ (evaluate src s.limit e env source).log) ∧
      (∀ d₀ : Document, d₀.expressions = before →
        ∃ report₀ s₀, evalDocument (evaluate src) s d₀ = (report₀, s₀) ∧ report₀.failure = none ∧
          report₀.outputs = report.outputs ∧ s₀.env = s'.env ∧ s₀.source = source ∧
          ∀ file' text', eval src s' file' text' =
            eval src { s₀ with source := s'.source } file' text') ∧
      evalBy (evaluateNested src) s.nested file text = .ok (report, s'.nested) ∧
      ∀ file' text', evalBy (evaluateNested src) s'.nested file' text' =
        (eval src s' file' text').map (Prod.map id nested) := by
  have heval : eval src s file text = .ok (evalDocument (evaluate src) s d) := eval_of_parse hd
  rw [hbefore.evalDocument_error hexpr hfault] at heval
  refine ⟨_, _, heval, rfl, rfl, hbefore.bindings, ?_, rfl, rfl, rfl,
    evaluate_source src s.limit e env source, rfl, ?_, ?_, evalBy_nested src _⟩
  · intro depth hsrc hs hlimit
    have hplain := hs.plain hsrc hlimit
    have hstated := stated_of_mem_expressions hd
    refine ((hlimit ▸ hbefore).plain hsrc ?_ hplain).2
    intro e he
    exact hstated e (by simp [hexpr, he])
  · intro d₀ hd₀
    subst hd₀
    exact ⟨_, _, hbefore.evalDocument, rfl, rfl, rfl, rfl, eval_congr rfl rfl rfl⟩
  · rw [evalBy_nested, heval]
    rfl

/-- The third statement draws from a pool that is there before it draws from one that is not. The
pool keeps its members. -/
theorem eval_fault_atomic_pet :
    ∃ (src : Source Unit) (report : Report) (s' : Session Unit),
      eval src { source := (), limit := .atMost 9 } []
          (utf8 "a\npet :: cat | dog\n\x7bpet\x7d\x7bnope\x7d\nlast") = .ok (report, s') ∧
      report.failure = some (.fault (.undefinedDraw (utf8 "nope"))) ∧
      report.outputs = [utf8 "a"] ∧
      s'.env = Environment.empty.put (utf8 "pet") [.lit (utf8 "cat"), .lit (utf8 "dog")] := by
  let src : Source Unit := ⟨fun _ s => (0, s)⟩
  let pool : Pool := [.lit (utf8 "cat"), .lit (utf8 "dog")]
  let env := Environment.empty.put (utf8 "pet") pool
  let faulty : Expr := .mix (.draw (.lit (utf8 "pet"))) (.draw (.lit (utf8 "nope")))
  have hd : Document.parse [] (utf8 "a\npet :: cat | dog\n\x7bpet\x7d\x7bnope\x7d\nlast") =
      .ok [.ok (.lit (utf8 "a")), .ok (.bind .define (utf8 "pet") pool), .ok faulty,
        .ok (.lit (utf8 "last"))] := by
    decide +kernel
  have hbefore : Steps src (.atMost 9) Environment.empty ()
      [.lit (utf8 "a"), .bind .define (utf8 "pet") pool] [some (utf8 "a"), none]
      ([] ++ ([] ++ [])) env () :=
    .cons rfl (.cons rfl .nil)
  have hne : utf8 "pet" ≠ utf8 "nope" := by decide
  have hpet : env.get? (utf8 "pet") = some pool := by
    simp [env, pool, Environment.get?, Environment.put, Environment.empty]
  obtain ⟨env', hremove, hnope⟩ : ∃ env', env.remove (utf8 "pet") 0 =
      .ok (.lit (utf8 "cat"), env') ∧ env'.get? (utf8 "nope") = none := by
    simp [env, pool, Environment.remove, Environment.get?, Environment.put, Environment.empty, hne]
  have hfault : (evaluate src (.atMost 9) faulty env ()).result =
      .error (.fault (.undefinedDraw (utf8 "nope"))) := by
    have htake : Eval.takeOut src (utf8 "pet") pool { env, source := () } =
        .ok (.lit (utf8 "cat")) { env := env', source := (), asked := [2] } := by
      rw [Eval.takeOut_apply, hremove]
      rfl
    have hrun : Eval.Evaluates src (.atMost 9) 0 faulty { env, source := () } _ _ :=
      .mixFails (.laterFails (.draw .lit hpet htake (.within rfl .lit))
        (.fails (.drawUndefined .lit hnope)))
    rw [hrun.evaluate_eq]
    rfl
  obtain ⟨report, s', heval, hfailure, houtputs, -, -, henv, -⟩ :=
    eval_fault_atomic src { source := (), limit := .atMost 9 } [] _ hd rfl hbefore hfault
  exact ⟨src, report, s', heval, hfailure, houtputs, henv⟩

end Session

end PoolProse
