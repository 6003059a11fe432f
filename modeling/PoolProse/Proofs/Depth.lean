import PoolProse.Proofs.Extended

/-!
# The depth limit

Evaluation without a limit is run with a gauge that is raised whenever a pool member is entered and
lowered when it is left. A limit changes nothing as long as the gauge stays within it, and cuts the
evaluation off where the gauge would pass it.
-/
namespace PoolProse

/-! ## The gauge -/

/-- The number of pool members that are being evaluated inside each other, and the largest that it
has been. -/
structure Gauge where
  depth : Nat := 0
  deepest : Nat := 0

namespace Gauge

def enter (g : Gauge) : Gauge := ⟨g.depth + 1, max g.deepest (g.depth + 1)⟩

def leave (g : Gauge) : Gauge := { g with depth := g.depth - 1 }

end Gauge

abbrev Metered (σ : Type) := Extended σ Gauge

namespace Eval

variable {σ : Type} {α β γ δ : Type}

/-- An evaluation that is counted by the gauge while it lasts. -/
def counted (run : Eval (Metered σ) α) : Eval (Metered σ) α := do
  modify (World.adjust .enter)
  let a ← run
  modify (World.adjust .leave)
  pure a

/-- Evaluates a pool member without a limit. The gauge has no part in it. An evaluation may have no
end, so it is cut off when `fuel` members are being evaluated and one more is entered. -/
def metered (src : Source σ) : (fuel : Nat) → Expr → Eval (Metered σ) Value
  | 0, _ => counted (throw .endless)
  | fuel + 1, e => counted (expr (Extended.silent Gauge src) (metered src fuel) e)

def left : EStateM.Result Failure (World σ) α → World σ
  | .ok _ w => w
  | .error _ w => w

theorem counted_apply (run : Eval (Metered σ) α) (w : World (Metered σ)) :
    counted run w =
      match run (w.adjust .enter) with
      | .ok a u => .ok a (u.adjust .leave)
      | .error f u => .error f u := by
  change (run >>= _) _ = _
  rw [bind_apply]
  cases run (w.adjust .enter) <;> rfl

theorem counted_left (run : Eval (Metered σ) α) (w : World (Metered σ)) :
    (left (counted run w)).source.extra.deepest =
      (left (run (w.adjust .enter))).source.extra.deepest := by
  rw [counted_apply]
  cases run (w.adjust .enter) <;> rfl

/-! ## A limited evaluation follows the gauge -/

/-- The limited computation has the result of the one with the gauge, unless the gauge has passed
`limit`: then it has failed. -/
inductive Agrees (failure : Failure) (limit : Nat) (R : α → β → Prop) :
    EStateM.Result Failure (World σ) α →
      EStateM.Result Failure (World (Metered σ)) β → Prop where
  | ok {a : α} {b : β} {w : World (Metered σ)} (h : R a b) (hw : w.source.extra.deepest ≤ limit) :
      Agrees failure limit R (.ok a w.bare) (.ok b w)
  | error {f : Failure} {w : World (Metered σ)} (hw : w.source.extra.deepest ≤ limit) :
      Agrees failure limit R (.error f w.bare) (.error f w)
  | beyond {w : World σ} {r : EStateM.Result Failure (World (Metered σ)) β}
      (hr : limit < (left r).source.extra.deepest) : Agrees failure limit R (.error failure w) r

/-- The gauge comes back to where it started, and its mark is never lowered. From `depth` on the
mark stays below `ceiling`. -/
structure Gauges (ceiling depth : Nat) (R : α → β → Prop) (m' : Eval (Metered σ) β) : Prop where
  answer : ∀ {w b u}, m' w = .ok b u → (∃ a, R a b) ∧ u.source.extra.depth = w.source.extra.depth
  rises : ∀ w, w.source.extra.deepest ≤ (left (m' w)).source.extra.deepest
  bounded : ∀ w, w.source.extra.depth = depth → w.source.extra.deepest ≤ ceiling →
    (left (m' w)).source.extra.deepest ≤ ceiling

theorem Gauges.counted {ceiling depth : Nat} {R : α → β → Prop} {run : Eval (Metered σ) β}
    (h : Gauges ceiling (depth + 1) R run) (hceiling : depth + 1 ≤ ceiling) :
    Gauges ceiling depth R (counted run) where
  answer := by
    intro w b u hb
    rw [counted_apply] at hb
    cases hrun : run (w.adjust .enter) with
    | error f v => rw [hrun] at hb; cases hb
    | ok c v =>
        rw [hrun] at hb
        obtain ⟨rfl, rfl⟩ := EStateM.Result.ok.inj hb
        obtain ⟨hanswer, hback⟩ := h.answer hrun
        refine ⟨hanswer, ?_⟩
        change v.source.extra.depth - 1 = w.source.extra.depth
        rw [hback]
        rfl
  rises := by
    intro w
    have hrises := h.rises (w.adjust .enter)
    rw [counted_left]
    exact Nat.le_trans (Nat.le_max_left _ _) hrises
  bounded := by
    intro w hdepth hw
    rw [counted_left]
    apply h.bounded
    · exact congrArg (· + 1) hdepth
    · change max w.source.extra.deepest (w.source.extra.depth + 1) ≤ ceiling
      omega

/-- The limited computation `m` agrees with the one that has a gauge. -/
structure Tracks (failure : Failure) (limit ceiling depth : Nat) (R : α → β → Prop)
    (m : Eval σ α) (m' : Eval (Metered σ) β) : Prop extends Gauges ceiling depth R m' where
  agrees : ∀ w, w.source.extra.depth = depth → w.source.extra.deepest ≤ limit →
    Agrees failure limit R (m w.bare) (m' w)

namespace Tracks

variable {failure : Failure} {limit ceiling depth : Nat} {R : α → β → Prop} {T : γ → δ → Prop}

theorem bind {m : Eval σ α} {m' : Eval (Metered σ) β} {f : α → Eval σ γ}
    {f' : β → Eval (Metered σ) δ} (h : Tracks failure limit ceiling depth R m m')
    (hf : ∀ a b, R a b → Tracks failure limit ceiling depth T (f a) (f' b)) :
    Tracks failure limit ceiling depth T (m >>= f) (m' >>= f') where
  answer := by
    intro w c u hc
    rw [bind_apply] at hc
    cases hm : m' w with
    | error e v => rw [hm] at hc; cases hc
    | ok b v =>
        rw [hm] at hc
        obtain ⟨⟨a, hab⟩, hv⟩ := h.answer hm
        obtain ⟨hanswer, hu⟩ := (hf a b hab).answer hc
        exact ⟨hanswer, hu.trans hv⟩
  rises := by
    intro w
    rw [bind_apply]
    have hrises := h.rises w
    cases hm : m' w with
    | error e v => rwa [hm] at hrises
    | ok b v =>
        rw [hm] at hrises
        obtain ⟨⟨a, hab⟩, -⟩ := h.answer hm
        exact Nat.le_trans hrises ((hf a b hab).rises v)
  bounded := by
    intro w hdepth hw
    rw [bind_apply]
    have hbounded := h.bounded w hdepth hw
    cases hm : m' w with
    | error e v => rwa [hm] at hbounded
    | ok b v =>
        rw [hm] at hbounded
        obtain ⟨⟨a, hab⟩, hv⟩ := h.answer hm
        exact (hf a b hab).bounded v (hv.trans hdepth) hbounded
  agrees := by
    intro w hdepth hw
    rw [bind_apply, bind_apply]
    have hagrees := h.agrees w hdepth hw
    generalize m w.bare = r at hagrees ⊢
    generalize hm : m' w = r' at hagrees ⊢
    cases hagrees with
    | ok hab hv =>
        obtain ⟨-, hback⟩ := h.answer hm
        exact (hf _ _ hab).agrees _ (hback.trans hdepth) hv
    | error hv => exact .error hv
    | beyond hv =>
        apply Agrees.beyond
        cases r' with
        | error e v => exact hv
        | ok b v =>
            obtain ⟨⟨a, hab⟩, -⟩ := h.answer hm
            exact Nat.lt_of_lt_of_le hv ((hf a b hab).rises v)

theorem of_untouched {m : Eval σ α} {m' : Eval (Metered σ) β}
    (h : ∀ w, Untouched R w (m' w) (m w.bare)) : Tracks failure limit ceiling depth R m m' := by
  have hleft : ∀ w, (left (m' w)).source.extra = w.source.extra := by
    intro w
    have hw := h w
    generalize m w.bare = r at hw
    cases hm : m' w with
    | ok b u => rw [hm] at hw; cases hw; assumption
    | error f u => rw [hm] at hw; cases hw; assumption
  refine ⟨⟨?_, fun w => Nat.le_of_eq (congrArg Gauge.deepest (hleft w).symm),
    fun w _ hw => by rwa [hleft w]⟩, fun w _ hw => ?_⟩
  · intro w b u hb
    have hw := h w
    rw [hb] at hw
    generalize m w.bare = r at hw
    cases hw with
    | ok hab hu => exact ⟨⟨_, hab⟩, congrArg Gauge.depth hu⟩
  · have huntouched := h w
    generalize m w.bare = r at huntouched ⊢
    generalize m' w = r' at huntouched ⊢
    cases huntouched with
    | ok hab hu => exact .ok hab (by rwa [hu])
    | error hu => exact .error (by rwa [hu])

def simulation (src : Source σ) (failure : Failure) (limit ceiling depth : Nat) :
    Simulation src (Extended.silent Gauge src) :=
  beside src (Tracks failure limit ceiling depth) bind of_untouched

theorem counted {m : Eval σ α} {run : Eval (Metered σ) β}
    (h : Tracks failure limit ceiling (depth + 1) R m run) (hlimit : depth + 1 ≤ limit)
    (hceiling : depth + 1 ≤ ceiling) :
    Tracks failure limit ceiling depth R m (Eval.counted run) := by
  refine ⟨h.toGauges.counted hceiling, fun w hdepth hw => ?_⟩
  have henter : w.source.extra.enter.deepest ≤ limit := by
    change max w.source.extra.deepest (w.source.extra.depth + 1) ≤ limit
    omega
  have hagrees := h.agrees (w.adjust .enter) (congrArg (· + 1) hdepth) henter
  change Agrees failure limit R (m w.bare) _ at hagrees
  rw [counted_apply]
  generalize m w.bare = r at hagrees ⊢
  generalize run (w.adjust .enter) = r' at hagrees ⊢
  cases hagrees with
  | @ok a b u hab hu =>
      exact Agrees.ok (w := u.adjust .leave) hab hu
  | error hu => exact .error hu
  | beyond hr =>
      apply Agrees.beyond
      cases r' <;> exact hr

/-- Entering a pool member at the limit takes the gauge beyond it. -/
theorem counted_beyond {run : Eval (Metered σ) β} (h : Gauges ceiling (depth + 1) R run)
    (hceiling : depth + 1 ≤ ceiling) :
    Tracks failure depth ceiling depth R (throw failure) (Eval.counted run) := by
  refine ⟨h.counted hceiling, fun w hdepth hw => ?_⟩
  have hrises := h.rises (w.adjust .enter)
  have henter : depth < w.source.extra.enter.deepest := by
    change depth < max w.source.extra.deepest (w.source.extra.depth + 1)
    omega
  apply Agrees.beyond
  rw [counted_left]
  exact Nat.lt_of_lt_of_le henter hrises

end Tracks

theorem tracks_member (src : Source σ) (limit : Limit) {k n : Nat} (h : k ≤ n) (depth : Nat)
    (e : Expr) :
    Tracks limit.failure (depth + k) (depth + n + 1) depth Eq (memberAt src limit k e)
      (metered src n e) := by
  -- on the fuel: the limit may be used up before it, and then the gauge goes on alone
  induction n generalizing k depth e with
  | zero =>
      obtain rfl : k = 0 := Nat.le_zero.1 h
      have hthrow := (Tracks.simulation src limit.failure depth (depth + 1) (depth + 1)).throw
        (R := (Eq : Value → Value → Prop)) .endless
      exact Tracks.counted_beyond hthrow.toGauges (Nat.le_refl _)
  | succ n ih =>
      have hceiling : depth + (n + 1) + 1 = depth + 1 + n + 1 := by omega
      rw [hceiling]
      cases k with
      | zero =>
          have hexpr := (Tracks.simulation src limit.failure _ _ _).expr
            (fun e => ih (Nat.zero_le n) (depth + 1) e) e
          exact Tracks.counted_beyond hexpr.toGauges (by omega)
      | succ k =>
          have hlimit : depth + (k + 1) = depth + 1 + k := by omega
          rw [hlimit]
          have hexpr := (Tracks.simulation src limit.failure _ _ _).expr
            (fun e => ih (Nat.le_of_succ_le_succ h) (depth + 1) e) e
          exact Tracks.counted hexpr (by omega) (by omega)

theorem tracks_expr (src : Source σ) (limit : Limit) {k n : Nat} (h : k ≤ n) (e : Expr) :
    Tracks limit.failure k (n + 1) 0 Eq (expr src (memberAt src limit k) e)
      (expr (Extended.silent Gauge src) (metered src n) e) := by
  apply (Tracks.simulation src limit.failure k (n + 1) 0).expr
  intro e
  have hmember := tracks_member src limit h 0 e
  rwa [Nat.zero_add, Nat.zero_add] at hmember

end Eval

/-! ## The evaluation without a limit -/

namespace Outcome

variable {σ : Type}

/-- What has been done when a computation ends. A failure leaves the environment as it was. -/
def ofResult (env : Environment) : EStateM.Result Failure (World σ) Value → Outcome σ
  | .ok v w => ⟨.ok v, w.env, w.source, w.asked.reverse, w.log.reverse⟩
  | .error f w => ⟨.error f, env, w.source, w.asked.reverse, w.log.reverse⟩

def bare {κ : Type} (o : Outcome (Extended σ κ)) : Outcome σ where
  result := o.result
  env := o.env
  source := o.source.state
  asked := o.asked
  log := o.log

theorem ofResult_source (env : Environment) (r : EStateM.Result Failure (World σ) Value) :
    (ofResult env r).source = (Eval.left r).source := by
  cases r <;> rfl

end Outcome

section

variable {σ : Type} (src : Source σ) (e : Expr) (env : Environment) (source : σ)

/-- The evaluation that fails where more than `k` pool members would be evaluated inside each
other. -/
def limited (limit : Limit) (k : Nat) : Outcome σ :=
  Outcome.ofResult env (Eval.expr src (Eval.memberAt src limit k) e { env, source })

theorem evaluate_eq_limited (limit : Limit) :
    evaluate src limit e env source = limited src e env source limit limit.budget := by
  unfold evaluate limited Outcome.ofResult
  split <;> simp_all

/-- The evaluation of an expression without a limit, cut off when more than `fuel` pool members
would be evaluated inside each other. -/
def unlimited (fuel : Nat) : Outcome (Metered σ) :=
  Outcome.ofResult env (Eval.expr (Extended.silent Gauge src) (Eval.metered src fuel) e
    { env, source := ⟨source, {}⟩ })

/-- The evaluation without a limit comes to a point where `k` pool members are being evaluated
inside each other. -/
def Enters (k : Nat) : Prop := ∃ fuel, k ≤ (unlimited src e env source fuel).source.extra.deepest

/-- The evaluation without a limit ends with this outcome: there is a cut that it does not reach. -/
def Yields (o : Outcome σ) : Prop :=
  ∃ fuel, (unlimited src e env source fuel).source.extra.deepest ≤ fuel ∧
    (unlimited src e env source fuel).bare = o

variable {src e env source}

theorem Enters.of_le {k k' : Nat} (h : Enters src e env source k') (hk : k ≤ k') :
    Enters src e env source k := by
  obtain ⟨fuel, hfuel⟩ := h
  exact ⟨fuel, Nat.le_trans hk hfuel⟩

theorem deepest_le (fuel : Nat) :
    (unlimited src e env source fuel).source.extra.deepest ≤ fuel + 1 := by
  have htracks := Eval.tracks_expr src .none (Nat.le_refl fuel) e
  rw [unlimited, Outcome.ofResult_source]
  exact htracks.bounded _ rfl (Nat.zero_le _)

theorem limited_cases (limit : Limit) {k fuel : Nat} (h : k ≤ fuel) :
    ((unlimited src e env source fuel).source.extra.deepest ≤ k ∧
      limited src e env source limit k = (unlimited src e env source fuel).bare) ∨
    (k < (unlimited src e env source fuel).source.extra.deepest ∧
      (limited src e env source limit k).result = .error limit.failure) := by
  have hagrees := (Eval.tracks_expr src limit h e).agrees
    { env, source := ⟨source, {}⟩ } rfl (Nat.zero_le _)
  change Eval.Agrees limit.failure k Eq
    (Eval.expr src (Eval.memberAt src limit k) e { env, source }) _ at hagrees
  unfold unlimited limited
  generalize Eval.expr src (Eval.memberAt src limit k) e { env, source } = r at hagrees ⊢
  generalize Eval.expr (Extended.silent Gauge src) (Eval.metered src fuel) e
    { env, source := ⟨source, {}⟩ } = r' at hagrees ⊢
  cases hagrees with
  | ok hab hw => exact Or.inl ⟨hw, by rw [hab]; rfl⟩
  | error hw => exact Or.inl ⟨hw, rfl⟩
  | beyond hr =>
      rw [← Outcome.ofResult_source env] at hr
      exact Or.inr ⟨hr, rfl⟩

theorem limited_eq (limit : Limit) {k fuel : Nat} (h : k ≤ fuel)
    (hdeepest : (unlimited src e env source fuel).source.extra.deepest ≤ k) :
    limited src e env source limit k = (unlimited src e env source fuel).bare := by
  rcases @limited_cases σ src e env source limit k fuel h with ⟨-, heq⟩ | ⟨hover, -⟩
  · exact heq
  · omega

theorem limited_fails (limit : Limit) {k fuel : Nat} (h : k ≤ fuel)
    (hdeepest : k < (unlimited src e env source fuel).source.extra.deepest) :
    (limited src e env source limit k).result = .error limit.failure := by
  rcases @limited_cases σ src e env source limit k fuel h with ⟨hunder, -⟩ | ⟨-, hfails⟩
  · omega
  · exact hfails

/-- A cut that is not reached stays out of reach with more fuel. -/
theorem deepest_le_of_le {k fuel : Nat} (h : k ≤ fuel)
    (hk : (unlimited src e env source k).source.extra.deepest ≤ k) :
    (unlimited src e env source fuel).source.extra.deepest ≤ k := by
  by_contra hover
  -- cut off at `k` the evaluation would fail with whatever failure the cut is given
  have hfails : ∀ limit : Limit,
      (unlimited src e env source k).bare.result = .error limit.failure := by
    intro limit
    rw [← limited_eq limit (Nat.le_refl k) hk]
    exact limited_fails limit h (Nat.lt_of_not_le hover)
  have hboth := (hfails .none).symm.trans (hfails (.atMost 0))
  cases hboth

theorem yields_iff {limit : Limit} (h : ¬ Enters src e env source (limit.budget + 1))
    (o : Outcome σ) : Yields src e env source o ↔ evaluate src limit e env source = o := by
  have hdeepest : ∀ fuel,
      (unlimited src e env source fuel).source.extra.deepest ≤ limit.budget := by
    intro fuel
    by_contra hover
    exact h ⟨fuel, Nat.lt_of_not_le hover⟩
  have hbudget := limited_eq limit (Nat.le_refl limit.budget) (hdeepest limit.budget)
  rw [evaluate_eq_limited]
  constructor
  · rintro ⟨fuel, hfuel, rfl⟩
    by_cases hle : limit.budget ≤ fuel
    · exact limited_eq limit hle (hdeepest fuel)
    · have hlt : fuel ≤ limit.budget := by omega
      calc limited src e env source limit limit.budget
          = (unlimited src e env source limit.budget).bare := hbudget
        _ = limited src e env source limit fuel :=
            (limited_eq limit hlt (deepest_le_of_le hlt hfuel)).symm
        _ = (unlimited src e env source fuel).bare :=
            limited_eq limit (Nat.le_refl fuel) hfuel
  · intro heq
    exact ⟨limit.budget, hdeepest limit.budget, hbudget.symm.trans heq⟩

theorem evaluate_of_enters {limit : Limit} (h : Enters src e env source (limit.budget + 1)) :
    (evaluate src limit e env source).result = .error limit.failure := by
  obtain ⟨fuel, hfuel⟩ := h
  have hbound := @deepest_le σ src e env source fuel
  rw [evaluate_eq_limited]
  exact limited_fails limit (by omega) hfuel

theorem evaluate_env_of_error {limit : Limit} {f : Failure}
    (h : (evaluate src limit e env source).result = .error f) :
    (evaluate src limit e env source).env = env := by
  rw [evaluate_eq_limited, limited] at h ⊢
  generalize Eval.expr src (Eval.memberAt src limit limit.budget) e { env, source } = r at h ⊢
  cases r with
  | ok v w => cases h
  | error f w => rfl

end

/-! ## Chains of pools -/

/-- A source keeps to the bounds that it is asked for. -/
def Source.Lawful {σ : Type} (src : Source σ) : Prop :=
  ∀ n s, 0 < n → (src.choose n s).1 < n

/-- From the pool `key` on, `n` pools refer each to the next one and the last one holds literals. -/
inductive Chain (env : Environment) : Nat → Text → Prop where
  | literal {key : Text} {pool : Pool} (hpool : env.get? key = some pool) (hne : pool ≠ [])
      (h : ∀ e ∈ pool, ∃ t, e = .lit t) : Chain env 0 key
  | link {n : Nat} {key next : Text} {pool : Pool} (hpool : env.get? key = some pool)
      (hne : pool ≠ []) (h : ∀ e ∈ pool, e = .ref (.lit next)) (hnext : Chain env n next) :
      Chain env (n + 1) key

section

variable {σ : Type} {src : Source σ} {env : Environment}

theorem Eval.pick_apply (hsrc : src.Lawful) {α : Type} {items : List α} (hne : items ≠ [])
    (w : World σ) :
    ∃ a ∈ items, ∃ u : World σ, u.env = w.env ∧ Eval.pick src items w = .ok a u := by
  have hlt := hsrc items.length w.source (List.length_pos_iff.2 hne)
  refine ⟨items[(src.choose items.length w.source).1], List.getElem_mem hlt,
    { w with source := (src.choose items.length w.source).2, asked := items.length :: w.asked },
    rfl, ?_⟩
  have hchoose : Eval.choose src items.length w = .ok (src.choose items.length w.source).1
      { w with source := (src.choose items.length w.source).2,
               asked := items.length :: w.asked } := rfl
  rw [Eval.pick, Eval.bind_apply, hchoose]
  simp only [List.getElem?_eq_getElem hlt]
  rfl

theorem Eval.reference_apply (hsrc : src.Lawful) (member : Expr → Eval σ Value) {key : Text}
    {pool : Pool} {w : World σ} (hpool : w.env.get? key = some pool) (hne : pool ≠ []) :
    ∃ e ∈ pool, ∃ u, u.env = w.env ∧
      Eval.expr src member (.ref (.lit key)) w = member e u := by
  obtain ⟨e, he, u, hu, hpick⟩ := Eval.pick_apply hsrc hne w
  refine ⟨e, he, u, hu, ?_⟩
  have hexpr : Eval.expr src member (.ref (.lit key)) =
      Eval.reference src member (pure (some key)) := rfl
  rw [hexpr, Eval.reference, pure_bind, Eval.look_apply]
  simp only [Value.text, Option.getD_some, hpool]
  rw [Eval.bind_apply, hpick]

theorem Chain.run (hsrc : src.Lawful) (limit : Limit) {n : Nat} {key : Text}
    (h : Chain env n key) (k : Nat) {w : World σ} (hw : w.env = env) :
    (n + 1 ≤ k → ∃ v u, Eval.expr src (Eval.memberAt src limit k) (.ref (.lit key)) w = .ok v u) ∧
    (k ≤ n →
      ∃ u, Eval.expr src (Eval.memberAt src limit k) (.ref (.lit key)) w =
        .error limit.failure u) := by
  induction h generalizing k w with
  | @literal key pool hpool hne h =>
      rw [← hw] at hpool
      obtain ⟨e, he, u, -, hrun⟩ := Eval.reference_apply hsrc (Eval.memberAt src limit k) hpool hne
      obtain ⟨t, rfl⟩ := h e he
      rw [hrun]
      cases k with
      | zero => exact ⟨by omega, fun _ => ⟨u, rfl⟩⟩
      | succ k => exact ⟨fun _ => ⟨some t, u, rfl⟩, by omega⟩
  | @link n key next pool hpool hne h _ ih =>
      rw [← hw] at hpool
      obtain ⟨e, he, u, hu, hrun⟩ := Eval.reference_apply hsrc (Eval.memberAt src limit k) hpool hne
      obtain rfl := h e he
      rw [hrun]
      cases k with
      | zero => exact ⟨by omega, fun _ => ⟨u, rfl⟩⟩
      | succ k =>
          obtain ⟨hok, herror⟩ := ih k (hu.trans hw)
          exact ⟨fun hn => hok (by omega), fun hn => herror (by omega)⟩

theorem Chain.evaluates_iff (hsrc : src.Lawful) {n : Nat} {key : Text} (h : Chain env n key)
    (source : σ) (depth : Nat) :
    (∃ v, (evaluate src (.atMost depth) (.ref (.lit key)) env source).result = .ok v) ↔
      n + 1 ≤ depth := by
  obtain ⟨hok, herror⟩ := h.run hsrc (.atMost depth) depth (w := { env, source }) rfl
  have hbudget : (Limit.atMost depth).budget = depth := rfl
  rw [evaluate_eq_limited, limited, hbudget]
  constructor
  · rintro ⟨v, hv⟩
    by_contra hdepth
    obtain ⟨u, hu⟩ := herror (by omega)
    rw [hu] at hv
    cases hv
  · intro hdepth
    obtain ⟨v, u, hu⟩ := hok hdepth
    rw [hu]
    exact ⟨v, rfl⟩

end

/-- A depth limit changes nothing as long as the evaluation without a limit keeps to it, and is a
fault as soon as it does not. The program's own way to go without a limit gives the unlimited
evaluation. A higher limit keeps every outcome but the fault, and a chain of pools is followed to
its end if the limit is at least its length. -/
theorem evaluate_depth_limit {σ : Type} (src : Source σ) (e : Expr) (env : Environment)
    (source : σ) (depth : Nat) :
    (¬ Enters src e env source (depth + 1) →
      ∀ o, Yields src e env source o ↔ evaluate src (.atMost depth) e env source = o) ∧
    (Enters src e env source (depth + 1) →
      (evaluate src (.atMost depth) e env source).result =
          .error (.fault (.recursionLimit depth)) ∧
        (evaluate src (.atMost depth) e env source).env = env) ∧
    (¬ Enters src e env source (Limit.none.budget + 1) →
      ∀ o, Yields src e env source o ↔ evaluate src .none e env source = o) ∧
    ((evaluate src (.atMost depth) e env source).result ≠
        .error (.fault (.recursionLimit depth)) →
      ∀ higher, depth ≤ higher → evaluate src (.atMost higher) e env source =
        evaluate src (.atMost depth) e env source) ∧
    (src.Lawful → ∀ n key, Chain env n key →
      ((∃ v, (evaluate src (.atMost depth) (.ref (.lit key)) env source).result = .ok v) ↔
        n + 1 ≤ depth)) := by
  have hyields : ∀ d, ¬ Enters src e env source (d + 1) →
      ∀ o, Yields src e env source o ↔ evaluate src (.atMost d) e env source = o :=
    fun d h => @yields_iff σ src e env source (.atMost d) h
  have hfault : Enters src e env source (depth + 1) →
      (evaluate src (.atMost depth) e env source).result =
        .error (.fault (.recursionLimit depth)) :=
    fun h => @evaluate_of_enters σ src e env source (.atMost depth) h
  refine ⟨hyields depth, fun h => ⟨hfault h, evaluate_env_of_error (hfault h)⟩,
    fun h => yields_iff h, ?_, fun hsrc n key h => h.evaluates_iff hsrc source depth⟩
  intro hresult higher hle
  have hdepth : ¬ Enters src e env source (depth + 1) := fun h => hresult (hfault h)
  have hhigher : ¬ Enters src e env source (higher + 1) :=
    fun h => hdepth (h.of_le (by omega))
  exact (hyields higher hhigher _).1 ((hyields depth hdepth _).2 rfl)

theorem evaluate_depth_limit_link :
    ∃ (src : Source Unit) (env : Environment), src.Lawful ∧ Chain env 1 (utf8 "a") ∧
      Enters src (.ref (.lit (utf8 "a"))) env () 2 ∧
      (evaluate src (.atMost 1) (.ref (.lit (utf8 "a"))) env ()).result =
        .error (.fault (.recursionLimit 1)) ∧
      ∃ v, (evaluate src (.atMost 2) (.ref (.lit (utf8 "a"))) env ()).result = .ok v := by
  let src : Source Unit := ⟨fun _ s => (0, s)⟩
  let env := (Environment.empty.put (utf8 "a") [.ref (.lit (utf8 "b"))]).put (utf8 "b")
    [.lit (utf8 "c")]
  have hne : utf8 "b" ≠ utf8 "a" := by decide
  have ha : env.get? (utf8 "a") = some [.ref (.lit (utf8 "b"))] := by
    simp [env, Environment.get?, Environment.put, Environment.empty, hne, hne.symm,
      Std.HashMap.getElem_insert]
  have hb : env.get? (utf8 "b") = some [.lit (utf8 "c")] := by
    simp [env, Environment.get?, Environment.put, Environment.empty, hne.symm]
  have hsrc : src.Lawful := fun _ _ h => h
  have hchain : Chain env 1 (utf8 "a") :=
    .link ha (by simp) (by simp) (.literal hb (by simp) (by simp))
  obtain ⟨hone, hfault, -, -, hshort⟩ :=
    evaluate_depth_limit src (.ref (.lit (utf8 "a"))) env () 1
  obtain ⟨htwo, -, -, -, hlong⟩ := evaluate_depth_limit src (.ref (.lit (utf8 "a"))) env () 2
  have hvalue := (hlong hsrc 1 (utf8 "a") hchain).2 (by omega)
  have hnone := (hshort hsrc 1 (utf8 "a") hchain).not.2 (by omega)
  have henters : Enters src (.ref (.lit (utf8 "a"))) env () 2 := by
    by_contra h
    have hsame := (htwo (fun h' => h (h'.of_le (by omega))) _).1 ((hone h _).2 rfl)
    rw [hsame] at hvalue
    exact hnone hvalue
  exact ⟨src, env, hsrc, hchain, henters, (hfault henters).1, hvalue⟩

end PoolProse
