import PoolProse.Proofs.Nesting

/-!
# Evaluation as a relation

The rules below say what the evaluation of an expression may come to, and what happens on the way. A
pool member is evaluated by the same rules as the expression that asked for it, one deeper, and no
rule counts down, so nothing here says that there is an end to it. Under a depth limit the rules
give every expression the one result that is computed.
-/
namespace PoolProse

/-- What happens in the course of an evaluation. -/
inductive Event where
  /-- The evaluation of an expression begins. -/
  | entered (e : Expr)
  /-- A number below `bound` is asked for, and the answer is looked up in `items`. -/
  | picked (bound answer : Nat) (items : List Expr)
  /-- A number below `bound` is asked for, and the member with that number is to be taken out of the
  pool that `env` binds to `key`. -/
  | drew (bound answer : Nat) (env : Environment) (key : Text)

namespace Expr

theorem sizeOf_mix_lt {l r o : Expr} (hl : ∀ o ∈ l.operands, sizeOf o ≤ sizeOf l)
    (h : o ∈ operands (.mix l r)) : sizeOf o < sizeOf (mix l r) := by
  rw [mix.sizeOf_spec]
  rcases List.mem_append.1 h with h | h
  · have hle := hl o h
    omega
  · rw [List.mem_singleton.1 h]
    omega

theorem sizeOf_operand_le (e : Expr) : ∀ o ∈ e.operands, sizeOf o ≤ sizeOf e := by
  intro o ho
  cases e with
  | mix l r => exact Nat.le_of_lt (sizeOf_mix_lt (sizeOf_operand_le l) ho)
  | _ => exact Nat.le_of_eq (congrArg sizeOf (List.mem_singleton.1 ho))

/-- A property of expressions holds if it holds of a chain whenever it holds of all operands, and of
any other expression whenever it holds of its parts. -/
@[elab_as_elim]
theorem operand_induction {P : Expr → Prop} (lit : ∀ t, P (.lit t))
    (mix : ∀ l r, (∀ o ∈ operands (.mix l r), P o) → P (.mix l r))
    (ref : ∀ name, P name → P (.ref name)) (draw : ∀ name, P name → P (.draw name))
    (bind : ∀ op name items, (∀ e ∈ items, P e) → P (.bind op name items))
    (missing : P .missing) (e : Expr) : P e := by
  induction hn : sizeOf e using Nat.strongRecOn generalizing e with
  | ind n ih =>
      subst hn
      have hsmaller : ∀ o, sizeOf o < sizeOf e → P o := fun o ho => ih _ ho o rfl
      cases e with
      | lit t => exact lit t
      | missing => exact missing
      | ref name => exact ref name (hsmaller name (by simp))
      | draw name => exact draw name (hsmaller name (by simp))
      | bind op name items =>
          refine bind op name items fun e he => hsmaller e ?_
          have hlt := List.sizeOf_lt_of_mem he
          rw [Expr.bind.sizeOf_spec]
          omega
      | mix l r =>
          exact mix l r fun o ho => hsmaller o (sizeOf_mix_lt (sizeOf_operand_le l) ho)

theorem operands_ne_nil (e : Expr) : e.operands ≠ [] := by
  cases e <;> simp [operands]

end Expr

namespace Eval

variable {σ : Type}

/-- How a computation ends: with an answer or a failure, in some world. -/
abbrev Ended (σ α : Type) := EStateM.Result Failure (World σ) α

def pickEvent (src : Source σ) (items : List Expr) (w : World σ) : Event :=
  .picked items.length (src.choose items.length w.source).1 items

def takeOutEvent (src : Source σ) (key : Text) (pool : Pool) (w : World σ) : Event :=
  .drew pool.length (src.choose pool.length w.source).1 w.env key

/-! ## The rules -/

mutual

/-- Evaluating `e` in the world `w`, while `depth` pool members are being evaluated inside each
other, makes `events` happen and ends with `r`. -/
inductive Evaluates (src : Source σ) (limit : Limit) :
    (depth : Nat) → (e : Expr) → (w : World σ) → (events : List Event) → (r : Ended σ Value) →
      Prop where
  | lit {depth : Nat} {t : Text} {w : World σ} :
      Evaluates src limit depth (.lit t) w [.entered (.lit t)] (.ok (some t) w)
  | missing {depth : Nat} {w : World σ} :
      Evaluates src limit depth .missing w [.entered .missing]
        (.error (.fault .unhandledExpression) w)
  /-- The operands of the whole chain are evaluated from left to right. -/
  | mix {depth : Nat} {l r : Expr} {w u : World σ} {events : List Event} {ts : List Text}
      (h : EvaluatesAll src limit depth (Expr.operands (.mix l r)) w events (.ok ts u)) :
      Evaluates src limit depth (.mix l r) w (.entered (.mix l r) :: events)
        (.ok (some ts.flatten) u)
  | mixFails {depth : Nat} {l r : Expr} {w u : World σ} {events : List Event} {f : Failure}
      (h : EvaluatesAll src limit depth (Expr.operands (.mix l r)) w events (.error f u)) :
      Evaluates src limit depth (.mix l r) w (.entered (.mix l r) :: events) (.error f u)
  | refFails {depth : Nat} {name : Expr} {w u : World σ} {events : List Event} {f : Failure}
      (hname : Evaluates src limit depth name w events (.error f u)) :
      Evaluates src limit depth (.ref name) w (.entered (.ref name) :: events) (.error f u)
  | refUndefined {depth : Nat} {name : Expr} {w u : World σ} {events : List Event} {v : Value}
      (hname : Evaluates src limit depth name w events (.ok v u))
      (hpool : u.env.get? v.text = none) :
      Evaluates src limit depth (.ref name) w (.entered (.ref name) :: events)
        (.ok (some (Ascii.parenOpen :: (v.text ++ [Ascii.parenClose])))
          { u with log := ⟨.info, utf8 "reference to undefined pool '" ++ v.text ++ utf8 "'"⟩ ::
            u.log })
  | refBadChoice {depth : Nat} {name : Expr} {w u u' : World σ} {events : List Event} {v : Value}
      {pool : Pool} {f : Failure} (hname : Evaluates src limit depth name w events (.ok v u))
      (hpool : u.env.get? v.text = some pool) (hpick : pick src pool u = .error f u') :
      Evaluates src limit depth (.ref name) w
        (.entered (.ref name) :: (events ++ [pickEvent src pool u])) (.error f u')
  | ref {depth : Nat} {name e : Expr} {w u u' : World σ} {before after : List Event} {v : Value}
      {pool : Pool} {r : Ended σ Value}
      (hname : Evaluates src limit depth name w before (.ok v u))
      (hpool : u.env.get? v.text = some pool) (hpick : pick src pool u = .ok e u')
      (hmember : Dereferences src limit depth e u' after r) :
      Evaluates src limit depth (.ref name) w
        (.entered (.ref name) :: (before ++ pickEvent src pool u :: after)) r
  | drawFails {depth : Nat} {name : Expr} {w u : World σ} {events : List Event} {f : Failure}
      (hname : Evaluates src limit depth name w events (.error f u)) :
      Evaluates src limit depth (.draw name) w (.entered (.draw name) :: events) (.error f u)
  | drawUndefined {depth : Nat} {name : Expr} {w u : World σ} {events : List Event} {v : Value}
      (hname : Evaluates src limit depth name w events (.ok v u))
      (hpool : u.env.get? v.text = none) :
      Evaluates src limit depth (.draw name) w (.entered (.draw name) :: events)
        (.error (.fault (.undefinedDraw v.text)) u)
  | drawBadRemoval {depth : Nat} {name : Expr} {w u u' : World σ} {events : List Event}
      {v : Value} {pool : Pool} {f : Failure}
      (hname : Evaluates src limit depth name w events (.ok v u))
      (hpool : u.env.get? v.text = some pool) (htake : takeOut src v.text pool u = .error f u') :
      Evaluates src limit depth (.draw name) w
        (.entered (.draw name) :: (events ++ [takeOutEvent src v.text pool u])) (.error f u')
  | draw {depth : Nat} {name e : Expr} {w u u' : World σ} {before after : List Event} {v : Value}
      {pool : Pool} {r : Ended σ Value}
      (hname : Evaluates src limit depth name w before (.ok v u))
      (hpool : u.env.get? v.text = some pool) (htake : takeOut src v.text pool u = .ok e u')
      (hmember : Dereferences src limit depth e u' after r) :
      Evaluates src limit depth (.draw name) w
        (.entered (.draw name) :: (before ++ takeOutEvent src v.text pool u :: after)) r
  | define {depth : Nat} {name : Text} {items : List Expr} {w : World σ} :
      Evaluates src limit depth (.bind .define name items) w
        [.entered (.bind .define name items)] (.ok none { w with env := w.env.put name items })
  | defineEval {depth : Nat} {name : Text} {items : List Expr} {w u : World σ}
      {events : List Event} {ts : List Text}
      (h : EvaluatesAll src limit depth items w events (.ok ts u)) :
      Evaluates src limit depth (.bind .defineEval name items) w
        (.entered (.bind .defineEval name items) :: events)
        (.ok none { u with env := u.env.put name (ts.map .lit) })
  | defineEvalFails {depth : Nat} {name : Text} {items : List Expr} {w u : World σ}
      {events : List Event} {f : Failure}
      (h : EvaluatesAll src limit depth items w events (.error f u)) :
      Evaluates src limit depth (.bind .defineEval name items) w
        (.entered (.bind .defineEval name items) :: events) (.error f u)
  /-- A choice among no items unbinds the name. -/
  | selectNothing {depth : Nat} {op : Binding} {name : Text} {w : World σ}
      (hop : op = .select ∨ op = .selectEval) :
      Evaluates src limit depth (.bind op name []) w [.entered (.bind op name [])]
        (.ok none { w with env := w.env.delete name })
  | selectBadChoice {depth : Nat} {op : Binding} {name : Text} {items : List Expr}
      {w u : World σ} {f : Failure} (hop : op = .select ∨ op = .selectEval) (hne : items ≠ [])
      (hpick : pick src items w = .error f u) :
      Evaluates src limit depth (.bind op name items) w
        [.entered (.bind op name items), pickEvent src items w] (.error f u)
  | select {depth : Nat} {name : Text} {items : List Expr} {e : Expr} {w u : World σ}
      (hne : items ≠ []) (hpick : pick src items w = .ok e u) :
      Evaluates src limit depth (.bind .select name items) w
        [.entered (.bind .select name items), pickEvent src items w]
        (.ok none { u with env := u.env.put name [e] })
  | selectEvalFails {depth : Nat} {name : Text} {items : List Expr} {e : Expr}
      {w u u' : World σ} {events : List Event} {f : Failure} (hne : items ≠ [])
      (hpick : pick src items w = .ok e u)
      (h : Evaluates src limit depth e u events (.error f u')) :
      Evaluates src limit depth (.bind .selectEval name items) w
        (.entered (.bind .selectEval name items) :: pickEvent src items w :: events) (.error f u')
  | selectEval {depth : Nat} {name : Text} {items : List Expr} {e : Expr} {w u u' : World σ}
      {events : List Event} {v : Value} (hne : items ≠ []) (hpick : pick src items w = .ok e u)
      (h : Evaluates src limit depth e u events (.ok v u')) :
      Evaluates src limit depth (.bind .selectEval name items) w
        (.entered (.bind .selectEval name items) :: pickEvent src items w :: events)
        (.ok none { u' with env := u'.env.put name [.lit v.text] })

/-- Evaluating some expressions one after the other gives their texts. -/
inductive EvaluatesAll (src : Source σ) (limit : Limit) :
    (depth : Nat) → (es : List Expr) → (w : World σ) → (events : List Event) →
      (r : Ended σ (List Text)) → Prop where
  | nil {depth : Nat} {w : World σ} : EvaluatesAll src limit depth [] w [] (.ok [] w)
  | fails {depth : Nat} {e : Expr} {es : List Expr} {w u : World σ} {events : List Event}
      {f : Failure} (h : Evaluates src limit depth e w events (.error f u)) :
      EvaluatesAll src limit depth (e :: es) w events (.error f u)
  | laterFails {depth : Nat} {e : Expr} {es : List Expr} {w u u' : World σ}
      {before after : List Event} {v : Value} {f : Failure}
      (h : Evaluates src limit depth e w before (.ok v u))
      (hrest : EvaluatesAll src limit depth es u after (.error f u')) :
      EvaluatesAll src limit depth (e :: es) w (before ++ after) (.error f u')
  | cons {depth : Nat} {e : Expr} {es : List Expr} {w u u' : World σ}
      {before after : List Event} {v : Value} {ts : List Text}
      (h : Evaluates src limit depth e w before (.ok v u))
      (hrest : EvaluatesAll src limit depth es u after (.ok ts u')) :
      EvaluatesAll src limit depth (e :: es) w (before ++ after) (.ok (v.text :: ts) u')

/-- Evaluating a pool member takes the depth one further, if the limit admits it. -/
inductive Dereferences (src : Source σ) (limit : Limit) :
    (depth : Nat) → (e : Expr) → (w : World σ) → (events : List Event) → (r : Ended σ Value) →
      Prop where
  | within {depth : Nat} {e : Expr} {w : World σ} {events : List Event} {r : Ended σ Value}
      (hlimit : limit.isBeyond (depth + 1) = false)
      (h : Evaluates src limit (depth + 1) e w events r) :
      Dereferences src limit depth e w events r
  | beyond {depth : Nat} {e : Expr} {w : World σ} (hlimit : limit.isBeyond (depth + 1) = true) :
      Dereferences src limit depth e w [] (.error limit.failure w)

end

/-! ## Evaluation, one constructor at a time -/

section

variable (src : Source σ) (member : Expr → Eval σ Value)

theorem operandRuns_eq (e : Expr) :
    operandRuns src member e = e.operands.map (expr src member) := by
  cases e with
  | mix l r =>
      rw [operandRuns, Expr.operands, List.map_append, operandRuns_eq l]
      rfl
  | _ => rfl

theorem itemRuns_eq (es : List Expr) : itemRuns src member es = es.map (expr src member) := by
  induction es with
  | nil => rfl
  | cons e es ih =>
      rw [itemRuns, ih]
      rfl

theorem expr_mix (l r : Expr) :
    expr src member (.mix l r) =
      texts ((Expr.operands (.mix l r)).map (expr src member)) >>= fun ts =>
        pure (some ts.flatten) := by
  rw [expr, operandRuns_eq]
  obtain ⟨o, os, ho⟩ := List.exists_cons_of_ne_nil (Expr.operands_ne_nil l)
  rw [Expr.operands, ho]
  cases os <;> rfl

theorem expr_bind (op : Binding) (name : Text) (items : List Expr) :
    expr src member (.bind op name items) =
      bindPool src op name items (items.map (expr src member)) := by
  rw [← itemRuns_eq]
  rfl

theorem pick_map {α β : Type} (f : α → β) (items : List α) :
    pick src (items.map f) = pick src items >>= fun a => pure (f a) := by
  funext w
  rw [pick, List.length_map, bind_apply, bind_apply, pick, bind_apply]
  cases choose src items.length w with
  | error g u => rfl
  | ok i u =>
      simp only [List.getElem?_map]
      cases items[i]? <;> rfl

end

section

variable {α β : Type} {src : Source σ} {member : Expr → Eval σ Value} {w u : World σ}
  {name : Expr} {v : Value} {pool : Pool} {key : Text} {items : List Expr}

theorem bind_of_ok {m : Eval σ α} {f : α → Eval σ β} {a : α} (h : m w = .ok a u) :
    (m >>= f) w = f a u := by
  rw [bind_apply, h]

theorem bind_of_error {m : Eval σ α} {f : α → Eval σ β} {g : Failure} (h : m w = .error g u) :
    (m >>= f) w = .error g u := by
  rw [bind_apply, h]

theorem expr_ref_fails {f : Failure} (hname : expr src member name w = .error f u) :
    expr src member (.ref name) w = .error f u := bind_of_error hname

theorem expr_draw_fails {f : Failure} (hname : expr src member name w = .error f u) :
    expr src member (.draw name) w = .error f u := bind_of_error hname

theorem expr_ref_undefined (hname : expr src member name w = .ok v u)
    (hpool : u.env.get? v.text = none) :
    expr src member (.ref name) w =
      .ok (some (Ascii.parenOpen :: (v.text ++ [Ascii.parenClose])))
        { u with log := ⟨.info, utf8 "reference to undefined pool '" ++ v.text ++ utf8 "'"⟩ ::
          u.log } := by
  refine (bind_of_ok hname).trans ?_
  rw [look_apply, hpool]
  rfl

theorem expr_ref_found (hname : expr src member name w = .ok v u)
    (hpool : u.env.get? v.text = some pool) :
    expr src member (.ref name) w = (pick src pool >>= member) u := by
  refine (bind_of_ok hname).trans ?_
  rw [look_apply, hpool]

theorem expr_draw_undefined (hname : expr src member name w = .ok v u)
    (hpool : u.env.get? v.text = none) :
    expr src member (.draw name) w = .error (.fault (.undefinedDraw v.text)) u := by
  refine (bind_of_ok hname).trans ?_
  rw [look_apply, hpool]
  rfl

theorem expr_draw_found (hname : expr src member name w = .ok v u)
    (hpool : u.env.get? v.text = some pool) :
    expr src member (.draw name) w = (takeOut src v.text pool >>= member) u := by
  refine (bind_of_ok hname).trans ?_
  rw [look_apply, hpool]

theorem expr_select (hne : items ≠ []) :
    expr src member (.bind .select key items) =
      pick src items >>= fun e => update (·.put key [e]) >>= fun _ => pure none := by
  simp only [expr_bind, bindPool, List.isEmpty_iff, hne, if_false]

theorem expr_selectEval (hne : items ≠ []) :
    expr src member (.bind .selectEval key items) =
      pick src items >>= fun e => expr src member e >>= fun v =>
        update (·.put key [.lit v.text]) >>= fun _ => pure none := by
  simp only [expr_bind, bindPool, List.isEmpty_iff, List.map_eq_nil_iff, hne, if_false, pick_map,
    bind_assoc, pure_bind]

theorem mem_of_pick {items : List α} {a : α} (h : pick src items w = .ok a u) : a ∈ items := by
  rw [pick, bind_apply] at h
  cases hchoose : choose src items.length w with
  | error f u' => rw [hchoose] at h; cases h
  | ok i u' =>
      rw [hchoose] at h
      simp only at h
      cases hi : items[i]? with
      | none => rw [hi] at h; cases h
      | some b =>
          rw [hi] at h
          obtain ⟨rfl, -⟩ := EStateM.Result.ok.inj h
          exact List.mem_of_getElem? hi

end

/-! ## What is computed follows the rules -/

section

variable {src : Source σ} {limit : Limit} {depth : Nat} {member : Expr → Eval σ Value}

/-- The rules give `e` the result that is computed for it. -/
def Follows (src : Source σ) (limit : Limit) (depth : Nat) (member : Expr → Eval σ Value)
    (e : Expr) : Prop :=
  ∀ w, ∃ events, Evaluates src limit depth e w events (expr src member e w)

theorem follows_texts {es : List Expr} (h : ∀ e ∈ es, Follows src limit depth member e)
    (w : World σ) :
    ∃ events, EvaluatesAll src limit depth es w events (texts (es.map (expr src member)) w) := by
  induction es generalizing w with
  | nil => exact ⟨[], .nil⟩
  | cons e es ih =>
      obtain ⟨he, hes⟩ := List.forall_mem_cons.1 h
      obtain ⟨before, hbefore⟩ := he w
      rw [List.map_cons, texts]
      cases hr : expr src member e w with
      | error f u =>
          rw [hr] at hbefore
          rw [bind_of_error hr]
          exact ⟨_, .fails hbefore⟩
      | ok v u =>
          rw [hr] at hbefore
          obtain ⟨after, hafter⟩ := ih hes u
          rw [bind_of_ok hr]
          cases hrest : texts (es.map (expr src member)) u with
          | error f u' =>
              rw [hrest] at hafter
              rw [bind_of_error hrest]
              exact ⟨_, .laterFails hbefore hafter⟩
          | ok ts u' =>
              rw [hrest] at hafter
              rw [bind_of_ok hrest]
              exact ⟨_, .cons hbefore hafter⟩

theorem follows_mix {l r : Expr}
    (h : ∀ o ∈ Expr.operands (.mix l r), Follows src limit depth member o) :
    Follows src limit depth member (.mix l r) := by
  intro w
  obtain ⟨events, hall⟩ := follows_texts h w
  rw [expr_mix]
  cases hr : texts ((Expr.operands (.mix l r)).map (expr src member)) w with
  | error f u =>
      rw [hr] at hall
      rw [bind_of_error hr]
      exact ⟨_, .mixFails hall⟩
  | ok ts u =>
      rw [hr] at hall
      rw [bind_of_ok hr]
      exact ⟨_, .mix hall⟩

theorem follows_ref
    (hmember : ∀ e w, ∃ events, Dereferences src limit depth e w events (member e w))
    {name : Expr} (h : Follows src limit depth member name) :
    Follows src limit depth member (.ref name) := by
  intro w
  obtain ⟨before, hname⟩ := h w
  cases hr : expr src member name w with
  | error f u =>
      rw [hr] at hname
      rw [expr_ref_fails hr]
      exact ⟨_, .refFails hname⟩
  | ok v u =>
      rw [hr] at hname
      cases hpool : u.env.get? v.text with
      | none =>
          rw [expr_ref_undefined hr hpool]
          exact ⟨_, .refUndefined hname hpool⟩
      | some pool =>
          rw [expr_ref_found hr hpool]
          cases hpick : pick src pool u with
          | error f u' =>
              rw [bind_of_error hpick]
              exact ⟨_, .refBadChoice hname hpool hpick⟩
          | ok e u' =>
              obtain ⟨after, hafter⟩ := hmember e u'
              rw [bind_of_ok hpick]
              exact ⟨_, .ref hname hpool hpick hafter⟩

theorem follows_draw
    (hmember : ∀ e w, ∃ events, Dereferences src limit depth e w events (member e w))
    {name : Expr} (h : Follows src limit depth member name) :
    Follows src limit depth member (.draw name) := by
  intro w
  obtain ⟨before, hname⟩ := h w
  cases hr : expr src member name w with
  | error f u =>
      rw [hr] at hname
      rw [expr_draw_fails hr]
      exact ⟨_, .drawFails hname⟩
  | ok v u =>
      rw [hr] at hname
      cases hpool : u.env.get? v.text with
      | none =>
          rw [expr_draw_undefined hr hpool]
          exact ⟨_, .drawUndefined hname hpool⟩
      | some pool =>
          rw [expr_draw_found hr hpool]
          cases htake : takeOut src v.text pool u with
          | error f u' =>
              rw [bind_of_error htake]
              exact ⟨_, .drawBadRemoval hname hpool htake⟩
          | ok e u' =>
              obtain ⟨after, hafter⟩ := hmember e u'
              rw [bind_of_ok htake]
              exact ⟨_, .draw hname hpool htake hafter⟩

theorem follows_bind {op : Binding} {name : Text} {items : List Expr}
    (h : ∀ e ∈ items, Follows src limit depth member e) :
    Follows src limit depth member (.bind op name items) := by
  intro w
  cases op with
  | define => exact ⟨_, .define⟩
  | defineEval =>
      obtain ⟨events, hall⟩ := follows_texts h w
      rw [expr_bind, bindPool]
      cases hr : texts (items.map (expr src member)) w with
      | error f u =>
          rw [hr] at hall
          rw [bind_of_error hr]
          exact ⟨_, .defineEvalFails hall⟩
      | ok ts u =>
          rw [hr] at hall
          rw [bind_of_ok hr]
          exact ⟨_, .defineEval hall⟩
  | select =>
      by_cases hne : items = []
      · subst hne
        exact ⟨_, .selectNothing (Or.inl rfl)⟩
      rw [expr_select hne]
      cases hpick : pick src items w with
      | error f u =>
          rw [bind_of_error hpick]
          exact ⟨_, .selectBadChoice (Or.inl rfl) hne hpick⟩
      | ok e u =>
          rw [bind_of_ok hpick]
          exact ⟨_, .select hne hpick⟩
  | selectEval =>
      by_cases hne : items = []
      · subst hne
        exact ⟨_, .selectNothing (Or.inr rfl)⟩
      rw [expr_selectEval hne]
      cases hpick : pick src items w with
      | error f u =>
          rw [bind_of_error hpick]
          exact ⟨_, .selectBadChoice (Or.inr rfl) hne hpick⟩
      | ok e u =>
          obtain ⟨events, hitem⟩ := h e (mem_of_pick hpick) u
          rw [bind_of_ok hpick]
          cases hr : expr src member e u with
          | error f u' =>
              rw [hr] at hitem
              rw [bind_of_error hr]
              exact ⟨_, .selectEvalFails hne hpick hitem⟩
          | ok v u' =>
              rw [hr] at hitem
              rw [bind_of_ok hr]
              exact ⟨_, .selectEval hne hpick hitem⟩

theorem follows_expr
    (hmember : ∀ e w, ∃ events, Dereferences src limit depth e w events (member e w)) (e : Expr) :
    Follows src limit depth member e := by
  induction e using Expr.operand_induction with
  | lit t => exact fun w => ⟨_, .lit⟩
  | mix l r ih => exact follows_mix ih
  | ref name ih => exact follows_ref hmember ih
  | draw name ih => exact follows_draw hmember ih
  | bind op name items ih => exact follows_bind ih
  | missing => exact fun w => ⟨_, .missing⟩

end

theorem follows_memberAt (src : Source σ) (max depth : Nat) (e : Expr) (w : World σ) :
    ∃ events, Dereferences src (.atMost max) depth e w events
      (memberAt src (.atMost max) (max - depth) e w) := by
  -- on what is left of the depth: within it a member is an expression one deeper
  induction hk : max - depth generalizing depth e w with
  | zero => exact ⟨[], .beyond (by simp only [Limit.isBeyond, decide_eq_true_eq]; omega)⟩
  | succ k ih =>
      have hlimit : (Limit.atMost max).isBeyond (depth + 1) = false := by
        simp only [Limit.isBeyond, decide_eq_false_iff_not]
        omega
      obtain ⟨events, h⟩ := follows_expr (fun e w => ih (depth + 1) e w (by omega)) e w
      exact ⟨events, .within hlimit h⟩

/-! ## What follows the rules is computed -/

mutual

theorem Evaluates.expr_eq {src : Source σ} {max depth : Nat} {e : Expr} {w : World σ}
    {events : List Event} {r : Ended σ Value} :
    Evaluates src (.atMost max) depth e w events r →
      expr src (memberAt src (.atMost max) (max - depth)) e w = r
  | .lit => rfl
  | .missing => rfl
  | .mix h => by rw [expr_mix, bind_of_ok h.texts_eq]; rfl
  | .mixFails h => by rw [expr_mix, bind_of_error h.texts_eq]
  | .refFails hname => expr_ref_fails hname.expr_eq
  | .refUndefined hname hpool => expr_ref_undefined hname.expr_eq hpool
  | .refBadChoice hname hpool hpick => by
      rw [expr_ref_found hname.expr_eq hpool, bind_of_error hpick]
  | .ref hname hpool hpick hmember => by
      rw [expr_ref_found hname.expr_eq hpool, bind_of_ok hpick, hmember.memberAt_eq]
  | .drawFails hname => expr_draw_fails hname.expr_eq
  | .drawUndefined hname hpool => expr_draw_undefined hname.expr_eq hpool
  | .drawBadRemoval hname hpool htake => by
      rw [expr_draw_found hname.expr_eq hpool, bind_of_error htake]
  | .draw hname hpool htake hmember => by
      rw [expr_draw_found hname.expr_eq hpool, bind_of_ok htake, hmember.memberAt_eq]
  | .define => rfl
  | .defineEval h => by rw [expr_bind, bindPool, bind_of_ok h.texts_eq]; rfl
  | .defineEvalFails h => by rw [expr_bind, bindPool, bind_of_error h.texts_eq]
  | .selectNothing hop => by rcases hop with rfl | rfl <;> rfl
  | .selectBadChoice hop hne hpick => by
      rcases hop with rfl | rfl
      · rw [expr_select hne, bind_of_error hpick]
      · rw [expr_selectEval hne, bind_of_error hpick]
  | .select hne hpick => by rw [expr_select hne, bind_of_ok hpick]; rfl
  | .selectEvalFails hne hpick h => by
      rw [expr_selectEval hne, bind_of_ok hpick, bind_of_error h.expr_eq]
  | .selectEval hne hpick h => by
      rw [expr_selectEval hne, bind_of_ok hpick, bind_of_ok h.expr_eq]
      rfl

theorem EvaluatesAll.texts_eq {src : Source σ} {max depth : Nat} {es : List Expr} {w : World σ}
    {events : List Event} {r : Ended σ (List Text)} :
    EvaluatesAll src (.atMost max) depth es w events r →
      texts (es.map (expr src (memberAt src (.atMost max) (max - depth)))) w = r
  | .nil => rfl
  | .fails h => bind_of_error h.expr_eq
  | .laterFails h hrest => (bind_of_ok h.expr_eq).trans (bind_of_error hrest.texts_eq)
  | .cons h hrest => (bind_of_ok h.expr_eq).trans (bind_of_ok hrest.texts_eq)

theorem Dereferences.memberAt_eq {src : Source σ} {max depth : Nat} {e : Expr} {w : World σ}
    {events : List Event} {r : Ended σ Value} :
    Dereferences src (.atMost max) depth e w events r →
      memberAt src (.atMost max) (max - depth) e w = r
  | .within hlimit h => by
      have hmax : max - depth = max - (depth + 1) + 1 := by
        simp only [Limit.isBeyond, decide_eq_false_iff_not] at hlimit
        omega
      rw [hmax]
      exact h.expr_eq
  | .beyond hlimit => by
      have hmax : max - depth = 0 := by
        simp only [Limit.isBeyond, decide_eq_true_eq] at hlimit
        omega
      rw [hmax]
      rfl

end

theorem exists_evaluates (src : Source σ) (max depth : Nat) (e : Expr) (w : World σ) :
    ∃ events, Evaluates src (.atMost max) depth e w events
      (expr src (memberAt src (.atMost max) (max - depth)) e w) :=
  follows_expr (follows_memberAt src max depth) e w

/-- What the rules give at the start is what evaluation gives. -/
theorem Evaluates.evaluate_eq {src : Source σ} {max : Nat} {e : Expr} {env : Environment}
    {source : σ} {events : List Event} {r : Ended σ Value}
    (h : Evaluates src (.atMost max) 0 e { env, source } events r) :
    evaluate src (.atMost max) e env source = Outcome.ofResult env r := by
  rw [evaluate_eq_limited, limited, ← h.expr_eq]
  rfl

end Eval

end PoolProse
