import PoolProse.Proofs.Depth
import PoolProse.Proofs.OrderedBindings

/-!
# Contracts

A contract says of evaluation which worlds it may go through, which expressions it may meet, which
values they may have and how it may fail. It asks something of every step alone, and then holds of
the evaluation of every expression at every depth.
-/
namespace PoolProse

namespace Eval

variable {σ : Type} {α β : Type}

/-- A name may be bound to any pool of fine expressions, or unbound. -/
def Rebinds (Inv : World σ → Prop) (Fine : Expr → Prop) (name : Text) : Prop :=
  ∀ w, Inv w → (∀ pool : Pool, (∀ e ∈ pool, Fine e) → Inv { w with env := w.env.put name pool }) ∧
    Inv { w with env := w.env.delete name }

structure Contract (src : Source σ) where
  /-- What holds of the world between any two steps. -/
  Inv : World σ → Prop
  /-- The expressions that may be evaluated. -/
  Fine : Expr → Prop
  /-- The values that they may have. -/
  Answer : Value → Prop
  /-- How their evaluation may fail. -/
  Failing : Failure → Prop
  lit : ∀ t, Fine (.lit t)
  mix : ∀ {l r}, Fine (.mix l r) → Fine l ∧ Fine r
  ref : ∀ {e}, Fine (.ref e) → Fine e
  draw : ∀ {e}, Fine (.draw e) → Fine e
  bind : ∀ {op name items}, Fine (.bind op name items) →
    (∀ e ∈ items, Fine e) ∧ Answer none ∧ Rebinds Inv Fine name
  text : ∀ t, Answer (some t)
  missing : Fine .missing → Failing (.fault .unhandledExpression)
  undefined : ∀ name, Failing (.fault (.undefinedDraw name))
  note : ∀ {w} entry, Inv w → Inv { w with log := entry :: w.log }
  /-- The source keeps to its bounds, or else choices and removals are allowed to fail. -/
  choose : ∀ {w n}, 0 < n → Inv w →
    ((src.choose n w.source).1 < n ∨ Failing .badChoice ∧ ∀ f, Failing (.badRemoval f)) ∧
    Inv { w with source := (src.choose n w.source).2, asked := n :: w.asked }
  pool : ∀ {w key pool}, Inv w → w.env.get? key = some pool → pool ≠ [] ∧ ∀ e ∈ pool, Fine e
  remove : ∀ {w name key pool i}, Fine (.draw name) → Inv w → w.env.get? key = some pool →
    i < pool.length → ∃ e env, w.env.remove key i = .ok (e, env) ∧ Fine e ∧ Inv { w with env }

namespace Contract

variable {src : Source σ} (C : Contract src)

/-- A computation ended as the contract asks, with an answer in `Q` if it has one. -/
inductive Kept (Q : α → Prop) : EStateM.Result Failure (World σ) α → Prop where
  | ok {a : α} {w : World σ} (hw : C.Inv w) (ha : Q a) : Kept Q (.ok a w)
  | error {f : Failure} {w : World σ} (hw : C.Inv w) (hf : C.Failing f) : Kept Q (.error f w)

/-- A computation ends as the contract asks from wherever it may start. -/
def Keeps (Q : α → Prop) (m : Eval σ α) : Prop := ∀ w, C.Inv w → C.Kept Q (m w)

variable {C} {P : α → Prop} {Q : β → Prop}

/-! ## Steps -/

theorem keeps_pure {a : α} (ha : P a) : C.Keeps P (pure a) := fun _ hw => .ok hw ha

theorem keeps_throw {f : Failure} (hf : C.Failing f) : C.Keeps P (throw f) :=
  fun _ hw => .error hw hf

theorem Keeps.imp {P' : α → Prop} {m : Eval σ α} (hm : C.Keeps P m) (h : ∀ a, P a → P' a) :
    C.Keeps P' m := by
  intro w hw
  have hkept := hm w hw
  generalize m w = r at hkept
  cases hkept with
  | ok hu ha => exact .ok hu (h _ ha)
  | error hu hf => exact .error hu hf

theorem Keeps.bind {m : Eval σ α} {f : α → Eval σ β} (hm : C.Keeps P m)
    (hf : ∀ a, P a → C.Keeps Q (f a)) : C.Keeps Q (m >>= f) := by
  intro w hw
  rw [bind_apply]
  have hkept := hm w hw
  generalize m w = r at hkept
  cases hkept with
  | ok hu ha => exact hf _ ha _ hu
  | error hu he => exact .error hu he

theorem keeps_update {f : Environment → Environment}
    (h : ∀ w, C.Inv w → C.Inv { w with env := f w.env }) : C.Keeps (fun _ => True) (update f) :=
  fun w hw => .ok (h w hw) trivial

theorem keeps_note (level : LogLevel) (message : Text) :
    C.Keeps (fun _ => True) (Eval.note level message) :=
  fun _ hw => .ok (C.note _ hw) trivial

theorem keeps_pick {items : List α} (hne : items ≠ []) : C.Keeps (· ∈ items) (pick src items) := by
  intro w hw
  obtain ⟨hanswer, hinv⟩ := C.choose (List.length_pos_iff.2 hne) hw
  have hchoose : Eval.choose src items.length w = .ok (src.choose items.length w.source).1
      { w with source := (src.choose items.length w.source).2,
               asked := items.length :: w.asked } := rfl
  rw [pick, bind_apply, hchoose]
  by_cases hlt : (src.choose items.length w.source).1 < items.length
  · simp only [List.getElem?_eq_getElem hlt]
    exact .ok hinv (List.getElem_mem hlt)
  · simp only [List.getElem?_eq_none (Nat.le_of_not_lt hlt)]
    exact .error hinv (hanswer.resolve_left hlt).1

theorem keeps_takeOut {name : Expr} {key : Text} {pool : Pool} {w : World σ}
    (hname : C.Fine (.draw name)) (hw : C.Inv w) (hpool : w.env.get? key = some pool) :
    C.Kept C.Fine (takeOut src key pool w) := by
  obtain ⟨hne, -⟩ := C.pool hw hpool
  obtain ⟨hanswer, hinv⟩ := C.choose (List.length_pos_iff.2 hne) hw
  rw [takeOut_apply]
  by_cases hlt : (src.choose pool.length w.source).1 < pool.length
  · obtain ⟨e, env, hremove, he, henv⟩ := C.remove hname hinv hpool hlt
    rw [hremove]
    exact .ok henv he
  · rw [Environment.remove_of_get? hpool, List.getElem?_eq_none (Nat.le_of_not_lt hlt)]
    exact .error hinv ((hanswer.resolve_left hlt).2 _)

/-! ## Expressions -/

theorem keeps_texts {runs : List (Eval σ Value)} (h : ∀ run ∈ runs, C.Keeps C.Answer run) :
    C.Keeps (fun _ => True) (texts runs) := by
  induction runs with
  | nil => exact keeps_pure trivial
  | cons run runs ih =>
      obtain ⟨hrun, hruns⟩ := List.forall_mem_cons.1 h
      exact hrun.bind fun v _ => (ih hruns).bind fun vs _ => keeps_pure trivial

theorem keeps_perform {runs : List (Eval σ Value)} (h : ∀ run ∈ runs, C.Keeps C.Answer run) :
    C.Keeps C.Answer (perform runs) := by
  have hchain : C.Keeps C.Answer (texts runs >>= fun ts => pure (some ts.flatten)) :=
    (keeps_texts h).bind fun ts _ => keeps_pure (C.text _)
  match runs with
  | [] => exact hchain
  | [run] => exact h run List.mem_cons_self
  | _ :: _ :: _ => exact hchain

variable {member : Expr → Eval σ Value}

theorem keeps_reference (hmember : ∀ e, C.Fine e → C.Keeps C.Answer (member e))
    {name : Eval σ Value} (hname : C.Keeps C.Answer name) :
    C.Keeps C.Answer (reference src member name) := by
  apply hname.bind
  intro v _ w hw
  rw [look_apply]
  cases hpool : w.env.get? v.text with
  | none => exact (keeps_note _ _).bind (fun _ _ => keeps_pure (C.text _)) w hw
  | some pool =>
      obtain ⟨hne, hfine⟩ := C.pool hw hpool
      exact (keeps_pick hne).bind (fun e he => hmember e (hfine e he)) w hw

theorem keeps_draw (hmember : ∀ e, C.Fine e → C.Keeps C.Answer (member e)) {e : Expr}
    (he : C.Fine (.draw e)) {name : Eval σ Value} (hname : C.Keeps C.Answer name) :
    C.Keeps C.Answer (Eval.draw src member name) := by
  apply hname.bind
  intro v _ w hw
  rw [look_apply]
  cases hpool : w.env.get? v.text with
  | none => exact .error hw (C.undefined _)
  | some pool =>
      -- the pool was found in this world, so the step after the look must start from it
      simp only
      rw [bind_apply]
      have htaken := keeps_takeOut he hw hpool
      generalize takeOut src v.text pool w = r at htaken
      cases htaken with
      | ok hu hfine => exact hmember _ hfine _ hu
      | error hu hf => exact .error hu hf

theorem keeps_bindPool {op : Binding} {name : Text} {items : List Expr}
    {runs : List (Eval σ Value)} (hname : Rebinds C.Inv C.Fine name)
    (hitems : ∀ e ∈ items, C.Fine e) (hruns : ∀ run ∈ runs, C.Keeps C.Answer run) :
    C.Keeps (· = none) (bindPool src op name items runs) := by
  have hput : ∀ pool : Pool, (∀ e ∈ pool, C.Fine e) →
      C.Keeps (· = none) (update (·.put name pool) >>= fun _ => pure none : Eval σ Value) :=
    fun pool hpool => (keeps_update fun w hw => (hname w hw).1 pool hpool).bind
      fun _ _ => keeps_pure rfl
  have hdelete : C.Keeps (· = none)
      (update (·.delete name) >>= fun _ => pure none : Eval σ Value) :=
    (keeps_update fun w hw => (hname w hw).2).bind fun _ _ => keeps_pure rfl
  have hlit : ∀ t, ∀ e ∈ [Expr.lit t], C.Fine e :=
    fun t => List.forall_mem_singleton.2 (C.lit t)
  cases op with
  | define => exact hput items hitems
  | defineEval =>
      refine (keeps_texts hruns).bind fun ts _ => hput _ ?_
      intro e he
      obtain ⟨t, -, rfl⟩ := List.mem_map.1 he
      exact C.lit t
  | select =>
      cases items with
      | nil => exact hdelete
      | cons e es =>
          refine (keeps_pick (by simp)).bind fun f hf => hput _ ?_
          exact List.forall_mem_singleton.2 (hitems f hf)
  | selectEval =>
      cases runs with
      | nil => exact hdelete
      | cons run runs =>
          exact (keeps_pick (by simp)).bind fun r hr =>
            (hruns r hr).bind fun v _ => hput _ (hlit v.text)

mutual

theorem keeps_operandRuns (hmember : ∀ e, C.Fine e → C.Keeps C.Answer (member e)) (e : Expr)
    (he : C.Fine e) : ∀ run ∈ operandRuns src member e, C.Keeps C.Answer run := by
  cases e with
  | lit t => exact List.forall_mem_singleton.2 (keeps_pure (C.text t))
  | mix l r =>
      obtain ⟨hl, hr⟩ := C.mix he
      have hright := keeps_perform (keeps_operandRuns hmember r hr)
      exact List.forall_mem_append.2
        ⟨keeps_operandRuns hmember l hl, List.forall_mem_singleton.2 hright⟩
  | ref name =>
      have hname := keeps_perform (keeps_operandRuns hmember name (C.ref he))
      exact List.forall_mem_singleton.2 (keeps_reference hmember hname)
  | draw name =>
      have hname := keeps_perform (keeps_operandRuns hmember name (C.draw he))
      exact List.forall_mem_singleton.2 (keeps_draw hmember he hname)
  | bind op name items =>
      obtain ⟨hitems, hnone, hname⟩ := C.bind he
      have hbind : C.Keeps (· = none) (bindPool src op name items (itemRuns src member items)) :=
        keeps_bindPool hname hitems (keeps_itemRuns hmember items hitems)
      exact List.forall_mem_singleton.2 (hbind.imp fun v hv => hv ▸ hnone)
  | missing => exact List.forall_mem_singleton.2 (keeps_throw (C.missing he))

theorem keeps_itemRuns (hmember : ∀ e, C.Fine e → C.Keeps C.Answer (member e)) (es : List Expr)
    (hes : ∀ e ∈ es, C.Fine e) : ∀ run ∈ itemRuns src member es, C.Keeps C.Answer run := by
  cases es with
  | nil => simp [itemRuns]
  | cons e es =>
      obtain ⟨he, hes⟩ := List.forall_mem_cons.1 hes
      exact List.forall_mem_cons.2 ⟨keeps_perform (keeps_operandRuns hmember e he),
        keeps_itemRuns hmember es hes⟩

end

theorem keeps_expr (hmember : ∀ e, C.Fine e → C.Keeps C.Answer (member e)) {e : Expr}
    (he : C.Fine e) : C.Keeps C.Answer (expr src member e) :=
  keeps_perform (keeps_operandRuns hmember e he)

/-- The members of pools are evaluated as the contract asks, however deep. -/
theorem keeps_memberAt {limit : Limit} (hlimit : C.Failing limit.failure) (depth : Nat) (e : Expr)
    (he : C.Fine e) : C.Keeps C.Answer (memberAt src limit depth e) := by
  induction depth generalizing e with
  | zero => exact keeps_throw hlimit
  | succ depth ih => exact keeps_expr ih he

end Contract

end Eval

end PoolProse
