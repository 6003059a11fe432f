import PoolProse.Proofs.Contract
import PoolProse.Proofs.OrderedBindings
import PoolProse.Proofs.Stated
import PoolProse.Proofs.Steps

/-!
# What pools are made of

Documents bind names to pools with members, and the members are texts, groups and chains of them.
Evaluation keeps to this, so in every session a reference or a draw has a text, and nothing but a
draw without a pool or too great a depth is at fault.
-/
namespace PoolProse

/-! ## Plain expressions -/

namespace Expr

/-- The expression is made of texts, groups and chains: nothing in it is a binding or missing. -/
def isPlain : Expr → Bool
  | .lit _ => true
  | .mix l r => l.isPlain && r.isPlain
  | .ref e => e.isPlain
  | .draw e => e.isPlain
  | .bind .. => false
  | .missing => false

theorem isPlain_mixAll {es : List Expr} (h : ∀ e ∈ es, e.isPlain = true) :
    (mixAll es).isPlain = true :=
  mixAll_of_forall (P := fun e => e.isPlain = true) rfl
    (fun _ _ hl hr => Bool.and_eq_true_iff.2 ⟨hl, hr⟩) h

theorem Row.isPlain {P : Text → Prop} {es : List Expr} (h : Row P es) :
    ∀ e ∈ es, e.isPlain = true := by
  induction h with
  | nil => simp
  | lit _ _ _ _ ih => exact List.forall_mem_cons.2 ⟨rfl, ih⟩
  | @group b name es _ _ ihname ih =>
      refine List.forall_mem_cons.2 ⟨?_, ih⟩
      cases b <;> exact isPlain_mixAll ihname

/-- A statement is plain, or it binds a name to plain items. -/
theorem Stated.cases {e : Expr} (h : e.Stated) :
    e.isPlain = true ∨
      ∃ op name items, e = .bind op name items ∧ ∀ e ∈ items, e.isPlain = true := by
  cases h with
  | text hrow _ => exact Or.inl (isPlain_mixAll hrow.isPlain)
  | binding _ _ hitems =>
      refine Or.inr ⟨_, _, _, rfl, ?_⟩
      intro e he
      obtain ⟨es, hrow, rfl⟩ := hitems e he
      exact isPlain_mixAll hrow.isPlain

theorem isBinding_of_isPlain {e : Expr} (h : e.isPlain = true) : e.isBinding = false := by
  cases e <;> first | rfl | cases h

end Expr

/-! ## Plain environments -/

namespace Environment

variable {env : Environment} {key : Text} {pool : Pool} {i : Nat}

/-- Every pool has members, and all of them are plain. -/
structure Plain (env : Environment) : Prop extends env.Sound where
  members : ∀ b ∈ env.entries, ∀ e ∈ b.2, e.isPlain = true

theorem plain_empty : Plain empty where
  toSound := sound_empty
  members b hb := by cases hb

theorem mem_of_mem_delete {b : Text × Pool} (h : b ∈ (env.delete key).entries) :
    b ∈ env.entries := by
  unfold delete at h
  split at h
  · exact h
  · exact List.mem_of_mem_eraseIdx h

theorem mem_put_entries {b : Text × Pool} (h : b ∈ (env.put key pool).entries) :
    b ∈ env.entries ∨ b = (key, pool) := by
  unfold put at h
  split at h
  · exact Or.inl (mem_of_mem_delete h)
  · split at h
    · exact List.mem_or_eq_of_mem_set h
    · simpa using h

theorem Plain.delete (h : env.Plain) (key : Text) : (env.delete key).Plain where
  toSound := h.toSound.delete key
  members b hb := h.members b (mem_of_mem_delete hb)

theorem Plain.put (h : env.Plain) (key : Text) (hpool : ∀ e ∈ pool, e.isPlain = true) :
    (env.put key pool).Plain where
  toSound := h.toSound.put key pool
  members b hb := by
    rcases mem_put_entries hb with hb | rfl
    · exact h.members b hb
    · exact hpool

theorem Sound.mem_of_get? (h : env.Sound) (hpool : env.get? key = some pool) :
    (key, pool) ∈ env.entries := by
  rw [h.get?_eq_lookup] at hpool
  obtain ⟨before, after, hentries, -⟩ := List.lookup_eq_some_iff.1 hpool
  rw [hentries]
  simp

theorem Sound.remove_of_lt (h : env.Sound) (hpool : env.get? key = some pool)
    (hi : i < pool.length) :
    ∃ env', env.remove key i = .ok (pool[i], env') ∧ env'.Sound ∧
      ∀ b ∈ env'.entries, b ∈ env.entries ∨ b = (key, pool.eraseIdx i) := by
  have hbindings : Bindings.remove env.entries key i =
      .ok (pool[i], Bindings.put env.entries key (pool.eraseIdx i)) := by
    simp [Bindings.remove, ← h.get?_eq_lookup, hpool, Bindings.member?, hi]
  rcases h.remove key i with ⟨e, env', hremove, hentries, hsound⟩ | ⟨f, -, hf⟩
  · rw [hbindings, ← h.put_entries] at hentries
    obtain ⟨rfl, hput⟩ := Prod.mk.inj (Except.ok.inj hentries)
    exact ⟨env', hremove, hsound, fun b hb => mem_put_entries (hput ▸ hb)⟩
  · rw [hbindings] at hf
    cases hf

theorem Plain.remove (h : env.Plain) (hpool : env.get? key = some pool) (hi : i < pool.length) :
    ∃ e env', env.remove key i = .ok (e, env') ∧ e.isPlain = true ∧ env'.Plain := by
  obtain ⟨env', hremove, hsound, hentries⟩ := h.toSound.remove_of_lt hpool hi
  have hplain := h.members _ (h.toSound.mem_of_get? hpool)
  refine ⟨_, env', hremove, hplain _ (List.getElem_mem hi), hsound, ?_⟩
  intro b hb
  rcases hentries b hb with hb | rfl
  · exact h.members b hb
  · exact fun e he => hplain e (List.mem_of_mem_eraseIdx he)

end Environment

/-! ## Evaluating plain expressions -/

/-- The failures that are faults of a document: a draw from a pool that is not there, and a depth
beyond the limit. -/
def Failure.IsFault (depth : Nat) (f : Failure) : Prop :=
  (∃ name, f = .fault (.undefinedDraw name)) ∨ f = .fault (.recursionLimit depth)

variable {σ : Type} {src : Source σ}

/-- Plain expressions have a text, and leave plain pools. -/
def plainContract (hsrc : src.Lawful) (depth : Nat) : Eval.Contract src where
  Inv w := w.env.Plain
  Fine e := e.isPlain = true
  Answer v := v.isSome = true
  Failing := Failure.IsFault depth
  lit _ := rfl
  mix h := Bool.and_eq_true_iff.1 h
  ref h := h
  draw h := h
  bind h := by cases h
  text _ := rfl
  missing h := by cases h
  undefined name := Or.inl ⟨name, rfl⟩
  note _ h := h
  choose hn h := ⟨Or.inl (hsrc _ _ hn), h⟩
  pool h hpool := by
    have hmem := h.toSound.mem_of_get? hpool
    exact ⟨h.toSound.pools _ hmem, h.members _ hmem⟩
  remove _ h hpool hi := h.remove hpool hi

open Eval in
theorem keeps_stated (hsrc : src.Lawful) (depth k : Nat) {e : Expr} (he : e.Stated) :
    (plainContract hsrc depth).Keeps (fun v => v.isSome = !e.isBinding)
      (expr src (memberAt src (.atMost depth) k) e) := by
  have hlimit : (plainContract hsrc depth).Failing (Limit.atMost depth).failure := Or.inr rfl
  have hmember := Contract.keeps_memberAt hlimit k
  rcases he.cases with hplain | ⟨op, name, items, rfl, hitems⟩
  · rw [Expr.isBinding_of_isPlain hplain]
    exact Contract.keeps_expr hmember hplain
  · have hname : Rebinds (plainContract hsrc depth).Inv (plainContract hsrc depth).Fine name :=
      fun w hw => ⟨fun pool hpool => Environment.Plain.put hw name hpool,
        Environment.Plain.delete hw name⟩
    have hbind : (plainContract hsrc depth).Keeps (· = none)
        (bindPool src op name items (itemRuns src (memberAt src (.atMost depth) k) items)) :=
      Contract.keeps_bindPool hname hitems (Contract.keeps_itemRuns hmember items hitems)
    exact hbind.imp fun v hv => by rw [hv]; rfl

/-- What a statement does in plain surroundings. -/
theorem evaluate_stated (hsrc : src.Lawful) (depth : Nat) {e : Expr} (he : e.Stated)
    {env : Environment} (henv : env.Plain) (source : σ) :
    (evaluate src (.atMost depth) e env source).env.Plain ∧
      ((∃ v, (evaluate src (.atMost depth) e env source).result = .ok v ∧
          v.isSome = !e.isBinding) ∨
        ∃ f, (evaluate src (.atMost depth) e env source).result = .error f ∧ f.IsFault depth) := by
  have hkept := keeps_stated hsrc depth depth he { env, source } henv
  have hbudget : (Limit.atMost depth).budget = depth := rfl
  rw [evaluate_eq_limited, limited, hbudget]
  generalize Eval.expr src (Eval.memberAt src (.atMost depth) depth) e { env, source } = r at hkept
  cases hkept with
  | ok hw hv => exact ⟨hw, Or.inl ⟨_, rfl, hv⟩⟩
  | error hw hf => exact ⟨henv, Or.inr ⟨_, rfl, hf⟩⟩

/-! ## Sessions -/

theorem RandomStream.scale_lt {n : Nat} (hn : 0 < n) (tries : Nat) (w : UInt64)
    (s : RandomStream) : (scale n tries w s).1 < n := by
  have hword : ∀ w : UInt64, w.toNat * n / Nat.pow 2 64 < n := fun w =>
    Nat.div_lt_of_lt_mul (Nat.mul_lt_mul_of_pos_right w.toNat_lt hn)
  induction tries generalizing w s with
  | zero => exact hword w
  | succ tries ih =>
      unfold scale
      split
      · exact ih _ _
      · exact hword w

theorem RandomStream.lawful : RandomStream.source.Lawful := by
  intro n s hn
  change (below n s).1 < n
  unfold below
  split
  · have hle : s.next.1.toNat &&& (n - 1) ≤ n - 1 := Nat.and_le_right
    omega
  · exact scale_lt hn _ _ _

namespace Session

variable {depth : Nat}

theorem Steps.plain (hsrc : src.Lawful) {env env' : Environment} {source source' : σ}
    {es : List Expr} {values : List Value} {log : Log}
    (h : Steps src (.atMost depth) env source es values log env' source')
    (hes : ∀ e ∈ es, e.Stated) (henv : env.Plain) :
    env'.Plain ∧ List.Forall₂ (fun e v => v.isSome = !e.isBinding) es values := by
  induction h with
  | nil => exact ⟨henv, .nil⟩
  | @cons env env' env'' source source' source'' e es v vs asked log logs he _ ih =>
      obtain ⟨hstated, hes⟩ := List.forall_mem_cons.1 hes
      obtain ⟨henv', hvalue⟩ := evaluate_stated hsrc depth hstated henv source
      rw [he] at henv' hvalue
      obtain ⟨hplain, hvalues⟩ := ih hes henv'
      rcases hvalue with ⟨v', hv, hsome⟩ | ⟨f, hf, -⟩
      · obtain rfl := Except.ok.inj hv
        exact ⟨hplain, .cons hsome hvalues⟩
      · cases hf

theorem stated_of_mem_expressions [Locator] {file text : Text} {d : Document}
    (hd : Document.parse file text = .ok d) : ∀ e ∈ d.expressions, e.Stated := by
  intro e he
  obtain ⟨s, hs, hse⟩ := List.mem_filterMap.1 he
  cases s with
  | error i => cases hse
  | ok e' =>
      obtain rfl := Option.some.inj hse
      exact Document.stated_of_mem hd hs

/-- Every session keeps its pools plain, whatever documents it evaluates and however they end. -/
theorem Reached.plain [Locator] (hsrc : src.Lawful) {s : Session σ} (hs : Reached src s)
    (hlimit : s.limit = .atMost depth) : s.env.Plain := by
  induction hs with
  | start source limit => exact Environment.plain_empty
  | @eval s s' report file text _ h ih =>
      obtain ⟨d, hd, hs'⟩ := exists_parse_of_eval h
      replace hlimit := (limit_of_eval h).symm.trans hlimit
      obtain ⟨done, rest, values, log, source', hexpr, hsteps, -⟩ := evalDocument_cases src s d
      rw [hs', hlimit] at hsteps
      refine (hsteps.plain hsrc ?_ (ih hlimit)).1
      intro e he
      exact stated_of_mem_expressions hd e (by simp [hexpr, he])

/-- In every session that draws its choices as it should, every pool has members, and all of them
are plain. A document that can be read is evaluated statement by statement. Every statement that
does not fail has a text, unless it is a binding. If one fails, it is a draw from a pool that is not
there or too great a depth. -/
theorem reached_plain [Locator] :
    RandomStream.source.Lawful ∧
    ∀ {σ : Type} (src : Source σ) (s : Session σ) (depth : Nat), src.Lawful → Reached src s →
      s.limit = .atMost depth →
      s.env.Plain ∧
      ∀ file text d, Document.parse file text = .ok d →
        (∃ report s' done rest values log source', eval src s file text = .ok (report, s') ∧
          d.expressions = done ++ rest ∧
          Steps src s.limit s.env s.source done values log s'.env source' ∧
          report.outputs = values.reduceOption ∧
          List.Forall₂ (fun e v => v.isSome = !e.isBinding) done values ∧
          ((rest = [] ∧ report.failure = none) ∨
            ∃ e after f, rest = e :: after ∧
              (evaluate src s.limit e s'.env source').result = .error f ∧
              report.failure = some f ∧ f.IsFault depth)) ∧
        ∀ done values log env source', done <+: d.expressions →
          Steps src s.limit s.env s.source done values log env source' → env.Plain := by
  refine ⟨RandomStream.lawful, ?_⟩
  intro σ src s depth hsrc hs hlimit
  have hplain := hs.plain hsrc hlimit
  refine ⟨hplain, ?_⟩
  intro file text d hd
  have hstated := stated_of_mem_expressions hd
  constructor
  · obtain ⟨done, rest, values, log, source', hexpr, hsteps, houtputs, hend⟩ :=
      evalDocument_cases src s d
    rw [hexpr] at hstated
    obtain ⟨hdone, hrest⟩ := List.forall_mem_append.1 hstated
    obtain ⟨henv, hvalues⟩ := (hlimit ▸ hsteps).plain hsrc hdone hplain
    refine ⟨(evalDocument (evaluate src) s d).1, (evalDocument (evaluate src) s d).2, done, rest,
      values, log, source', eval_of_parse hd, hexpr, hsteps, houtputs, hvalues, ?_⟩
    rcases hend with hend | ⟨e, after, f, rfl, hf, hfailure⟩
    · exact Or.inl hend
    · have hvalue := (evaluate_stated hsrc depth (hrest e List.mem_cons_self) henv source').2
      rw [← hlimit, hf] at hvalue
      rcases hvalue with ⟨v, hv, -⟩ | ⟨g, hg, hfault⟩
      · cases hv
      · obtain rfl := Except.error.inj hg
        exact Or.inr ⟨e, after, f, rfl, hf, hfailure, hfault⟩
  · intro done values log env source' hdone hsteps
    exact ((hlimit ▸ hsteps).plain hsrc (fun e he => hstated e (hdone.subset he)) hplain).1

/-- A session in which a pool was bound goes on with a text and another binding. -/
theorem reached_plain_pet :
    ∃ (src : Source Unit) (first second : Report) (s s' : Session Unit), src.Lawful ∧
      eval src { source := (), limit := .atMost 9 } [] (utf8 "pet :: cat | a (dog)\n") =
        .ok (first, s) ∧
      Reached src s ∧ s.limit = .atMost 9 ∧ s.env.Plain ∧
      eval src s [] (utf8 "a cat\nx :: (pet) \x7bpet\x7d\n)") = .ok (second, s') ∧
      second.outputs = [utf8 "a cat"] ∧ second.failure = none ∧ s'.env.Plain := by
  let src : Source Unit := ⟨fun _ s => (0, s)⟩
  have hsrc : src.Lawful := fun _ _ h => h
  obtain ⟨d₁, hd₁, -⟩ := Document.parse_locatable []
    (show Document.Locatable (utf8 "pet :: cat | a (dog)\n") by decide +kernel)
  obtain ⟨d₂, hd₂, -⟩ := Document.parse_locatable []
    (show Document.Locatable (utf8 "a cat\nx :: (pet) \x7bpet\x7d\n)") by decide +kernel)
  have hstart : Reached src { source := (), limit := .atMost 9 } := .start () (.atMost 9)
  obtain ⟨first, s, h₁⟩ : ∃ first s, eval src { source := (), limit := .atMost 9 } []
      (utf8 "pet :: cat | a (dog)\n") = .ok (first, s) := ⟨_, _, eval_of_parse hd₁⟩
  have hs := hstart.eval h₁
  have hlimit : s.limit = .atMost 9 := limit_of_eval h₁
  obtain ⟨-, hplain⟩ := reached_plain
  obtain ⟨henv, hdocument⟩ := hplain src s 9 hsrc hs hlimit
  obtain ⟨⟨second, s', -, -, -, -, -, h₂, -⟩, -⟩ := hdocument [] _ d₂ hd₂
  have hrun : ((eval src { source := (), limit := .atMost 9 } []
      (utf8 "pet :: cat | a (dog)\n")).toOption.bind fun r =>
        (eval src r.2 [] (utf8 "a cat\nx :: (pet) \x7bpet\x7d\n)")).toOption.map fun r =>
          (r.1.outputs, r.1.failure)) = some ([utf8 "a cat"], none) := by
    decide +kernel
  simp only [h₁, Except.toOption, Option.bind_some, h₂, Option.map_some, Option.some.injEq,
    Prod.mk.injEq] at hrun
  exact ⟨src, first, second, s, s', hsrc, h₁, hs, hlimit, henv, h₂, hrun.1, hrun.2,
    (hplain src s' 9 hsrc (hs.eval h₂) ((limit_of_eval h₂).trans hlimit)).1⟩

end Session

end PoolProse
