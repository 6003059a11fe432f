import PoolProse.Proofs.BigStep
import PoolProse.Proofs.PlainPools

/-!
# Choices and removals never go wrong

Every choice is made among as many things as there are to choose from, and there is at least one. A
member is taken out of a pool that is there, and it is one of its members. So evaluation ends with a
value or with a fault of the document, whatever the expression and whatever it does to the pools on
the way.
-/
namespace PoolProse

/-! ## Environments that can be made -/

/-- The environment, or the one that it is a copy of, was made from an empty one by requests. -/
def Environment.Reachable (env : Environment) : Prop :=
  ∃ rs, env ∈ (Environment.interface.run [Environment.empty] rs).2

theorem Environment.Reachable.sound {env : Environment} (h : env.Reachable) : env.Sound := by
  obtain ⟨rs, hmem⟩ := h
  have hall := (Interface.run_refines interface_refines rs
    (.cons ⟨sound_empty, rfl⟩ .nil : List.Forall₂ _ [empty] [[]])).2
  generalize (interface.run [empty] rs).2 = envs at hmem hall
  generalize (Bindings.interface.run [[]] rs).2 = rows at hall
  induction hall with
  | nil => cases hmem
  | cons hhead _ ih =>
      rcases List.mem_cons.1 hmem with rfl | hmem
      · exact hhead.1
      · exact ih hmem

/-! ## Safe events -/

namespace Event

/-- The bound of the choice that the event makes, if it makes one. -/
def bound? : Event → Option Nat
  | .entered _ => none
  | .picked bound _ _ => some bound
  | .drew bound _ _ _ => some bound

/-- The bound is the length of the very list or pool that the answer is for, the answer is below it,
and for a draw the pool is there and the member can be taken out of it. -/
def Safe : Event → Prop
  | .entered _ => True
  | .picked bound answer items => bound = items.length ∧ 1 ≤ bound ∧ answer < bound
  | .drew bound answer env key =>
    ∃ pool, env.get? key = some pool ∧ bound = pool.length ∧ 1 ≤ bound ∧ answer < bound ∧
      ∃ e env', pool[answer]? = some e ∧ env.remove key answer = .ok (e, env')

end Event

namespace Eval

variable {σ α β : Type} {src : Source σ} {w u u' : World σ} {events before after : List Event}
  {a : α} {r : Ended σ α}

/-- What is known of a computation from the events that happened. -/
structure Account (w : World σ) (events : List Event) (r : Ended σ α) : Prop where
  sound : (left r).env.Sound
  safe : ∀ event ∈ events, event.Safe
  asked : (left r).asked = (events.filterMap Event.bound?).reverse ++ w.asked
  fault : ∀ f u, r = .error f u → ∃ g, f = .fault g
  missing : (∃ u, r = .error (.fault .unhandledExpression) u) ↔ .entered .missing ∈ events

namespace Account

theorem start (hw : w.env.Sound) (a : α) : Account w [] (.ok a w) where
  sound := hw
  safe := by simp
  asked := rfl
  fault := by simp
  missing := by simp

theorem trans (h : Account w before (.ok a u)) {r : Ended σ β} (h' : Account u after r) :
    Account w (before ++ after) r where
  sound := h'.sound
  safe := List.forall_mem_append.2 ⟨h.safe, h'.safe⟩
  asked := by
    have hu : u.asked = (before.filterMap Event.bound?).reverse ++ w.asked := h.asked
    rw [h'.asked, hu, List.filterMap_append, List.reverse_append, List.append_assoc]
  fault := h'.fault
  missing := by
    have hbefore : .entered .missing ∉ before := fun hmem => by simpa using h.missing.2 hmem
    rw [h'.missing, List.mem_append]
    simp [hbefore]

theorem enter (h : Account w events r) {e : Expr} (he : e ≠ .missing) :
    Account w (.entered e :: events) r where
  sound := h.sound
  safe := List.forall_mem_cons.2 ⟨trivial, h.safe⟩
  asked := h.asked
  fault := h.fault
  missing := by
    rw [h.missing, List.mem_cons]
    simp [he.symm]

theorem answer (h : Account w events (.ok a u)) {b : β} {env : Environment} (henv : env.Sound)
    (log : Log) : Account w events (.ok b { u with env, log }) where
  sound := henv
  safe := h.safe
  asked := h.asked
  fault := by simp
  missing := by simpa using h.missing

theorem failed {f : Failure} (h : Account w events (.error f u : Ended σ α)) :
    Account w events (.error f u : Ended σ β) where
  sound := h.sound
  safe := h.safe
  asked := h.asked
  fault g u' hg := h.fault g u' (by cases hg; rfl)
  missing := by simpa using h.missing

theorem refused (h : Account w events (.ok a u)) {g : Fault} (hg : g ≠ .unhandledExpression) :
    Account w events (.error (.fault g) u : Ended σ β) where
  sound := h.sound
  safe := h.safe
  asked := h.asked
  fault f u' hf := by cases hf; exact ⟨g, rfl⟩
  missing := by simpa [hg] using h.missing

end Account

/-! ## The steps that choose -/

theorem account_pick (hsrc : src.Lawful) {items : List Expr} (hne : items ≠ [])
    (hw : w.env.Sound) {r : Ended σ Expr} (h : pick src items w = r) :
    Account w [pickEvent src items w] r := by
  have hpos := List.length_pos_iff.2 hne
  have hlt := hsrc items.length w.source hpos
  have hchoose : choose src items.length w = .ok (src.choose items.length w.source).1
      { w with source := (src.choose items.length w.source).2,
               asked := items.length :: w.asked } := rfl
  rw [pick, bind_of_ok hchoose, List.getElem?_eq_getElem hlt] at h
  subst h
  exact
    { sound := hw
      safe := List.forall_mem_singleton.2 ⟨rfl, hpos, hlt⟩
      asked := rfl
      fault := by simp [pure, EStateM.pure]
      missing := by simp [pure, EStateM.pure, pickEvent] }

theorem account_takeOut (hsrc : src.Lawful) {key : Text} {pool : Pool} (hw : w.env.Sound)
    (hpool : w.env.get? key = some pool) {r : Ended σ Expr} (h : takeOut src key pool w = r) :
    Account w [takeOutEvent src key pool w] r := by
  have hpos := List.length_pos_iff.2 (hw.pools _ (hw.mem_of_get? hpool))
  have hlt := hsrc pool.length w.source hpos
  obtain ⟨env', hremove, hsound, -⟩ := hw.remove_of_lt hpool hlt
  rw [takeOut_apply, hremove] at h
  subst h
  exact
    { sound := hsound
      safe := List.forall_mem_singleton.2
        ⟨pool, hpool, rfl, hpos, hlt, _, env', List.getElem?_eq_getElem hlt, hremove⟩
      asked := rfl
      fault := by simp
      missing := by simp [takeOutEvent] }

/-! ## Every evaluation is accounted for -/

mutual

theorem Evaluates.account {src : Source σ} {limit : Limit} {depth : Nat} {e : Expr} {w : World σ}
    {events : List Event} {r : Ended σ Value} (hsrc : src.Lawful) :
    Evaluates src limit depth e w events r → w.env.Sound → Account w events r
  | .lit, hw => (Account.start hw _).enter (by simp)
  | .missing, hw =>
      { sound := hw
        safe := List.forall_mem_singleton.2 trivial
        asked := rfl
        fault := by simp
        missing := by simp }
  | .mix h, hw =>
      have hall := h.account hsrc hw
      (hall.answer hall.sound _).enter (by simp)
  | .mixFails h, hw => (h.account hsrc hw).failed.enter (by simp)
  | .refFails hname, hw => (hname.account hsrc hw).enter (by simp)
  | .refUndefined hname hpool, hw =>
      have hkey := hname.account hsrc hw
      (hkey.answer hkey.sound _).enter (by simp)
  | .refBadChoice hname hpool hpick, hw =>
      have hkey := hname.account hsrc hw
      have hne := hkey.sound.pools _ (hkey.sound.mem_of_get? hpool)
      (hkey.trans (account_pick hsrc hne hkey.sound hpick).failed).enter (by simp)
  | .ref hname hpool hpick hmember, hw =>
      have hkey := hname.account hsrc hw
      have hne := hkey.sound.pools _ (hkey.sound.mem_of_get? hpool)
      have hchoice := account_pick hsrc hne hkey.sound hpick
      (hkey.trans (hchoice.trans (hmember.account hsrc hchoice.sound))).enter (by simp)
  | .drawFails hname, hw => (hname.account hsrc hw).enter (by simp)
  | .drawUndefined hname hpool, hw =>
      ((hname.account hsrc hw).refused (by simp)).enter (by simp)
  | .drawBadRemoval hname hpool htake, hw =>
      have hkey := hname.account hsrc hw
      (hkey.trans (account_takeOut hsrc hkey.sound hpool htake).failed).enter (by simp)
  | .draw hname hpool htake hmember, hw =>
      have hkey := hname.account hsrc hw
      have hchoice := account_takeOut hsrc hkey.sound hpool htake
      (hkey.trans (hchoice.trans (hmember.account hsrc hchoice.sound))).enter (by simp)
  | .define, hw => ((Account.start hw ()).answer (hw.put _ _) _).enter (by simp)
  | .defineEval h, hw =>
      have hall := h.account hsrc hw
      (hall.answer (hall.sound.put _ _) _).enter (by simp)
  | .defineEvalFails h, hw => (h.account hsrc hw).failed.enter (by simp)
  | .selectNothing hop, hw => ((Account.start hw ()).answer (hw.delete _) _).enter (by simp)
  | .selectBadChoice hop hne hpick, hw => (account_pick hsrc hne hw hpick).failed.enter (by simp)
  | .select hne hpick, hw =>
      have hchoice := account_pick hsrc hne hw hpick
      (hchoice.answer (hchoice.sound.put _ _) _).enter (by simp)
  | .selectEvalFails hne hpick h, hw =>
      have hchoice := account_pick hsrc hne hw hpick
      (hchoice.trans (h.account hsrc hchoice.sound)).enter (by simp)
  | .selectEval hne hpick h, hw =>
      have hchoice := account_pick hsrc hne hw hpick
      have hitem := h.account hsrc hchoice.sound
      (hchoice.trans (hitem.answer (hitem.sound.put _ _) _)).enter (by simp)

theorem EvaluatesAll.account {src : Source σ} {limit : Limit} {depth : Nat} {es : List Expr}
    {w : World σ} {events : List Event} {r : Ended σ (List Text)} (hsrc : src.Lawful) :
    EvaluatesAll src limit depth es w events r → w.env.Sound → Account w events r
  | .nil, hw => .start hw _
  | .fails h, hw => (h.account hsrc hw).failed
  | .laterFails h hrest, hw =>
      have hfirst := h.account hsrc hw
      hfirst.trans (hrest.account hsrc hfirst.sound)
  | .cons h hrest, hw =>
      have hfirst := h.account hsrc hw
      have hlater := hrest.account hsrc hfirst.sound
      hfirst.trans (hlater.answer hlater.sound _)

theorem Dereferences.account {src : Source σ} {limit : Limit} {depth : Nat} {e : Expr}
    {w : World σ} {events : List Event} {r : Ended σ Value} (hsrc : src.Lawful) :
    Dereferences src limit depth e w events r → w.env.Sound → Account w events r
  | .within _ h, hw => h.account hsrc hw
  | .beyond hlimit, hw => by
      cases limit with
      | atMost max => exact (Account.start hw ()).refused (by simp)
      | none => cases hlimit

end

/-- An accounted computation ends with an answer or a fault. -/
theorem Account.ends (h : Account w events r) :
    (∃ a u, r = .ok a u) ∨ ∃ f u, r = .error (.fault f) u := by
  cases r with
  | ok a u => exact Or.inl ⟨a, u, rfl⟩
  | error f u =>
      obtain ⟨g, rfl⟩ := h.fault f u rfl
      exact Or.inr ⟨g, u, rfl⟩

end Eval

open Eval

/-- In every environment that can be made, under every depth limit, and with every source that keeps
to the bounds it is asked for, an expression is evaluated to an end. Whatever happens on the way,
each choice is made among as many things as the list or the pool has that it is for, and at least
one, and each draw takes a member out of a pool that is there. Evaluation ends with a value or with
one of three faults, and with the third of them just if an expression that was left out is
evaluated. -/
theorem evaluate_choices_safe {σ : Type} {src : Source σ} (hsrc : src.Lawful) {env : Environment}
    (henv : env.Reachable) (max : Nat) (e : Expr) (source : σ) :
    (∃ events r, Evaluates src (.atMost max) 0 e { env, source } events r) ∧
    ∀ events r, Evaluates src (.atMost max) 0 e { env, source } events r →
      evaluate src (.atMost max) e env source = Outcome.ofResult env r ∧
      (evaluate src (.atMost max) e env source).asked = events.filterMap Event.bound? ∧
      (∀ event ∈ events, event.Safe) ∧
      ((∃ v u, r = .ok v u) ∨ ∃ f u, r = .error (.fault f) u ∧
        f.code ∈ ["INVOCAT_UNDEFINED_DRAW", "INVOCAT_RECURSION_LIMIT",
          "INVOCAT_UNHANDLED_EXPRESSION"]) ∧
      ((∃ u, r = .error (.fault .unhandledExpression) u) ↔ .entered .missing ∈ events) := by
  constructor
  · obtain ⟨events, h⟩ := exists_evaluates src max 0 e { env, source }
    exact ⟨events, _, h⟩
  intro events r h
  have haccount := h.account hsrc henv.sound
  refine ⟨h.evaluate_eq, ?_, haccount.safe, ?_, haccount.missing⟩
  · have hasked : (left r).asked = (events.filterMap Event.bound?).reverse := by
      rw [haccount.asked, List.append_nil]
    have houtcome : (Outcome.ofResult env r).asked = (left r).asked.reverse := by cases r <;> rfl
    rw [h.evaluate_eq, houtcome, hasked, List.reverse_reverse]
  · rcases haccount.ends with hvalue | ⟨f, u, hf⟩
    · exact Or.inl hvalue
    · exact Or.inr ⟨f, u, hf, by cases f <;> simp [Fault.code]⟩

/-- A draw whose pool is named by a draw from the same pool: the first choice is among two members,
and the second among the one that is left. -/
theorem evaluate_choices_safe_nested :
    ∃ (src : Source Unit) (env : Environment) (events : List Event), src.Lawful ∧ env.Reachable ∧
      env.get? (utf8 "a") = some [.lit (utf8 "a"), .lit (utf8 "b")] ∧
      (∀ event ∈ events, event.Safe) ∧
      (evaluate src (.atMost 9) (.draw (.draw (.lit (utf8 "a")))) env ()).asked = [2, 1] ∧
      (evaluate src (.atMost 9) (.draw (.draw (.lit (utf8 "a")))) env ()).result =
        .ok (some (utf8 "b")) := by
  let src : Source Unit := ⟨fun _ s => (0, s)⟩
  let env := Environment.empty.put (utf8 "a") [.lit (utf8 "a"), .lit (utf8 "b")]
  let rest : Environment := { env with entries := [(utf8 "a", [.lit (utf8 "b")])] }
  have hsrc : src.Lawful := fun _ _ h => h
  have henv : env.Reachable :=
    ⟨[.perform 0 (.put (utf8 "a") [.lit (utf8 "a"), .lit (utf8 "b")])], List.mem_singleton.2 rfl⟩
  have hfirst : env.get? (utf8 "a") = some [.lit (utf8 "a"), .lit (utf8 "b")] := by
    simp [env, Environment.get?, Environment.put, Environment.empty]
  have hsecond : rest.get? (utf8 "a") = some [.lit (utf8 "b")] := by
    simp [rest, env, Environment.get?, Environment.put, Environment.empty]
  have htake : takeOut src (utf8 "a") [.lit (utf8 "a"), .lit (utf8 "b")] { env, source := () } =
      .ok (.lit (utf8 "a")) { env := rest, source := (), asked := [2] } := by
    have hremove : env.remove (utf8 "a") 0 = .ok (.lit (utf8 "a"), rest) := by
      simp [rest, env, Environment.remove, Environment.put, Environment.empty]
    rw [takeOut_apply, hremove]
    rfl
  have htakeLast : takeOut src (utf8 "a") [.lit (utf8 "b")]
      { env := rest, source := (), asked := [2] } =
      .ok (.lit (utf8 "b")) { env := rest.delete (utf8 "a"), source := (), asked := [1, 2] } := by
    have hremove : rest.remove (utf8 "a") 0 = .ok (.lit (utf8 "b"), rest.delete (utf8 "a")) := by
      simp [rest, env, Environment.remove, Environment.put, Environment.empty]
    rw [takeOut_apply, hremove]
    rfl
  have hname : Evaluates src (.atMost 9) 0 (.draw (.lit (utf8 "a"))) { env, source := () } _ _ :=
    .draw .lit hfirst htake (.within rfl .lit)
  have hrun : Evaluates src (.atMost 9) 0 (.draw (.draw (.lit (utf8 "a"))))
      { env, source := () } _ _ := .draw hname hsecond htakeLast (.within rfl .lit)
  obtain ⟨-, hall⟩ := evaluate_choices_safe hsrc henv 9 (.draw (.draw (.lit (utf8 "a")))) ()
  obtain ⟨heq, hasked, hsafe, -, -⟩ := hall _ _ hrun
  exact ⟨src, env, _, hsrc, henv, hfirst, hsafe, hasked, by rw [heq]; rfl⟩

end PoolProse
