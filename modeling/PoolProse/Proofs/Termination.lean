import PoolProse.Proofs.SafeChoices

/-!
# Evaluation comes to an end

Pools may refer to themselves and to each other, a member may bind the very pool it was taken from,
and the name of a pool may itself be drawn from one. Under a depth limit the rules of evaluation
still give every expression a result, and only one. Without a limit they need not give it any.
-/
namespace PoolProse

namespace Eval

variable {σ : Type}

/-! ## With a limit -/

section

variable (src : Source σ) (max depth : Nat) (w : World σ)

theorem existsUnique_evaluates (e : Expr) :
    ∃! r, ∃ events, Evaluates src (.atMost max) depth e w events r := by
  refine ⟨_, exists_evaluates src max depth e w, ?_⟩
  rintro r ⟨events, h⟩
  exact h.expr_eq.symm

theorem existsUnique_evaluatesAll (es : List Expr) :
    ∃! r, ∃ events, EvaluatesAll src (.atMost max) depth es w events r := by
  have hall : ∀ e ∈ es,
      Follows src (.atMost max) depth (memberAt src (.atMost max) (max - depth)) e :=
    fun e _ => exists_evaluates src max depth e
  refine ⟨_, follows_texts hall w, ?_⟩
  rintro r ⟨events, h⟩
  exact h.texts_eq.symm

theorem existsUnique_dereferences (e : Expr) :
    ∃! r, ∃ events, Dereferences src (.atMost max) depth e w events r := by
  refine ⟨_, follows_memberAt src max depth e w, ?_⟩
  rintro r ⟨events, h⟩
  exact h.memberAt_eq.symm

end

/-! ## Without a limit -/

/-- The names are those of pools whose members only refer to such names again. -/
def Circular (env : Environment) (names : List Text) : Prop :=
  ∀ key ∈ names, ∃ pool, env.get? key = some pool ∧ pool ≠ [] ∧
    ∀ e ∈ pool, ∃ key' ∈ names, e = .ref (.lit key')

def seesaw : Environment :=
  (Environment.empty.put (utf8 "a") [.ref (.lit (utf8 "b"))]).put (utf8 "b")
    [.ref (.lit (utf8 "a"))]

theorem seesaw_sound : seesaw.Sound := (Environment.sound_empty.put _ _).put _ _

theorem seesaw_get?_a : seesaw.get? (utf8 "a") = some [.ref (.lit (utf8 "b"))] := by
  have hne : utf8 "b" ≠ utf8 "a" := by decide
  simp [seesaw, Environment.get?, Environment.put, Environment.empty, hne, hne.symm,
    Std.HashMap.getElem_insert]

theorem seesaw_get?_b : seesaw.get? (utf8 "b") = some [.ref (.lit (utf8 "a"))] := by
  have hne : utf8 "b" ≠ utf8 "a" := by decide
  simp [seesaw, Environment.get?, Environment.put, Environment.empty, hne.symm]

theorem circular_seesaw : Circular seesaw [utf8 "a", utf8 "b"] := by
  intro key hkey
  rcases List.mem_pair.1 hkey with rfl | rfl
  · exact ⟨_, seesaw_get?_a, by simp, by simp⟩
  · exact ⟨_, seesaw_get?_b, by simp, by simp⟩

theorem not_evaluates_of_circular {src : Source σ} (hsrc : src.Lawful) {names : List Text}
    {key : Text} (hkey : key ∈ names) {depth : Nat} {w : World σ} (hw : Circular w.env names)
    {events : List Event} {r : Ended σ Value} :
    ¬ Evaluates src .none depth (.ref (.lit key)) w events r := by
  intro h
  -- a derivation holds one for a member, with fewer events
  induction hn : events.length using Nat.strongRecOn generalizing key depth w events r with
  | ind n ih =>
      obtain ⟨pool, hfound, hne, hmembers⟩ := hw key hkey
      obtain ⟨member, hmem, u, hu, hchosen⟩ := pick_apply hsrc hne w
      cases h with
      | refFails hname => cases hname
      | refUndefined hname hpool =>
          cases hname
          rw [Value.text, Option.getD_some, hfound] at hpool
          cases hpool
      | refBadChoice hname hpool hpick =>
          cases hname
          rw [Value.text, Option.getD_some, hfound] at hpool
          cases hpool
          rw [hchosen] at hpick
          cases hpick
      | ref hname hpool hpick hmember =>
          cases hname
          rw [Value.text, Option.getD_some, hfound] at hpool
          cases hpool
          rw [hchosen] at hpick
          cases hpick
          cases hmember with
          | beyond hlimit => cases hlimit
          | within _ h =>
              obtain ⟨key', hkey', rfl⟩ := hmembers _ hmem
              refine ih _ ?_ hkey' (hu ▸ hw) h rfl
              rw [← hn]
              simp only [List.length_cons, List.length_append]
              omega

end Eval

open Eval

/-- Under a depth limit the rules give one result to every expression, to every list of expressions
and to every pool member, in every world and at every depth, and what they give an expression at the
start is what is computed. With a source that keeps to the bounds it is asked for, in an environment
that has no empty pool, the result is a value or a fault. Without a limit there need not be one: two
pools that refer to each other are never evaluated to an end. -/
theorem evaluates_total {σ : Type} (src : Source σ) (max : Nat) :
    (∀ depth w e, ∃! r, ∃ events, Evaluates src (.atMost max) depth e w events r) ∧
    (∀ depth w es, ∃! r, ∃ events, EvaluatesAll src (.atMost max) depth es w events r) ∧
    (∀ depth w e, ∃! r, ∃ events, Dereferences src (.atMost max) depth e w events r) ∧
    (∀ e env source events r, Evaluates src (.atMost max) 0 e { env, source } events r →
      evaluate src (.atMost max) e env source = Outcome.ofResult env r) ∧
    (src.Lawful → ∀ depth e (w : World σ), w.env.Sound → ∀ events r,
      Evaluates src (.atMost max) depth e w events r →
        (∃ v u, r = .ok v u) ∨ ∃ f u, r = .error (.fault f) u) ∧
    (src.Lawful → ∃ e env, Environment.Sound env ∧
      ∀ source events r, ¬ Evaluates src .none 0 e { env, source } events r) := by
  refine ⟨existsUnique_evaluates src max, existsUnique_evaluatesAll src max,
    existsUnique_dereferences src max, fun _ _ _ _ _ h => h.evaluate_eq,
    fun hsrc _ _ _ hw _ _ h => (h.account hsrc hw).ends, fun hsrc => ?_⟩
  exact ⟨.ref (.lit (utf8 "a")), seesaw, seesaw_sound,
    fun _ _ _ => not_evaluates_of_circular hsrc (List.mem_cons_self ..) circular_seesaw⟩

/-- With room for one pool member, a reference to the first of two pools that refer to each other
has one result, which is a fault, and every expression has a value or a fault. -/
theorem evaluates_total_seesaw :
    ∃ (src : Source Unit) (events : List Event) (u : World Unit),
      src.Lawful ∧ seesaw.Sound ∧
      Evaluates src (.atMost 1) 0 (.ref (.lit (utf8 "a"))) { env := seesaw, source := () } events
        (.error (.fault (.recursionLimit 1)) u) ∧
      (∀ events r, Evaluates src (.atMost 1) 0 (.ref (.lit (utf8 "a")))
        { env := seesaw, source := () } events r → r = .error (.fault (.recursionLimit 1)) u) ∧
      evaluate src (.atMost 1) (.ref (.lit (utf8 "a"))) seesaw () =
        Outcome.ofResult seesaw (.error (.fault (.recursionLimit 1)) u) ∧
      ∀ e, ∃ events r, Evaluates src (.atMost 1) 0 e { env := seesaw, source := () } events r ∧
        ((∃ v u, r = .ok v u) ∨ ∃ f u, r = .error (.fault f) u) := by
  let src : Source Unit := ⟨fun _ s => (0, s)⟩
  have hsrc : src.Lawful := fun _ _ h => h
  have hrun : Evaluates src (.atMost 1) 0 (.ref (.lit (utf8 "a")))
      { env := seesaw, source := () } _
      (.error (.fault (.recursionLimit 1)) { env := seesaw, source := (), asked := [1, 1] }) :=
    .ref .lit seesaw_get?_a rfl (.within rfl (.ref .lit seesaw_get?_b rfl (.beyond rfl)))
  obtain ⟨hexpr, -, -, hevaluate, hends, -⟩ := evaluates_total src 1
  refine ⟨src, _, _, hsrc, seesaw_sound, hrun,
    fun events r h => (hexpr _ _ _).unique ⟨events, h⟩ ⟨_, hrun⟩, hevaluate _ _ _ _ _ hrun, ?_⟩
  intro e
  obtain ⟨r, ⟨events, h⟩, -⟩ := hexpr 0 { env := seesaw, source := () } e
  exact ⟨events, r, h, hends hsrc 0 e _ seesaw_sound events r h⟩

end PoolProse
