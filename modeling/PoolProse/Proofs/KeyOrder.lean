import PoolProse.Proofs.Coupling
import PoolProse.Proofs.SafeChoices
import PoolProse.Proofs.SameBindings

/-!
# The order of names

Evaluation finds pools by name, so it does not matter in which order the names were entered. In two
environments that compare as equal it makes the same choices, writes the same log and comes to the
same end, and leaves two environments that compare as equal again.
-/
namespace PoolProse

/-! ## A record of the choices -/

/-- The choices that were made, the latest first: each bound with the answer. -/
abbrev Recorded (σ : Type) := Extended σ (List (Nat × Nat))

def Recorded.source {σ : Type} (src : Source σ) : Source (Recorded σ) :=
  Extended.source src fun bound answer choices => (bound, answer) :: choices

def choicesMade {σ : Type} (src : Source σ) (limit : Limit) (e : Expr) (env : Environment)
    (source : σ) : List (Nat × Nat) :=
  (evaluate (Recorded.source src) limit e env ⟨source, []⟩).source.extra.reverse

namespace Eval

variable {σ : Type}

/-- The record tells what was asked for, and is of no consequence. -/
def recording (src : Source σ) : Coupling src (Recorded.source src) where
  Rel w w' := w.env = w'.env ∧ w.source = w'.source.state ∧ w.asked = w'.asked ∧ w.log = w'.log ∧
    w'.source.extra.map Prod.fst = w'.asked
  look := by
    rintro w w' ⟨henv, -⟩ key
    rw [henv]
  choose := by
    rintro w w' ⟨henv, hsource, hasked, hlog, hchoices⟩ n
    rw [hsource]
    exact ⟨rfl, henv, rfl, congrArg (List.cons n) hasked, hlog, congrArg (List.cons n) hchoices⟩
  put := by
    rintro w w' ⟨henv, hrest⟩ name pool
    exact ⟨congrArg (·.put name pool) henv, hrest⟩
  delete := by
    rintro w w' ⟨henv, hrest⟩ name
    exact ⟨congrArg (·.delete name) henv, hrest⟩
  remove := by
    rintro w w' ⟨henv, hrest⟩ key i
    rw [henv]
    cases w'.env.remove key i with
    | ok taken => exact Or.inl ⟨taken.1, taken.2, taken.2, rfl, rfl, rfl, hrest⟩
    | error f => exact Or.inr ⟨f, rfl, rfl⟩
  note := by
    rintro w w' ⟨henv, hsource, hasked, hlog, hchoices⟩ entry
    exact ⟨henv, hsource, hasked, congrArg (List.cons entry) hlog, hchoices⟩

end Eval

/-- The bounds of the choices that are made are those that are asked for. -/
theorem map_fst_choicesMade {σ : Type} (src : Source σ) (limit : Limit) (e : Expr)
    (env : Environment) (source : σ) :
    (choicesMade src limit e env source).map Prod.fst =
      (evaluate src limit e env source).asked := by
  have hstart : (Eval.recording src).Rel { env, source } { env, source := ⟨source, []⟩ } :=
    ⟨rfl, rfl, rfl, rfl, rfl⟩
  obtain ⟨r, r', hr, hr', hends⟩ := (Eval.recording src).evaluate limit e hstart
  rw [choicesMade, hr, hr', List.map_reverse]
  cases hends with
  | ok _ hw => exact congrArg List.reverse (hw.2.2.2.2.trans hw.2.2.1.symm)
  | error hw => exact congrArg List.reverse (hw.2.2.2.2.trans hw.2.2.1.symm)

/-! ## Environments in another order -/

/-- Both environments are in order, and each name is bound to the same pool in both or in
neither. -/
structure Environment.Alike (a b : Environment) : Prop where
  left : a.Sound
  right : b.Sound
  get? : ∀ key, a.get? key = b.get? key

namespace Environment.Alike

variable {a b : Environment}

theorem put (h : a.Alike b) (key : Text) (pool : Pool) :
    (a.put key pool).Alike (b.put key pool) where
  left := h.left.put key pool
  right := h.right.put key pool
  get? other := by rw [h.left.get?_put, h.right.get?_put, h.get?]

theorem delete (h : a.Alike b) (key : Text) : (a.delete key).Alike (b.delete key) where
  left := h.left.delete key
  right := h.right.delete key
  get? other := by rw [h.left.get?_delete, h.right.get?_delete, h.get?]

theorem remove (h : a.Alike b) (key : Text) (i : Nat) :
    (∃ e a' b', a.remove key i = .ok (e, a') ∧ b.remove key i = .ok (e, b') ∧ a'.Alike b') ∨
      ∃ f, a.remove key i = .error f ∧ b.remove key i = .error f := by
  cases hpool : a.get? key with
  | none =>
      exact Or.inr ⟨_, h.left.remove_of_none hpool i,
        h.right.remove_of_none ((h.get? key).symm.trans hpool) i⟩
  | some pool =>
      rw [remove_of_get? hpool, remove_of_get? ((h.get? key).symm.trans hpool)]
      cases pool[i]? with
      | none => exact Or.inr ⟨_, rfl, rfl⟩
      | some e => exact Or.inl ⟨e, _, _, rfl, rfl, h.put key _⟩

theorem equals (h : a.Alike b) : a.equals b = true := (h.left.equals_iff h.right).2 h.get?

end Environment.Alike

theorem Environment.Reachable.alike {a b : Environment} (ha : a.Reachable) (hb : b.Reachable)
    (h : a.equals b = true) : a.Alike b where
  left := ha.sound
  right := hb.sound
  get? := (ha.sound.equals_iff hb.sound).1 h

namespace Eval

variable {σ : Type}

/-- Worlds that differ in the order of names at most. -/
def reordering (src : Source σ) : Coupling src src where
  Rel w w' := w.env.Alike w'.env ∧ w.source = w'.source ∧ w.asked = w'.asked ∧ w.log = w'.log
  look := by
    rintro w w' ⟨henv, -⟩ key
    exact henv.get? key
  choose := by
    rintro w w' ⟨henv, hsource, hasked, hlog⟩ n
    rw [hsource]
    exact ⟨rfl, henv, rfl, congrArg (List.cons n) hasked, hlog⟩
  put := by
    rintro w w' ⟨henv, hrest⟩ name pool
    exact ⟨henv.put name pool, hrest⟩
  delete := by
    rintro w w' ⟨henv, hrest⟩ name
    exact ⟨henv.delete name, hrest⟩
  remove := by
    rintro w w' ⟨henv, hrest⟩ key i
    rcases henv.remove key i with ⟨e, a, b, ha, hb, halike⟩ | hrefused
    · exact Or.inl ⟨e, a, b, ha, hb, halike, hrest⟩
    · exact Or.inr hrefused
  note := by
    rintro w w' ⟨henv, hsource, hasked, hlog⟩ entry
    exact ⟨henv, hsource, hasked, congrArg (List.cons entry) hlog⟩

end Eval

/-- What evaluation does in two environments that differ in the order of names at most. -/
theorem evaluate_alike {σ : Type} (src : Source σ) (limit : Limit) (e : Expr) {a b : Environment}
    (h : a.Alike b) (source : σ) :
    (evaluate src limit e a source).result = (evaluate src limit e b source).result ∧
      (evaluate src limit e a source).source = (evaluate src limit e b source).source ∧
      (evaluate src limit e a source).asked = (evaluate src limit e b source).asked ∧
      (evaluate src limit e a source).log = (evaluate src limit e b source).log ∧
      (evaluate src limit e a source).env.Alike (evaluate src limit e b source).env := by
  have hstart : (Eval.reordering src).Rel { env := a, source } { env := b, source } :=
    ⟨h, rfl, rfl, rfl⟩
  obtain ⟨r, r', hr, hr', hends⟩ := (Eval.reordering src).evaluate limit e hstart
  rw [hr, hr']
  cases hends with
  | ok hv hw =>
      obtain ⟨henv, hsource, hasked, hlog⟩ := hw
      exact ⟨congrArg Except.ok hv, hsource, congrArg List.reverse hasked,
        congrArg List.reverse hlog, henv⟩
  | error hw =>
      obtain ⟨-, hsource, hasked, hlog⟩ := hw
      exact ⟨rfl, hsource, congrArg List.reverse hasked, congrArg List.reverse hlog, h⟩

/-- The order of names has no influence. In two environments that can be made and that compare as
equal, every expression has the same value or the same failure. The choices on the way are the same,
each among the same number of things and with the same answer, the source and the log are the same
after it, and the environments that are left compare as equal again. -/
theorem evaluate_key_order {σ : Type} (src : Source σ) (limit : Limit) (e : Expr)
    {a b : Environment} (ha : a.Reachable) (hb : b.Reachable) (h : a.equals b = true) (source : σ) :
    (evaluate src limit e a source).result = (evaluate src limit e b source).result ∧
      choicesMade src limit e a source = choicesMade src limit e b source ∧
      (choicesMade src limit e a source).map Prod.fst = (evaluate src limit e a source).asked ∧
      (evaluate src limit e a source).asked = (evaluate src limit e b source).asked ∧
      (evaluate src limit e a source).source = (evaluate src limit e b source).source ∧
      (evaluate src limit e a source).log = (evaluate src limit e b source).log ∧
      (evaluate src limit e a source).env.equals (evaluate src limit e b source).env = true := by
  have halike := ha.alike hb h
  obtain ⟨hresult, hsource, hasked, hlog, henv⟩ := evaluate_alike src limit e halike source
  obtain ⟨-, hrecord, -⟩ :=
    evaluate_alike (Recorded.source src) limit e halike ⟨source, []⟩
  refine ⟨hresult, ?_, map_fst_choicesMade src limit e a source, hasked, hsource, hlog,
    henv.equals⟩
  rw [choicesMade, choicesMade, hrecord]

/-- Two pools that were entered in one order and in the other. A draw from one of them and a
reference to the other choose alike. -/
theorem evaluate_key_order_pets :
    ∃ (src : Source Unit) (a b : Environment) (e : Expr), a.Reachable ∧ b.Reachable ∧
      a.keys = [utf8 "cat", utf8 "dog"] ∧ b.keys = [utf8 "dog", utf8 "cat"] ∧
      a.equals b = true ∧
      (evaluate src (.atMost 9) e a ()).result = .ok (some (utf8 "TomRex")) ∧
      (evaluate src (.atMost 9) e b ()).result = .ok (some (utf8 "TomRex")) ∧
      choicesMade src (.atMost 9) e a () = choicesMade src (.atMost 9) e b () ∧
      (evaluate src (.atMost 9) e a ()).env.equals
        (evaluate src (.atMost 9) e b ()).env = true := by
  let src : Source Unit := ⟨fun _ s => (0, s)⟩
  let cats : Pool := [.lit (utf8 "Tom"), .lit (utf8 "Kit")]
  let dogs : Pool := [.lit (utf8 "Rex")]
  let a := (Environment.empty.put (utf8 "cat") cats).put (utf8 "dog") dogs
  let b := (Environment.empty.put (utf8 "dog") dogs).put (utf8 "cat") cats
  let e : Expr := .mix (.draw (.lit (utf8 "cat"))) (.ref (.lit (utf8 "dog")))
  let rest := a.put (utf8 "cat") [.lit (utf8 "Kit")]
  have hcats : cats ≠ [] := by simp [cats]
  have hdogs : dogs ≠ [] := by simp [dogs]
  have hempty := Environment.sound_empty
  have ha : a.Sound := (hempty.put _ _).put _ _
  have hb : b.Sound := (hempty.put _ _).put _ _
  have hget : ∀ key, a.get? key = if key = utf8 "dog" then some dogs else
      if key = utf8 "cat" then some cats else none := fun key => by
    rw [(hempty.put _ _).get?_put, hempty.get?_put, Environment.get?_empty, if_neg hdogs,
      if_neg hcats]
  have halike : a.Alike b := ⟨ha, hb, fun key => by
    rw [hget, (hempty.put _ _).get?_put, hempty.get?_put, Environment.get?_empty,
      if_neg hdogs, if_neg hcats]
    by_cases hdog : key = utf8 "dog"
    · rw [hdog]
      rfl
    · rw [if_neg hdog, if_neg hdog]⟩
  have hreachable : ∀ key pool key' pool',
      ((Environment.empty.put key pool).put key' pool').Reachable := fun key pool key' pool' =>
    ⟨[.perform 0 (.put key pool), .perform 0 (.put key' pool')], List.mem_singleton.2 rfl⟩
  have hkeys : ∀ key pool key' pool',
      ((Environment.empty.put key pool).put key' pool').keys =
        (Bindings.put (Bindings.put [] key pool) key' pool').map Prod.fst := by
    intro key pool key' pool'
    rw [Environment.keys, (hempty.put _ _).put_entries, hempty.put_entries]
    rfl
  have htake : Eval.takeOut src (utf8 "cat") cats { env := a, source := () } =
      .ok (.lit (utf8 "Tom")) { env := rest, source := (), asked := [2] } := by
    rw [Eval.takeOut_apply, Environment.remove_of_get? (hget _)]
    rfl
  have hdog : rest.get? (utf8 "dog") = some dogs := by
    rw [ha.get?_put, hget]
    rfl
  have hrun : Eval.Evaluates src (.atMost 9) 0 e { env := a, source := () } _ _ :=
    .mix (.cons (.draw .lit (hget _) htake (.within rfl .lit))
      (.cons (.ref .lit hdog rfl (.within rfl .lit)) .nil))
  have hvalue : (evaluate src (.atMost 9) e a ()).result = .ok (some (utf8 "TomRex")) := by
    rw [hrun.evaluate_eq]
    rfl
  obtain ⟨hresult, hchoices, -, -, -, -, henv⟩ :=
    evaluate_key_order src (.atMost 9) e (hreachable _ _ _ _) (hreachable _ _ _ _) halike.equals ()
  exact ⟨src, a, b, e, hreachable _ _ _ _, hreachable _ _ _ _, hkeys _ _ _ _, hkeys _ _ _ _,
    halike.equals, hvalue, hresult.symm.trans hvalue, hchoices, henv⟩

end PoolProse
