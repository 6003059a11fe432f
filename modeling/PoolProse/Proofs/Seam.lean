import PoolProse.Proofs.BigStep
import PoolProse.Proofs.LineByLine
import PoolProse.Proofs.Lookahead
import PoolProse.Proofs.Lossless
import PoolProse.Proofs.Relocation
import PoolProse.Session

/-!
# Cutting a document in two

A document may be cut below any newline token, and has the tokens of the two parts. Unless a double
rule stands before the cut or right below it, evaluating the two parts one after the other does what
evaluating the whole does. The statements of the second part keep their expressions, and their
errors move by the length of the first part.
-/
namespace PoolProse

/-- The last byte of the text is a newline token. -/
def EndsLine (text : Text) : Prop :=
  ∃ n ∈ tokenize text, n.kind = .newline ∧ n.offset + 1 = (text.length : Int)

instance (text : Text) : Decidable (EndsLine text) :=
  inferInstanceAs (Decidable (∃ n ∈ tokenize text, _))

theorem Token.keeps_shift (distance : Nat) : Token.Keeps (Token.shift distance) :=
  ⟨fun _ => rfl, fun _ => rfl⟩

/-! ## The tokens of the two parts -/

theorem Token.scanFrom_start (offset : Nat) (b : Text) :
    Token.scanFrom ⟨true, false⟩ offset b = (tokenize b).map (Token.shift offset) := by
  rw [tokenize, ← Token.scanFrom_shift, Nat.zero_add]

/-- A text that ends with a newline token keeps its tokens whatever follows, and what follows has
the tokens that it has alone. -/
theorem EndsLine.exists_tokens {a : Text} (h : EndsLine a) :
    ∃ ts n, n.kind = .newline ∧ (∀ t ∈ ts, t.kind ≠ .eof) ∧
      tokenize a = ts ++ [n, ⟨.eof, [], a.length⟩] ∧
      ∀ b, tokenize (a ++ b) = ts ++ n :: (tokenize b).map (Token.shift a.length) := by
  obtain ⟨n, hn, hk, hlast⟩ := h
  obtain ⟨ts, hts, hbelow⟩ := Token.scanFrom_below_newline hn hk (by rw [hlast, Nat.zero_add])
  rw [Nat.zero_add] at hts hbelow
  refine ⟨ts, n, hk, ?_, hts, ?_⟩
  · obtain ⟨us, hus, hother⟩ := (Token.scanFrom_covers ⟨true, false⟩ 0 a).last
    rw [hts, Nat.zero_add, List.append_cons] at hus
    have hcat : ts ++ [n] = us := List.append_inj_left' hus rfl
    intro t ht
    exact (hother t (by rw [← hcat]; exact List.mem_append_left _ ht)).1
  · intro b
    rw [tokenize, hbelow, Token.scanFrom_start]

/-- Scanning is compositional at newline tokens. If the last byte of a text is a newline token, the
tokens of the text, without the mark of its end, are followed by those of any text below it, moved
by the length of the first. -/
theorem tokenize_below_newline {a : Text} (h : EndsLine a) (b : Text) :
    ∃ ts, tokenize a = ts ++ [⟨.eof, [], a.length⟩] ∧
      tokenize (a ++ b) = ts ++ (tokenize b).map (Token.shift a.length) := by
  obtain ⟨ts, n, -, -, hts, hbelow⟩ := h.exists_tokens
  refine ⟨ts ++ [n], ?_, ?_⟩
  · rw [hts, List.append_assoc]
    rfl
  · rw [hbelow, List.append_assoc]
    rfl

/-- A continued line, and a code point that the newline cuts off. The text below starts with the
byte that it lacks and has a comment and a rule. -/
theorem tokenize_below_newline_cut :
    EndsLine (utf8 "a \\\n(" ++ [0xE2, 0x82, 0x0A]) ∧
      tokenize (utf8 "a \\\n(" ++ [0xE2, 0x82, 0x0A] ++ (0xAC :: utf8 " -- b\n---")) =
        [⟨.name, utf8 "a", 0⟩, ⟨.white, utf8 " ", 1⟩, ⟨.opening .paren, utf8 "(", 4⟩,
          ⟨.name, [0xE2, 0x82], 5⟩, ⟨.newline, utf8 "\n", 7⟩] ++
        (tokenize (0xAC :: utf8 " -- b\n---")).map (Token.shift 8) := by
  have hends : EndsLine (utf8 "a \\\n(" ++ [0xE2, 0x82, 0x0A]) := by decide +kernel
  obtain ⟨ts, hts, hcat⟩ := tokenize_below_newline hends (0xAC :: utf8 " -- b\n---")
  have hfirst : tokenize (utf8 "a \\\n(" ++ [0xE2, 0x82, 0x0A]) =
      [⟨.name, utf8 "a", 0⟩, ⟨.white, utf8 " ", 1⟩, ⟨.opening .paren, utf8 "(", 4⟩,
        ⟨.name, [0xE2, 0x82], 5⟩, ⟨.newline, utf8 "\n", 7⟩] ++ [⟨.eof, [], 8⟩] := by
    decide +kernel
  rw [hfirst] at hts
  obtain rfl := List.append_inj_left' hts rfl
  exact ⟨hends, hcat⟩

namespace Statement

theorem ofTokens_eof (offset : Int) : ofTokens [⟨.eof, [], offset⟩] = [] := by
  have hsplit : Line.split [⟨.eof, [], offset⟩] = [[]] := rfl
  have hnext : next [] [] = (none, []) := rfl
  rw [ofTokens, hsplit, ofLines, hnext, ofLines]
  rfl

/-- The statements of the whole are those of the first part and, further on in the text, those of
the second. -/
theorem ofTokens_tokenize_append {a b : Text} (ha : a = [] ∨ EndsLine a)
    (hrule : ∀ t ∈ tokenize a, t.kind ≠ .doubleRule)
    (hb : ∀ t ∈ (tokenize b).head?, t.kind ≠ .doubleRule) :
    ofTokens (tokenize (a ++ b)) =
      ofTokens (tokenize a) ++
        (ofTokens (tokenize b)).map (relocate (Token.shift a.length)) := by
  rw [← ofTokens_map (Token.keeps_shift _)]
  rcases ha with rfl | ha
  · have hnil : ofTokens (tokenize []) = [] := by
      rw [tokenize, Token.scanFrom_nil, ofTokens_eof]
    rw [hnil, List.nil_append, List.nil_append, List.length_nil, ← Token.scanFrom_start]
    rfl
  · obtain ⟨ts, n, hk, heof, hts, hbelow⟩ := ha.exists_tokens
    have hrule' : ∀ t ∈ ts, t.kind ≠ .doubleRule := by
      intro t ht
      apply hrule t
      rw [hts]
      exact List.mem_append_left _ ht
    have hhead : ∀ t ∈ ((tokenize b).map (Token.shift a.length)).head?, t.kind ≠ .doubleRule := by
      rw [List.head?_map]
      intro t ht
      obtain ⟨u, hu, rfl⟩ := Option.map_eq_some_iff.1 ht
      exact hb u hu
    have hend : ∀ t ∈ [(⟨.eof, [], a.length⟩ : Token)].head?, t.kind ≠ .doubleRule := by
      intro t ht
      obtain rfl := Option.some.inj ht
      simp
    rw [hbelow, hts, ofTokens_append_newline heof hk hrule' hhead,
      ofTokens_append_newline heof hk hrule' hend, ofTokens_eof, List.append_nil]

end Statement

namespace Session

variable {σ : Type} (src : Source σ) (limit : Limit)

/-! ## Evaluating expressions in a row -/

theorem run_before (env : Environment) (source : σ) (outputs : List Text) (log : Log)
    (es : List Expr) :
    run (evaluate src limit) ⟨env, source, outputs, none, log⟩ es =
      ⟨(run (evaluate src limit) { env, source } es).env,
        (run (evaluate src limit) { env, source } es).source,
        outputs ++ (run (evaluate src limit) { env, source } es).outputs,
        (run (evaluate src limit) { env, source } es).failure,
        log ++ (run (evaluate src limit) { env, source } es).log⟩ := by
  induction es generalizing env source outputs log with
  | nil => simp [run]
  | cons e es ih =>
      simp only [run]
      cases ho : (evaluate src limit e env source).result with
      | error f => simp
      | ok v =>
          simp only
          rw [ih, ih _ _ ([] ++ v.toList)]
          simp only [List.append_assoc, List.nil_append]

theorem run_append (p : Progress σ) (es fs : List Expr)
    (h : (run (evaluate src limit) p es).failure = none) :
    run (evaluate src limit) p (es ++ fs) =
      run (evaluate src limit) (run (evaluate src limit) p es) fs := by
  induction es generalizing p with
  | nil => rfl
  | cons e es ih =>
      simp only [List.cons_append, run] at h ⊢
      cases ho : (evaluate src limit e p.env p.source).result with
      | error f => simp [ho] at h
      | ok v =>
          simp only [ho] at h ⊢
          exact ih _ h

theorem run_groups (env : Environment) (source : σ) (es fs : List Expr)
    (h : (run (evaluate src limit) { env, source } es).failure = none) :
    let first := run (evaluate src limit) { env, source } es
    let second := run (evaluate src limit) { env := first.env, source := first.source } fs
    let whole := run (evaluate src limit) { env, source } (es ++ fs)
    whole.outputs = first.outputs ++ second.outputs ∧ whole.failure = second.failure ∧
      whole.env = second.env ∧ whole.source = second.source := by
  intro first second whole
  have hwhole : whole =
      run (evaluate src limit) ⟨first.env, first.source, first.outputs, none, first.log⟩ fs := by
    have hp : first = ⟨first.env, first.source, first.outputs, none, first.log⟩ := by
      rw [← h]
    rw [← hp]
    exact run_append src limit _ es fs h
  rw [hwhole, run_before]
  exact ⟨rfl, rfl, rfl, rfl⟩

end Session

/-! ## Evaluating a document in two parts -/

theorem Document.issues_map_code (d : Document) :
    d.issues.map (fun i => i.error.code) =
      (d.statements.filterMap Statement.error?).map SyntaxError.code := by
  rw [← Document.issues_map_error, List.map_map]
  rfl

theorem Statement.expressions_relocate (f : Token → Token) (sts : List Statement) :
    (sts.map (Statement.relocate f)).filterMap Except.toOption = sts.filterMap Except.toOption := by
  rw [List.filterMap_map]
  congr 1
  funext s
  cases s <;> rfl

theorem Statement.codes_relocate (f : Token → Token) (sts : List Statement) :
    ((sts.map (Statement.relocate f)).filterMap Statement.error?).map SyntaxError.code =
      (sts.filterMap Statement.error?).map SyntaxError.code := by
  rw [List.filterMap_map, List.map_filterMap, List.map_filterMap]
  congr 1
  funext s
  cases s <;> rfl

namespace Session

variable {σ : Type}

/-- A document cut below a newline token is evaluated in two calls as it is in one: the same
outputs, failure, environment and source of choices, and the same syntax errors in the same
order. -/
theorem eval_append [Locator] (src : Source σ) (s : Session σ) (file a b : Text)
    (ha : a = [] ∨ EndsLine a) (hrule : ∀ t ∈ tokenize a, t.kind ≠ .doubleRule)
    (hb : ∀ t ∈ (tokenize b).head?, t.kind ≠ .doubleRule)
    (hlocated : ∀ text ∈ [a, b, a ++ b], Document.Locatable text) :
    ∃ (first second whole : Report) (s₁ s₂ s' : Session σ),
      eval src s file a = .ok (first, s₁) ∧ eval src s₁ file b = .ok (second, s₂) ∧
      eval src s file (a ++ b) = .ok (whole, s') ∧
      s'.issues.map (fun i => i.error.code) =
        s₁.issues.map (fun i => i.error.code) ++ s₂.issues.map (fun i => i.error.code) ∧
      (first.failure = none →
        whole.outputs = first.outputs ++ second.outputs ∧ whole.failure = second.failure ∧
          s'.env = s₂.env ∧ s'.source = s₂.source) := by
  obtain ⟨d₁, hd₁, hs₁⟩ := Document.parse_locatable file (hlocated a (by simp))
  obtain ⟨d₂, hd₂, hs₂⟩ := Document.parse_locatable file (hlocated b (by simp))
  obtain ⟨d, hd, hs⟩ := Document.parse_locatable file (hlocated (a ++ b) (by simp))
  rw [Statement.ofTokens_tokenize_append ha hrule hb, ← hs₁, ← hs₂] at hs
  have hexpressions : d.expressions = d₁.expressions ++ d₂.expressions := by
    simp only [Document.expressions_eq, hs, List.filterMap_append,
      Statement.expressions_relocate]
  have hcodes : d.issues.map (fun i => i.error.code) =
      d₁.issues.map (fun i => i.error.code) ++ d₂.issues.map (fun i => i.error.code) := by
    simp only [Document.issues_map_code, hs, List.filterMap_append, List.map_append,
      Statement.codes_relocate]
  refine ⟨_, _, _, _, _, _, eval_of_parse hd₁, eval_of_parse hd₂, eval_of_parse hd, hcodes, ?_⟩
  intro hfailure
  have hgroups := run_groups src s.limit s.env s.source d₁.expressions d₂.expressions hfailure
  simpa only [evalDocument, hexpressions] using hgroups

/-- The pool that the first part defines is there for the second, and both parts have an error. -/
theorem eval_append_pet :
    ∃ (first second whole : Report) (s₁ s₂ s' : Session Script),
      eval Script.source { source := [1] } [] (utf8 "pet :: cat | dog\n(\n") = .ok (first, s₁) ∧
      eval Script.source s₁ [] (utf8 "a (pet)\n)") = .ok (second, s₂) ∧
      eval Script.source { source := [1] } [] (utf8 "pet :: cat | dog\n(\n" ++ utf8 "a (pet)\n)") =
        .ok (whole, s') ∧
      first.outputs = [] ∧ second.outputs = [utf8 "a dog"] ∧ whole.outputs = [utf8 "a dog"] ∧
      first.failure = none ∧ whole.failure = none ∧ second.failure = none ∧
      s'.env = s₂.env ∧ s'.source = [] ∧ s₂.source = [] ∧
      s₁.issues.map (fun i => i.error.code) = ["INVOCAT_UNMATCHED_GROUP"] ∧
      s₂.issues.map (fun i => i.error.code) = ["INVOCAT_UNMATCHED_GROUP"] ∧
      s'.issues.map (fun i => i.error.code) =
        ["INVOCAT_UNMATCHED_GROUP", "INVOCAT_UNMATCHED_GROUP"] := by
  let pool : Pool := [.lit (utf8 "cat"), .lit (utf8 "dog")]
  let env := Environment.empty.put (utf8 "pet") pool
  let pet : Expr := .mix (.lit (utf8 "a ")) (.ref (.lit (utf8 "pet")))
  have hd₁ : Document.parse [] (utf8 "pet :: cat | dog\n(\n") =
      .ok [.ok (.bind .define (utf8 "pet") pool),
        .error ⟨⟨.unmatchedGroup, ⟨.opening .paren, utf8 "(", 17⟩⟩, 6, ⟨[], 2, 1⟩⟩] := by
    decide +kernel
  have hd₂ : Document.parse [] (utf8 "a (pet)\n)") =
      .ok [.ok pet, .error ⟨⟨.unmatchedGroup, ⟨.closing .paren, utf8 ")", 8⟩⟩, 6, ⟨[], 2, 1⟩⟩] := by
    decide +kernel
  have hpet : evaluate Script.source .standard pet env [1] =
      ⟨.ok (some (utf8 "a dog")), env, [], [2], []⟩ := by
    have hpool : env.get? (utf8 "pet") = some pool := by
      simp [env, pool, Environment.get?, Environment.put, Environment.empty]
    have hrun : Eval.Evaluates Script.source .standard 0 pet { env, source := [1] } _ _ :=
      .mix (.cons .lit (.cons (.ref .lit hpool rfl (.within rfl .lit)) .nil))
    exact hrun.evaluate_eq
  obtain ⟨first, second, whole, s₁, s₂, s', h₁, h₂, h, hcodes, hsame⟩ :=
    eval_append Script.source { source := [1] } [] (utf8 "pet :: cat | dog\n(\n")
      (utf8 "a (pet)\n)") (Or.inr (by decide +kernel)) (by decide +kernel) (by decide +kernel)
      (by decide +kernel)
  obtain ⟨rfl, rfl⟩ := Prod.mk.inj (Except.ok.inj (h₁.symm.trans (eval_of_parse hd₁)))
  obtain ⟨rfl, rfl⟩ := Prod.mk.inj (Except.ok.inj (h₂.symm.trans (eval_of_parse hd₂)))
  obtain ⟨houtputs, hfailure, henv, hsource⟩ := hsame rfl
  have hsecond : run (evaluate Script.source .standard) { env, source := [1] } [pet] =
      ⟨env, [], [utf8 "a dog"], none, []⟩ := by
    rw [run, hpet]
    rfl
  refine ⟨_, _, whole, _, _, s', h₁, h₂, h, rfl, congrArg Progress.outputs hsecond,
    houtputs.trans (congrArg Progress.outputs hsecond), rfl,
    hfailure.trans (congrArg Progress.failure hsecond), congrArg Progress.failure hsecond, henv,
    hsource.trans (congrArg Progress.source hsecond), congrArg Progress.source hsecond, rfl, rfl,
    hcodes⟩

end Session

end PoolProse
