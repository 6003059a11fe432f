import PoolProse.Proofs.Extent
import PoolProse.Proofs.Grouping

/-!
# Joining lines

A row of expressions is made one expression by merging neighbouring literals and folding the rest
into a chain of mixes. The lines of a block are opened into such a row, with a literal space between
neighbours. Both do what evaluating the members in order does: nothing is left out, moved or
evaluated twice. A titled definition has one item for each of its blocks, and that item joins the
lines of its block.
-/
namespace PoolProse

/-! ## Rows of expressions -/

namespace Eval

variable {σ : Type} (src : Source σ) (member : Expr → Eval σ Value)

def textOf (e : Expr) : Eval σ Text := do
  let v ← expr src member e
  pure v.text

def textOfRow (join : List Text → Text) (es : List Expr) : Eval σ Text := do
  let ts ← texts (es.map (expr src member))
  pure (join ts)

theorem textOf_lit (t : Text) : textOf src member (.lit t) = pure t := rfl

theorem textOf_mix (l r : Expr) :
    textOf src member (.mix l r) =
      textOf src member l >>= fun t => textOf src member r >>= fun t' => pure (t ++ t') := by
  simp [textOf, expr_mix_eq_inTurn, inTurn, Value.text]

theorem textOfRow_cons (e : Expr) (es : List Expr) :
    textOfRow src member List.flatten (e :: es) =
      textOf src member e >>= fun t =>
        textOfRow src member List.flatten es >>= fun t' => pure (t ++ t') := by
  simp [textOf, textOfRow, texts]

theorem textOfRow_append (es fs : List Expr) :
    textOfRow src member List.flatten (es ++ fs) =
      textOfRow src member List.flatten es >>= fun t =>
        textOfRow src member List.flatten fs >>= fun t' => pure (t ++ t') := by
  simp [textOfRow, texts_append]

theorem textOfRow_operands (e : Expr) :
    textOfRow src member List.flatten e.operands = textOf src member e :=
  flatten_texts_operands src member e

/-! ## Merging and folding -/

theorem spells_textOf :
    Expr.Spells (fun m m' => m >>= fun t => m' >>= fun t' => pure (t ++ t'))
      (textOf src member) where
  assoc _ _ _ := by simp only [bind_assoc, pure_bind, List.append_assoc]
  empty_op _ := by simp [textOf_lit]
  op_empty _ := by simp [textOf_lit]
  lit _ _ := by simp [textOf_lit]
  mix := textOf_mix src member

theorem row_textOf (es : List Expr) :
    Expr.Spells.row (fun m m' => m >>= fun t => m' >>= fun t' => pure (t ++ t'))
      (textOf src member) es = textOfRow src member List.flatten es := by
  induction es with
  | nil => simp [Expr.Spells.row, textOf_lit, textOfRow, texts]
  | cons e es ih => rw [Expr.Spells.row_cons, ih, textOfRow_cons]

theorem textOf_concat (es : List Expr) :
    textOf src member (.concat es) = textOfRow src member List.flatten es :=
  ((spells_textOf src member).concat es).trans (row_textOf src member es)

/-- The operands of the lines, with the spaces between them, spell the lines joined by spaces. -/
theorem textOfRow_spaced (lines : List Expr) :
    textOfRow src member List.flatten (Expr.spaced lines) =
      textOfRow src member (Text.joinWith [Ascii.space]) lines := by
  fun_induction Expr.spaced lines with
  | case1 => rfl
  | case2 e =>
      rw [textOfRow_operands]
      simp [textOf, textOfRow, texts, Text.joinWith]
  | case3 e f es ih =>
      rw [textOfRow_append, textOfRow_operands, textOfRow_cons, ih, textOf_lit]
      simp [textOf, textOfRow, texts, Text.joinWith]

theorem textOf_joinLines (lines : List Expr) :
    textOf src member (.joinLines lines) =
      textOfRow src member (Text.joinWith [Ascii.space]) lines := by
  rw [Expr.joinLines, textOf_concat, textOfRow_spaced]

end Eval

/-! ## Outcomes of rows -/

/-- What evaluating expressions in a row did: their texts or the failure of the first that has none,
the environment and the source after it, the choices asked for and what was logged. -/
structure RowOutcome (σ : Type) where
  result : Except Failure (List Text)
  env : Environment
  source : σ
  asked : List Nat
  log : Log

/-- Evaluates expressions from left to right, each in the environment and with the source that the
one before it leaves. The first failure ends the row and leaves the environment as it was given;
choices that were made and entries that were logged stay made. -/
def evaluateRow {σ : Type} (src : Source σ) (limit : Limit) :
    List Expr → Environment → σ → RowOutcome σ
  | [], env, source => ⟨.ok [], env, source, [], []⟩
  | e :: es, env, source =>
    let o := evaluate src limit e env source
    match o.result with
    | .error f => ⟨.error f, env, o.source, o.asked, o.log⟩
    | .ok v =>
      let rest := evaluateRow src limit es o.env o.source
      match rest.result with
      | .error f => ⟨.error f, env, rest.source, o.asked ++ rest.asked, o.log ++ rest.log⟩
      | .ok ts =>
        ⟨.ok (v.text :: ts), rest.env, rest.source, o.asked ++ rest.asked, o.log ++ rest.log⟩

namespace RowOutcome

variable {σ : Type}

/-- One evaluation did what the row did: it has the texts of the row, joined, or the same failure,
and left the same environment, source, choices and log. -/
structure Matches (join : List Text → Text) (row : RowOutcome σ) (o : Outcome σ) : Prop where
  result : o.result.map Value.text = row.result.map join
  env : o.env = row.env
  source : o.source = row.source
  asked : o.asked = row.asked
  log : o.log = row.log

def ofResult (env : Environment) : Eval.Ended σ (List Text) → RowOutcome σ
  | .ok ts w => ⟨.ok ts, w.env, w.source, w.asked.reverse, w.log.reverse⟩
  | .error f w => ⟨.error f, env, w.source, w.asked.reverse, w.log.reverse⟩

end RowOutcome

section

variable {σ : Type} (src : Source σ) (limit : Limit)

theorem evaluateRow_eq (es : List Expr) (env : Environment) (source : σ) :
    evaluateRow src limit es env source =
      .ofResult env (Eval.texts (es.map (Eval.expr src (Eval.memberAt src limit limit.budget)))
        { env, source }) := by
  induction es generalizing env source with
  | nil => rfl
  | cons e es ih =>
      rw [evaluateRow, List.map_cons, Eval.texts, Eval.bind_apply, evaluate_eq_limited, limited]
      cases Eval.expr src (Eval.memberAt src limit limit.budget) e { env, source } with
      | error f u => rfl
      | ok v u =>
          -- the others start with what was asked and logged so far, which has no influence on them
          have hends := (Eval.resuming src u.asked u.log).couples_texts limit limit.budget es
            { env := u.env, source := u.source } u rfl
          simp only [Outcome.ofResult, ih]
          rw [Eval.bind_apply]
          generalize Eval.texts (es.map _) { env := u.env, source := u.source } = r₁ at hends ⊢
          generalize Eval.texts (es.map _) u = r₂ at hends ⊢
          cases hends with
          | ok hts hw =>
              subst hts hw
              simp [RowOutcome.ofResult, pure, EStateM.pure]
          | error hw =>
              subst hw
              simp [RowOutcome.ofResult]

/-- An expression that spells a row in every world has the outcome of the row. -/
theorem evaluateRow_matches {join : List Text → Text} {e : Expr} {es : List Expr}
    (h : Eval.textOf src (Eval.memberAt src limit limit.budget) e =
      Eval.textOfRow src (Eval.memberAt src limit limit.budget) join es)
    (env : Environment) (source : σ) :
    (evaluateRow src limit es env source).Matches join (evaluate src limit e env source) := by
  have hworld := congrFun h { env, source }
  rw [Eval.textOf, Eval.textOfRow, Eval.bind_apply, Eval.bind_apply] at hworld
  rw [evaluateRow_eq, evaluate_eq_limited, limited]
  generalize Eval.expr src _ e { env, source } = r at hworld ⊢
  generalize Eval.texts (es.map _) { env, source } = r' at hworld ⊢
  cases r with
  | ok v w =>
      cases r' with
      | ok ts w' =>
          obtain ⟨htext, rfl⟩ := EStateM.Result.ok.inj hworld
          exact ⟨congrArg Except.ok htext, rfl, rfl, rfl, rfl⟩
      | error f w' => cases hworld
  | error f w =>
      cases r' with
      | ok ts w' => cases hworld
      | error f' w' =>
          obtain ⟨rfl, rfl⟩ := EStateM.Result.error.inj hworld
          exact ⟨rfl, rfl, rfl, rfl, rfl⟩

end

/-! ## The blocks of a definition -/

namespace Line

def IsRule (line : Line) : Prop := ∃ t : Token, line.content = [t] ∧ t.kind = .rule

def StartsRule (line : Line) : Prop := ∃ t ∈ line.content.head?, t.kind = .rule

theorem not_startsRule_of_blank {line : Line} {below : List Line}
    (h : shape line below = .blank) : line.content = [] ∧ ¬ line.StartsRule := by
  have hnil : line.content = [] := by
    unfold shape at h
    split at h
    case h_1 hnil => exact hnil
    case h_2 =>
      split at h
      · cases h
      · cases h
      · unfold shapeOfText at h
        repeat' split at h
        all_goals cases h
  refine ⟨hnil, ?_⟩
  rintro ⟨t, ht, -⟩
  rw [hnil] at ht
  cases ht

theorem not_startsRule_of_text {line content : Line} {below : List Line}
    (h : shape line below = .text content) :
    line.content = content ∧ content ≠ [] ∧ ¬ line.StartsRule := by
  obtain ⟨hcontent, t, ts, rfl, hrule, -⟩ := shape_text_content h
  refine ⟨hcontent, by simp, ?_⟩
  rintro ⟨u, hu, hk⟩
  rw [hcontent] at hu
  obtain rfl := Option.some.inj hu
  exact hrule hk

end Line

namespace Statement

open Line (shape)

/-- The lines below a title are blocks and what is left. A block is the lines up to the next rule,
and another one follows where the look-ahead announces it. -/
inductive Blocked : List Line → List (List Line) → List Line → Prop where
  | last {block : List Line} {rule : Line} {rest : List Line}
      (hblock : ∀ line ∈ block, ¬ line.StartsRule) (hrule : rule.IsRule)
      (hahead : blockAhead rest = false) : Blocked (block ++ rule :: rest) [block] rest
  | more {block : List Line} {rule : Line} {below : List Line} {blocks : List (List Line)}
      {rest : List Line} (hblock : ∀ line ∈ block, ¬ line.StartsRule) (hrule : rule.IsRule)
      (hahead : blockAhead below = true) (h : Blocked below blocks rest) :
      Blocked (block ++ rule :: below) (block :: blocks) rest

theorem Blocked.cons {line : Line} {body : List Line} {block : List Line}
    {blocks : List (List Line)} {rest : List Line} (hline : ¬ line.StartsRule)
    (h : Blocked body (block :: blocks) rest) :
    Blocked (line :: body) ((line :: block) :: blocks) rest := by
  cases h with
  | last hblock hrule hahead =>
      exact .last (List.forall_mem_cons.2 ⟨hline, hblock⟩) hrule hahead
  | more hblock hrule hahead h =>
      exact .more (List.forall_mem_cons.2 ⟨hline, hblock⟩) hrule hahead h

/-- The expressions are the free texts of the lines that are not blank, in order. -/
def FreeTexts (block : List Line) (es : List Expr) : Prop :=
  List.Forall₂ (fun line e => Line.freeText line.content = .ok e)
    (block.filter fun line => !line.content.isEmpty) es

/-- The item joins the lines of the block. -/
def Joins (block : List Line) (item : Expr) : Prop :=
  ∃ es, FreeTexts block es ∧ item = .joinLines es

/-- Blocks that are read have one item each. The first item also has the lines that were read
before. -/
theorem blocks_blocked {title : Token} {name : Text} {done lines : List Expr} {body : List Line}
    {items : List Expr} {rest : List Line}
    (h : blocks title name done lines body = .ok (items, rest)) :
    ∃ block later es items', Blocked body (block :: later) rest ∧ FreeTexts block es ∧
      items = done ++ .joinLines (lines ++ es) :: items' ∧ List.Forall₂ Joins later items' := by
  induction body generalizing done lines with
  | nil => cases h
  | cons line below ih =>
      unfold blocks at h
      cases hs : shape line below with
      | blank =>
          simp only [hs] at h
          obtain ⟨hblank, hrule⟩ := Line.not_startsRule_of_blank hs
          obtain ⟨block, later, es, items', hblocked, hes, hitems, hlater⟩ := ih h
          refine ⟨line :: block, later, es, items', hblocked.cons hrule, ?_, hitems, hlater⟩
          rwa [FreeTexts, List.filter_cons_of_neg (by simp [hblank])]
      | rule junk =>
          simp only [hs] at h
          cases junk with
          | cons t ts => cases h
          | nil =>
              obtain ⟨t, hcontent, hk⟩ := Line.shape_rule_content hs
              have hrule : line.IsRule := ⟨t, hcontent, hk⟩
              have hempty : ∀ l ∈ ([] : List Line), ¬ l.StartsRule := by simp
              simp only [Line.nothing] at h
              by_cases hahead : blockAhead below = true
              · simp only [hahead, if_true] at h
                obtain ⟨block, later, es, items', hblocked, hes, hitems, hlater⟩ := ih h
                refine ⟨[], block :: later, [], .joinLines es :: items',
                  .more hempty hrule hahead hblocked, .nil, ?_, .cons ⟨es, hes, rfl⟩ hlater⟩
                rw [hitems, List.append_nil, List.append_assoc]
                rfl
              · simp only [hahead] at h
                obtain ⟨rfl, rfl⟩ := Prod.mk.inj (Except.ok.inj h)
                refine ⟨[], [], [], [], .last hempty hrule (by simpa using hahead), .nil, ?_, .nil⟩
                rw [List.append_nil]
      | doubleRule t => simp [hs] at h
      | title t name junk body => simp [hs] at h
      | text content =>
          simp only [hs] at h
          obtain ⟨hcontent, hne, hrule⟩ := Line.not_startsRule_of_text hs
          cases htext : Line.freeText content with
          | error e => simp [htext] at h
          | ok e =>
              simp only [htext] at h
              obtain ⟨block, later, es, items', hblocked, hes, hitems, hlater⟩ := ih h
              refine ⟨line :: block, later, e :: es, items', hblocked.cons hrule, ?_, ?_, hlater⟩
              · rw [FreeTexts, List.filter_cons_of_pos (by simp [hcontent, hne])]
                exact .cons (by rw [hcontent, htext]) hes
              · rw [hitems, List.append_assoc]
                rfl

/-- A titled definition that is read has the items that join its blocks. -/
theorem MadeOf.joins {title : Token} {name : Text} {body : List Line} {e : Expr}
    (h : MadeOf title name body (.ok e)) :
    ∃ items blocks, e = .bind .define name items ∧ Blocked body blocks (afterBlocks body) ∧
      List.Forall₂ Joins blocks items := by
  cases h with
  | read hread =>
      obtain ⟨block, later, es, items, hblocked, hes, rfl, hlater⟩ := blocks_blocked hread
      exact ⟨_, _, rfl, hblocked, .cons ⟨es, hes, rfl⟩ hlater⟩

end Statement

/-- Joining keeps the meaning. To evaluate a row that was merged and folded into one expression is
to evaluate its members from left to right and to put their texts together, and to evaluate joined
lines is to evaluate the lines in order with single spaces between their texts: at every depth, and
with the same environment, choices, log entries and failure. In a document that is read, the items
of a titled definition join the free texts of the lines of its blocks, block by block. -/
theorem evaluate_joined_lines [Locator] {σ : Type} (src : Source σ) (limit : Limit) :
    (∀ es : List Expr,
      (∀ depth, Eval.textOf src (Eval.memberAt src limit depth) (.concat es) =
        Eval.textOfRow src (Eval.memberAt src limit depth) List.flatten es) ∧
      ∀ env source, (evaluateRow src limit es env source).Matches List.flatten
        (evaluate src limit (.concat es) env source)) ∧
    (∀ lines : List Expr,
      (∀ depth, Eval.textOf src (Eval.memberAt src limit depth) (.joinLines lines) =
        Eval.textOfRow src (Eval.memberAt src limit depth) (Text.joinWith [Ascii.space]) lines) ∧
      ∀ env source, (evaluateRow src limit lines env source).Matches (Text.joinWith [Ascii.space])
        (evaluate src limit (.joinLines lines) env source)) ∧
    ∀ (file text : Text) (d : Document) (before : List Line) (line rule : Line) (body : List Line)
      (title : Token) (name : Text) (junk : Line), Document.parse file text = .ok d →
      Line.ofText text = before ++ line :: rule :: body →
      Line.shape line (rule :: body) = .title title name junk body →
      ∃ sts s, Statement.Reaches (Line.ofText text) sts (line :: rule :: body) ∧
        d.statements = sts ++ s :: Statement.ofLines (Statement.afterBlocks body) ∧
        ∀ e, s = .ok e → ∃ items blocks, e = .bind .define name items ∧
          Statement.Blocked body blocks (Statement.afterBlocks body) ∧
          List.Forall₂ Statement.Joins blocks items := by
  refine ⟨?_, ?_, ?_⟩
  · intro es
    have htext := fun depth => Eval.textOf_concat src (Eval.memberAt src limit depth) es
    exact ⟨htext, evaluateRow_matches src limit (htext limit.budget)⟩
  · intro lines
    have htext := fun depth => Eval.textOf_joinLines src (Eval.memberAt src limit depth) lines
    exact ⟨htext, evaluateRow_matches src limit (htext limit.budget)⟩
  · intro file text d before line rule body title name junk hd hlines htitle
    obtain ⟨rfl, -⟩ := Document.junk_eq_nil hlines htitle
    obtain ⟨s, hnext, hmade⟩ := Statement.next_of_title htitle
    have htitled : Statement.Titled line (rule :: body) := ⟨_, _, _, _, htitle⟩
    obtain ⟨sts, hreaches, -⟩ := Statement.reaches_titled htitled htitled before
    refine ⟨sts, s, hlines ▸ hreaches, ?_, ?_⟩
    · rw [Document.statements_of_locateAll hd, Statement.ofTokens, Line.split_tokenize, hlines,
        hreaches.ofLines_eq, Statement.ofLines, hnext]
      rfl
    · rintro e rfl
      exact hmade.joins

/-- A definition of two blocks. The first has a blank line, a reference and a draw: its item is one
chain, and does what the two lines do one after the other. -/
theorem evaluate_joined_lines_pet :
    ∃ (line line' item : Expr) (blocks : List (List Line)),
      Document.parse [] (utf8 "pet\n===\na (b)\n\n \x7bb\x7d\n---\nc\n---\nhi") =
        .ok [.ok (.bind .define (utf8 "pet") [item, .lit (utf8 "c")]), .ok (.lit (utf8 "hi"))] ∧
      List.Forall₂ Statement.Joins blocks [item, .lit (utf8 "c")] ∧
      line = .mix (.lit (utf8 "a ")) (.ref (.lit (utf8 "b"))) ∧
      line' = .draw (.lit (utf8 "b")) ∧ item = .mix (.mix line (.lit (utf8 " "))) line' ∧
      ∀ env source, (evaluateRow Script.source .standard [line, line'] env source).Matches
        (Text.joinWith [Ascii.space]) (evaluate Script.source .standard item env source) := by
  let line : Expr := .mix (.lit (utf8 "a ")) (.ref (.lit (utf8 "b")))
  let line' : Expr := .draw (.lit (utf8 "b"))
  let item : Expr := .mix (.mix line (.lit (utf8 " "))) line'
  let body : List Line :=
    [[⟨.name, utf8 "a", 8⟩, ⟨.white, utf8 " ", 9⟩, ⟨.opening .paren, utf8 "(", 10⟩,
        ⟨.name, utf8 "b", 11⟩, ⟨.closing .paren, utf8 ")", 12⟩], [],
      [⟨.white, utf8 " ", 15⟩, ⟨.opening .brace, utf8 "\x7b", 16⟩, ⟨.name, utf8 "b", 17⟩,
        ⟨.closing .brace, utf8 "\x7d", 18⟩], [⟨.rule, utf8 "---", 20⟩], [⟨.name, utf8 "c", 24⟩],
      [⟨.rule, utf8 "---", 26⟩], [⟨.name, utf8 "hi", 30⟩]]
  have hparse : Document.parse [] (utf8 "pet\n===\na (b)\n\n \x7bb\x7d\n---\nc\n---\nhi") =
      .ok [.ok (.bind .define (utf8 "pet") [item, .lit (utf8 "c")]), .ok (.lit (utf8 "hi"))] := by
    decide +kernel
  have hlines : Line.ofText (utf8 "pet\n===\na (b)\n\n \x7bb\x7d\n---\nc\n---\nhi") =
      [] ++ [⟨.name, utf8 "pet", 0⟩] :: [⟨.doubleRule, utf8 "===", 4⟩] :: body := by
    decide +kernel
  have hrest : Statement.ofLines (Statement.afterBlocks body) = [.ok (.lit (utf8 "hi"))] := by
    decide +kernel
  obtain ⟨-, hjoined, hblocks⟩ := evaluate_joined_lines Script.source .standard
  obtain ⟨sts, s, -, hstatements, hitems⟩ := hblocks _ _ _ _ _ _ _ _ _ _ hparse hlines rfl
  rw [hrest] at hstatements
  have htwo : [] ++ [.ok (.bind .define (utf8 "pet") [item, .lit (utf8 "c")]),
      .ok (.lit (utf8 "hi"))] = sts ++ [s, .ok (.lit (utf8 "hi"))] := hstatements
  obtain ⟨-, hs⟩ := List.append_inj' htwo rfl
  obtain ⟨items, blocks, hitem, -, hjoins⟩ := hitems _ (List.cons.inj hs).1.symm
  obtain ⟨-, -, rfl⟩ := Expr.bind.inj hitem
  exact ⟨line, line', item, blocks, hparse, hjoins, rfl, rfl, rfl, (hjoined [line, line']).2⟩

end PoolProse
