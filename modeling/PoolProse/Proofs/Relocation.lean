import PoolProse.Document

/-!
# Reading does not depend on places

Tokens are read by their kind and their text. If all tokens of a document are replaced by tokens
of the same kinds and texts at other places, its statements stay the same up to the tokens that the
syntax errors point to. A document that the locator can place has the statements of its tokens.
-/
namespace PoolProse

/-- A change of tokens that keeps their kinds and texts. -/
structure Token.Keeps (f : Token → Token) : Prop where
  kind : ∀ t, (f t).kind = t.kind
  text : ∀ t, (f t).text = t.text

/-- The error with another token in the place of its own. -/
def SyntaxError.relocate (f : Token → Token) (e : SyntaxError) : SyntaxError :=
  { e with token := f e.token }

section

variable {f : Token → Token} (hf : Token.Keeps f)
include hf

theorem Token.Keeps.comp_isWhite : Token.isWhite ∘ f = Token.isWhite := by
  funext t
  simp only [Function.comp, Token.isWhite, hf.kind]

namespace Line

theorem dropWhile_isWhite_map (line : Line) :
    (line.map f).dropWhile Token.isWhite = (line.dropWhile Token.isWhite).map f := by
  rw [List.dropWhile_map, hf.comp_isWhite]

theorem takeWhile_isWhite_map (line : Line) :
    (line.map f).takeWhile Token.isWhite = (line.takeWhile Token.isWhite).map f := by
  rw [List.takeWhile_map, hf.comp_isWhite]

theorem flatMap_text_map (line : Line) :
    (line.map f).flatMap Token.text = line.flatMap Token.text := by
  rw [List.flatMap_map]
  exact congrArg (List.flatMap · line) (funext hf.text)

theorem poolName_map (line : Line) :
    poolName (line.map f) = (poolName line).map (Prod.map id (List.map f)) := by
  cases line with
  | nil => rfl
  | cons t ts =>
      simp only [List.map_cons, poolName, hf.kind, hf.text, dropWhile_isWhite_map hf,
        takeWhile_isWhite_map hf, flatMap_text_map hf]
      cases t.kind with
      | number =>
          cases ts.dropWhile Token.isWhite with
          | nil => rfl
          | cons u us =>
              simp only [List.map_cons, hf.kind, hf.text]
              split <;> rfl
      | _ => rfl

def Enclosing.relocate (f : Token → Token) (e : Enclosing) : Enclosing :=
  { e with opener := f e.opener }

theorem scan_map (items : Bool) (done : List Expr) (level : Level) (enclosing : List Enclosing)
    (ts : List Token) :
    scan items done level (enclosing.map (Enclosing.relocate f)) (ts.map f) =
      (scan items done level enclosing ts).mapError (SyntaxError.relocate f) := by
  induction ts generalizing done level enclosing with
  | nil => cases enclosing <;> rfl
  | cons t ts ih =>
      simp only [List.map_cons, scan, hf.kind, hf.text, List.isEmpty_map]
      cases hk : t.kind with
      | white => exact ih _ _ _
      | name => exact ih _ _ _
      | number => exact ih _ _ _
      | escape => exact ih _ _ _
      | opening b => exact ih _ _ (⟨t, b, _⟩ :: enclosing)
      | closing b =>
          cases enclosing with
          | nil => rfl
          | cons e es =>
              simp only [List.map_cons, Enclosing.relocate]
              split
              · exact ih _ _ es
              · rfl
      | pipe =>
          simp only
          split
          · exact ih _ _ []
          · rfl
      | binding op => rfl
      | _ => cases enclosing <;> rfl

theorem freeText_map (ts : List Token) :
    freeText (ts.map f) = (freeText ts).mapError (SyntaxError.relocate f) := by
  simp only [freeText]
  have hscan := scan_map hf false [] {} [] ts
  rw [List.map_nil] at hscan
  rw [hscan]
  cases scan false [] {} [] ts <;> rfl

theorem itemList_map (ts : List Token) :
    itemList (ts.map f) = (itemList ts).mapError (SyntaxError.relocate f) := by
  simp only [itemList]
  have hscan := scan_map hf true [] {} [] ts
  rw [List.map_nil] at hscan
  rw [hscan]
  cases scan true [] {} [] ts <;> rfl

theorem expr_map (line : Line) :
    expr (line.map f) = (expr line).mapError (SyntaxError.relocate f) := by
  simp only [expr, poolName_map hf]
  cases poolName line with
  | none => exact freeText_map hf line
  | some p =>
      obtain ⟨name, rest⟩ := p
      cases rest with
      | nil => exact freeText_map hf line
      | cons t ts =>
          simp only [Option.map_some, Prod.map, id, List.map_cons, hf.kind]
          cases t.kind with
          | binding op =>
              simp only [itemList_map hf]
              cases itemList ts <;> rfl
          | _ => exact freeText_map hf line

theorem split_map (ts : List Token) : split (ts.map f) = (split ts).map (List.map f) := by
  induction ts with
  | nil => rfl
  | cons t ts ih =>
      simp only [List.map_cons, split, hf.kind, ih]
      cases t.kind with
      | eof => rfl
      | newline => rfl
      | _ => cases split ts <;> rfl

def Shape.relocate (f : Token → Token) : Shape → Shape
  | .blank => .blank
  | .rule junk => .rule (junk.map f)
  | .doubleRule t => .doubleRule (f t)
  | .title t name junk body => .title (f t) name (junk.map f) (body.map (List.map f))
  | .text content => .text (content.map f)

theorem shapeOfText_map (t : Token) (ts : Line) (below : List Line) :
    shapeOfText (f t) (ts.map f) (below.map (List.map f)) =
      (shapeOfText t ts below).relocate f := by
  simp only [shapeOfText]
  rw [← List.map_cons, poolName_map hf]
  cases poolName (t :: ts) with
  | none => rfl
  | some p =>
      obtain ⟨name, rest⟩ := p
      match below with
      | [] => rfl
      | [] :: body => rfl
      | (u :: junk) :: body =>
          simp only [Option.map_some, Prod.map, id, List.map_cons, hf.kind, List.all_map,
            hf.comp_isWhite]
          split <;> rfl

theorem shape_map (line : Line) (below : List Line) :
    shape (line.map f) (below.map (List.map f)) = (shape line below).relocate f := by
  simp only [shape, content, dropWhile_isWhite_map hf]
  cases line.dropWhile Token.isWhite with
  | nil => rfl
  | cons t ts =>
      simp only [List.map_cons, hf.kind]
      cases t.kind with
      | rule => rfl
      | doubleRule => rfl
      | _ => exact shapeOfText_map hf t ts below

end Line

namespace Statement

open Line (shape shape_map)

def relocate (f : Token → Token) (s : Statement) : Statement :=
  s.mapError (SyntaxError.relocate f)

theorem closes_map (lines : List Line) : closes (lines.map (List.map f)) = closes lines := by
  induction lines with
  | nil => rfl
  | cons line below ih =>
      simp only [List.map_cons, closes, shape_map hf]
      cases shape line below with
      | blank => exact ih
      | text content => exact ih
      | _ => rfl

theorem blockAhead_map (lines : List Line) :
    blockAhead (lines.map (List.map f)) = blockAhead lines := by
  cases lines with
  | nil => rfl
  | cons line below =>
      have hcloses := closes_map hf (line :: below)
      rw [List.map_cons] at hcloses
      simp only [List.map_cons, blockAhead, shape_map hf, hcloses]
      cases shape line below <;> rfl

theorem afterBlocks_map (lines : List Line) :
    afterBlocks (lines.map (List.map f)) = (afterBlocks lines).map (List.map f) := by
  induction lines with
  | nil => rfl
  | cons line below ih =>
      simp only [List.map_cons, afterBlocks, shape_map hf, blockAhead_map hf]
      cases shape line below with
      | blank => exact ih
      | text content => exact ih
      | rule junk =>
          simp only [Line.Shape.relocate]
          split
          · exact ih
          · rfl
      | _ => rfl

omit hf in
theorem nothing_map (line : Line) :
    Line.nothing (line.map f) = (Line.nothing line).mapError (SyntaxError.relocate f) := by
  cases line <;> rfl

omit hf in
theorem mapError_ok {α : Type} (a : α) :
    (Except.ok a).mapError (SyntaxError.relocate f) = .ok a := rfl

theorem blocks_map (title : Token) (name : Text) (done lines : List Expr) (body : List Line) :
    blocks (f title) name done lines (body.map (List.map f)) =
      ((blocks title name done lines body).mapError (SyntaxError.relocate f)).map
        (Prod.map id (List.map (List.map f))) := by
  induction body generalizing done lines with
  | nil => rfl
  | cons line below ih =>
      simp only [List.map_cons, blocks, shape_map hf, blockAhead_map hf]
      cases shape line below with
      | blank => exact ih _ _
      | rule junk =>
          simp only [Line.Shape.relocate, nothing_map]
          cases Line.nothing junk with
          | error e => rfl
          | ok _ =>
              simp only [mapError_ok]
              split
              · exact ih _ _
              · rfl
      | text content =>
          simp only [Line.Shape.relocate, Line.freeText_map hf]
          cases Line.freeText content with
          | error e => rfl
          | ok e => exact ih _ _
      | _ => rfl

theorem definition_map (title : Token) (name : Text) (junk : Line) (body : List Line) :
    definition (f title) name (junk.map f) (body.map (List.map f)) =
      (definition title name junk body).map (relocate f) (List.map (List.map f)) := by
  simp only [definition, nothing_map]
  cases Line.nothing junk with
  | error e => rfl
  | ok _ =>
      simp only [mapError_ok, blocks_map hf, afterBlocks_map hf]
      cases blocks title name [] [] body <;> rfl

theorem next_map (line : Line) (below : List Line) :
    next (line.map f) (below.map (List.map f)) =
      (next line below).map (Option.map (relocate f)) (List.map (List.map f)) := by
  simp only [next, shape_map hf]
  cases shape line below with
  | title t name junk body =>
      simp only [Line.Shape.relocate, definition_map hf]
      rfl
  | text content =>
      simp only [Line.Shape.relocate, Line.expr_map hf]
      rfl
  | _ => rfl

theorem ofLines_map (lines : List Line) :
    ofLines (lines.map (List.map f)) = (ofLines lines).map (relocate f) := by
  fun_induction ofLines lines with
  | case1 => rw [List.map_nil, ofLines, List.map_nil]
  | case2 line below ih =>
      rw [List.map_cons, ofLines, next_map hf, Prod.map_fst, Prod.map_snd, ih, List.map_append,
        Option.toList_map]

theorem ofTokens_map (ts : List Token) : ofTokens (ts.map f) = (ofTokens ts).map (relocate f) := by
  rw [ofTokens, Line.split_map hf, ofLines_map hf, ofTokens]

end Statement

end

/-! ## Documents and their statements -/

namespace Statement

def error? : Statement → Option SyntaxError
  | .ok _ => none
  | .error e => some e

/-- Whether the place of the error, if there is one, can be found in the source. -/
def isLocated [Locator] (source : Text) : Statement → Bool
  | .ok _ => true
  | .error e => (Locator.position source e.token.offset).isOk

end Statement

namespace Document

/-- The locator answers for every offset that reading the text asks it about. -/
def Locatable [Locator] (text : Text) : Prop :=
  ∀ s ∈ Statement.ofTokens (tokenize text), s.isLocated text = true

instance [Locator] (text : Text) : Decidable (Locatable text) :=
  inferInstanceAs (Decidable (∀ s ∈ Statement.ofTokens (tokenize text), s.isLocated text = true))

/-- The statements of a document, its errors without their places. -/
def statements (d : Document) : List Statement := d.map (Except.mapError SyntaxIssue.error)

theorem expressions_eq (d : Document) :
    d.expressions = d.statements.filterMap Except.toOption := by
  rw [statements, List.filterMap_map, expressions]
  congr 1
  funext s
  cases s <;> rfl

theorem issues_map_error (d : Document) :
    d.issues.map SyntaxIssue.error = d.statements.filterMap Statement.error? := by
  rw [statements, List.filterMap_map, issues, List.map_filterMap]
  congr 1
  funext s
  cases s <;> rfl

theorem locateAll_located [Locator] (file source : Text) (ts : List Token) {sts : List Statement}
    (h : ∀ s ∈ sts, s.isLocated source = true) :
    ∃ d, locateAll file source ts sts = .ok d ∧ d.statements = sts := by
  induction sts with
  | nil => exact ⟨[], rfl, rfl⟩
  | cons s sts ih =>
      obtain ⟨hs, hsts⟩ := List.forall_mem_cons.1 h
      obtain ⟨d, hd, rfl⟩ := ih hsts
      cases s with
      | ok e => exact ⟨.ok e :: d, by simp only [locateAll, hd], rfl⟩
      | error e =>
          simp only [Statement.isLocated] at hs
          cases hp : Locator.position source e.token.offset with
          | error f => rw [hp] at hs; cases hs
          | ok p =>
              refine ⟨.error ⟨e, indexOf ts e.token, ⟨file, p.line, p.column⟩⟩ :: d, ?_, rfl⟩
              simp only [locateAll, locate, hp, hd]

theorem parse_locatable [Locator] (file : Text) {text : Text} (h : Locatable text) :
    ∃ d, parse file text = .ok d ∧ d.statements = Statement.ofTokens (tokenize text) :=
  locateAll_located file text (tokenize text) h

end Document

end PoolProse
