import PoolProse.Line

/-!
# Statements

A document is a list of lines. Most statements are one line. A titled definition is a title, a
double rule under it, and blocks of text lines that each end with a rule. After an error in a
definition the next statement starts below all of its blocks.
-/
namespace PoolProse

abbrev Statement := Except SyntaxError Expr

namespace Line

def split : List Token → List Line
  | [] => [[]]
  | t :: ts =>
    match t.kind with
    | .eof => [[]]
    | .newline => [] :: split ts
    | _ =>
      match split ts with
      | [] => [[t]]
      | l :: ls => (t :: l) :: ls

/-- What a line is, seen with the lines below it. -/
inductive Shape where
  | blank
  /-- A rule, and what wrongly follows it. -/
  | rule (junk : Line)
  | doubleRule (token : Token)
  /-- The title of a definition, what wrongly follows the double rule under it, and the lines
  below that. -/
  | title (token : Token) (name : Text) (junk : Line) (body : List Line)
  | text (content : Line)
  deriving Repr

def shapeOfText (t : Token) (ts : Line) (below : List Line) : Shape :=
  match poolName (t :: ts) with
  | none => .text (t :: ts)
  | some (name, rest) =>
    match below with
    | (u :: junk) :: body =>
      if rest.all Token.isWhite && u.kind == .doubleRule then .title t name junk body
      else .text (t :: ts)
    | _ => .text (t :: ts)

def shape (line : Line) (below : List Line) : Shape :=
  match line.content with
  | [] => .blank
  | t :: ts =>
    match t.kind with
    | .rule => .rule ts
    | .doubleRule => .doubleRule t
    | _ => shapeOfText t ts below

def nothing : Line → Except SyntaxError Unit
  | [] => .ok ()
  | t :: _ => .error ⟨.unexpectedToken, t⟩

end Line

namespace Statement

open Line (shape)

/-! ## Blocks -/

/-- Whether a rule closes these lines before a title, a double rule or the end. -/
def closes : List Line → Bool
  | [] => false
  | line :: below =>
    match shape line below with
    | .rule _ => true
    | .blank | .text _ => closes below
    | .doubleRule _ | .title .. => false

def blockAhead : List Line → Bool
  | [] => false
  | line :: below =>
    match shape line below with
    | .blank => false
    | _ => closes (line :: below)

/-- The lines below all blocks of a definition. If the first block is not closed, these start with
the line that cuts it off. -/
def afterBlocks : List Line → List Line
  | [] => []
  | line :: below =>
    match shape line below with
    | .rule _ => if blockAhead below then afterBlocks below else below
    | .blank | .text _ => afterBlocks below
    | .doubleRule _ | .title .. => line :: below

/-- Reads blocks. `done` holds the items of the blocks that are complete and `lines` the lines read
of the current one. The answer is all items and the lines below. -/
def blocks (title : Token) (name : Text) (done lines : List Expr) :
    List Line → Except SyntaxError (List Expr × List Line)
  | [] => .error ⟨.unterminatedBlock name, title⟩
  | line :: below =>
    match shape line below with
    | .blank => blocks title name done lines below
    | .rule junk =>
      match Line.nothing junk with
      | .error e => .error e
      | .ok () =>
        if blockAhead below then blocks title name (done ++ [.joinLines lines]) [] below
        else .ok (done ++ [.joinLines lines], below)
    | .doubleRule _ | .title .. => .error ⟨.unterminatedBlock name, title⟩
    | .text content =>
      match Line.freeText content with
      | .error e => .error e
      | .ok e => blocks title name done (lines ++ [e]) below

def definition (title : Token) (name : Text) (junk : Line) (body : List Line) :
    Statement × List Line :=
  match Line.nothing junk with
  | .error e => (.error e, body)
  | .ok () =>
    match blocks title name [] [] body with
    | .error e => (.error e, afterBlocks body)
    | .ok (items, rest) => (.ok (.bind .define name items), rest)

/-! ## Statements of a document -/

/-- The statement that starts with `line`, if it is one, and the lines after it. -/
def next (line : Line) (below : List Line) : Option Statement × List Line :=
  match shape line below with
  | .blank => (none, below)
  | .rule _ => (none, below)
  | .doubleRule t => (some (.error ⟨.ruleWithoutTitle, t⟩), below)
  | .title t name junk body => (definition t name junk body).map some id
  | .text content => (some (Line.expr content), below)

theorem afterBlocks_length (lines : List Line) : (afterBlocks lines).length ≤ lines.length := by
  fun_induction afterBlocks lines <;> simp only [List.length_cons, List.length_nil] <;> omega

theorem blocks_length {title : Token} {name : Text} {done lines : List Expr} {body : List Line}
    {items : List Expr} {rest : List Line}
    (h : blocks title name done lines body = .ok (items, rest)) : rest.length ≤ body.length := by
  fun_induction blocks title name done lines body <;> simp_all <;> omega

theorem shape_title_length {line : Line} {below : List Line} {t : Token} {name : Text}
    {junk : Line} {body : List Line} (h : shape line below = .title t name junk body) :
    body.length ≤ below.length := by
  unfold shape at h
  split at h
  · simp at h
  · split at h
    · simp at h
    · simp at h
    · unfold Line.shapeOfText at h
      repeat' split at h
      all_goals simp_all

theorem next_length (line : Line) (below : List Line) :
    (next line below).2.length ≤ below.length := by
  unfold next
  split
  · exact Nat.le_refl _
  · exact Nat.le_refl _
  · exact Nat.le_refl _
  case h_4 t name junk body hs =>
    have hb := shape_title_length hs
    simp only [Prod.map, definition]
    split
    · exact hb
    · split
      · exact Nat.le_trans (afterBlocks_length body) hb
      case h_2 hr => exact Nat.le_trans (blocks_length hr) hb
  · exact Nat.le_refl _

def ofLines : List Line → List Statement
  | [] => []
  | line :: below => (next line below).1.toList ++ ofLines (next line below).2
termination_by lines => lines.length
decreasing_by
  have := next_length line below
  simp only [List.length_cons]
  omega

def ofTokens (ts : List Token) : List Statement := ofLines (Line.split ts)

end Statement

end PoolProse
