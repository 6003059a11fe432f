import PoolProse.Expr
import PoolProse.Text.CodePoint

/-!
# Lines

The tokens between two newlines are a line. A line is free text, or a pool name and a binding
operator followed by items. Groups may nest; the scan keeps the open ones on a stack.
-/
namespace PoolProse

inductive SyntaxError.Cause where
  | operatorWithoutName
  | ruleWithoutTitle
  | unexpectedToken
  | unmatchedGroup
  | unterminatedBlock (name : Text)
  deriving DecidableEq, Repr

structure SyntaxError where
  cause : SyntaxError.Cause
  token : Token
  deriving DecidableEq, Repr

abbrev Line := List Token

namespace Token

def isWhite (t : Token) : Bool := t.kind == .white

def decodeEscape : Text → Text
  | [] => [Ascii.backslash]
  | [_] => [Ascii.backslash]
  | _ :: t =>
    if t == [Ascii.letterN] then [Ascii.newline]
    else if t == [Ascii.letterT] then [Ascii.tab]
    else t

end Token

namespace Line

def content (line : Line) : Line := line.dropWhile Token.isWhite

/-- The pool name that a line starts with, and what follows it. A name may start with a number, as
in "7 seas", or be one. -/
def poolName : Line → Option (Text × Line)
  | [] => none
  | t :: ts =>
    match t.kind with
    | .name => some (t.text, ts)
    | .number =>
      match ts.dropWhile Token.isWhite with
      | u :: us =>
        if u.kind == .name then
          some (t.text ++ (ts.takeWhile Token.isWhite).flatMap Token.text ++ u.text, us)
        else some (t.text, ts)
      | [] => some (t.text, ts)
    | _ => none

/-! ## Scanning text and groups -/

structure Level where
  segments : List Expr := []
  literal : Text := []
  /-- White space that belongs to the text only if something follows it. -/
  held : Text := []
  /-- Whether anything but white space has been read. -/
  begun : Bool := false
  deriving Repr

/-- An open group: its bracket and the level around it. -/
structure Enclosing where
  opener : Token
  bracket : Bracket
  outer : Level
  deriving Repr

namespace Level

/-- Adds text. Outside of groups, white space held back before it is kept unless it came first. -/
def write (outermost : Bool) (t : Text) (l : Level) : Level :=
  if outermost then
    { l with literal := (if l.begun then l.literal ++ l.held else l.literal) ++ t
             held := [], begun := true }
  else { l with literal := l.literal ++ t, begun := true }

def blank (outermost : Bool) (t : Text) (l : Level) : Level :=
  if outermost then { l with held := l.held ++ t } else { l with literal := l.literal ++ t }

def flush (l : Level) : Level :=
  if l.literal.isEmpty then l
  else { l with segments := l.segments ++ [.lit l.literal], literal := [] }

def push (e : Expr) (l : Level) : Level := { l with segments := l.segments ++ [e] }

def finish (l : Level) : Expr := Expr.concat l.flush.segments

end Level

/-- Scans the rest of a line. `done` holds the items that are complete, `level` the innermost open
group or the text itself, and `enclosing` the groups around it. A bar ends an item only if `items`
is set and no group is open. -/
def scan (items : Bool) (done : List Expr) (level : Level) (enclosing : List Enclosing) :
    List Token → Except SyntaxError (List Expr × Expr)
  | [] =>
    match enclosing with
    | [] => .ok (done, level.finish)
    | e :: _ => .error ⟨.unmatchedGroup, e.opener⟩
  | t :: ts =>
    match t.kind with
    | .white => scan items done (level.blank enclosing.isEmpty t.text) enclosing ts
    | .name => scan items done (level.write enclosing.isEmpty t.text) enclosing ts
    | .number => scan items done (level.write enclosing.isEmpty t.text) enclosing ts
    | .escape =>
      scan items done (level.write enclosing.isEmpty (Token.decodeEscape t.text)) enclosing ts
    | .opening b =>
      scan items done {} (⟨t, b, (level.write enclosing.isEmpty []).flush⟩ :: enclosing) ts
    | .closing b =>
      match enclosing with
      | [] => .error ⟨.unmatchedGroup, t⟩
      | e :: es =>
        if e.bracket = b then scan items done (e.outer.push (.group b level.finish)) es ts
        else .error ⟨.unmatchedGroup, t⟩
    | .pipe =>
      if items && enclosing.isEmpty then scan items (done ++ [level.finish]) {} [] ts
      else .error ⟨.operatorWithoutName, t⟩
    | .binding _ => .error ⟨.operatorWithoutName, t⟩
    | _ =>
      match enclosing with
      | [] => .error ⟨.unexpectedToken, t⟩
      | e :: _ => .error ⟨.unmatchedGroup, e.opener⟩

def freeText (ts : List Token) : Except SyntaxError Expr :=
  (scan false [] {} [] ts).map Prod.snd

def itemList (ts : List Token) : Except SyntaxError (List Expr) :=
  (scan true [] {} [] ts).map fun (done, last) => done ++ [last]

/-- The expression of a line: a binding if it starts with a pool name and a binding operator, and
free text otherwise. -/
def expr (line : Line) : Except SyntaxError Expr :=
  match poolName line with
  | some (name, t :: ts) =>
    match t.kind with
    | .binding op => (itemList ts).map (.bind op name)
    | _ => freeText line
  | _ => freeText line

end Line

end PoolProse
