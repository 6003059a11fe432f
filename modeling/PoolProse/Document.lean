import PoolProse.Issue
import PoolProse.Position
import PoolProse.Statement
import PoolProse.Token.Scan

/-!
# Documents

Reading a whole document: its tokens, its statements, and for every statement that is refused an
issue with the place in the source.
-/
namespace PoolProse

namespace SyntaxError

def code (e : SyntaxError) : String :=
  match e.cause with
  | .operatorWithoutName => "INVOCAT_OPERATOR_WITHOUT_NAME"
  | .ruleWithoutTitle => "INVOCAT_RULE_WITHOUT_TITLE"
  | .unexpectedToken => "INVOCAT_UNEXPECTED_TOKEN"
  | .unmatchedGroup => "INVOCAT_UNMATCHED_GROUP"
  | .unterminatedBlock _ => "INVOCAT_UNTERMINATED_BLOCK"

def arguments (e : SyntaxError) : List (String × Text) :=
  match e.cause with
  | .operatorWithoutName => [("operator", e.token.text.trim)]
  | .ruleWithoutTitle => []
  | .unexpectedToken => [("token", e.token.text), ("type", utf8 e.token.kind.label)]
  | .unmatchedGroup => [("token", e.token.text)]
  | .unterminatedBlock name => [("name", name)]

def message (e : SyntaxError) : Text :=
  match e.cause with
  | .operatorWithoutName =>
    utf8 "operator '" ++ e.token.text.trim ++ utf8 "' must be preceded by a single pool name"
  | .ruleWithoutTitle => utf8 "a line of '=' must follow the title of a block definition"
  | .unexpectedToken =>
    utf8 "unexpected " ++ utf8 e.token.kind.label ++ utf8 " '" ++ e.token.text ++ utf8 "'"
  | .unmatchedGroup => utf8 "unmatched '" ++ e.token.text ++ utf8 "'"
  | .unterminatedBlock name =>
    utf8 "the last block of '" ++ name ++ utf8 "' is not closed by a line of '-'"

end SyntaxError

/-- A syntax error with the number of its token and its place in the source. -/
structure SyntaxIssue where
  error : SyntaxError
  index : Nat
  location : Location
  deriving DecidableEq, Repr

namespace SyntaxIssue

def toIssue (i : SyntaxIssue) : Issue :=
  { severity := .error, text := i.error.message, location := some i.location }

def message (i : SyntaxIssue) : Text := i.toIssue.message

end SyntaxIssue

abbrev Document := List (Except SyntaxIssue Expr)

namespace Document

/-- The number of the first token that has the kind and the offset of `t`. -/
def indexOf (ts : List Token) (t : Token) : Nat :=
  ts.findIdx fun u => u.offset == t.offset && u.kind == t.kind

def locate [Locator] (file source : Text) (ts : List Token) (e : SyntaxError) :
    Except Position.Failure SyntaxIssue :=
  match Locator.position source e.token.offset with
  | .error f => .error f
  | .ok p => .ok ⟨e, indexOf ts e.token, ⟨file, p.line, p.column⟩⟩

def locateAll [Locator] (file source : Text) (ts : List Token) :
    List Statement → Except Position.Failure Document
  | [] => .ok []
  | .ok e :: rest =>
    match locateAll file source ts rest with
    | .error f => .error f
    | .ok d => .ok (.ok e :: d)
  | .error e :: rest =>
    match locate file source ts e with
    | .error f => .error f
    | .ok i =>
      match locateAll file source ts rest with
      | .error f => .error f
      | .ok d => .ok (.error i :: d)

/-- Puts every token at its offset, when `pos` bytes have been written, and fills gaps with
spaces. -/
def layoutFrom (pos : Nat) : List Token → Text
  | [] => []
  | t :: ts =>
    let gap := (t.offset - pos).toNat
    List.replicate gap Ascii.space ++ t.text ++ layoutFrom (pos + gap + t.text.length) ts

def layout (ts : List Token) : Text := layoutFrom 0 ts

/-- Reads tokens. Places refer to a source laid out from them. -/
def ofTokens [Locator] (ts : List Token) : Except Position.Failure Document :=
  locateAll [] (layout ts) ts (Statement.ofTokens ts)

def parse [Locator] (file text : Text) : Except Position.Failure Document :=
  locateAll file text (tokenize text) (Statement.ofTokens (tokenize text))

def expressions (d : Document) : List Expr := d.filterMap Except.toOption

def issues (d : Document) : List SyntaxIssue :=
  d.filterMap fun
    | .error i => some i
    | .ok _ => none

end Document

end PoolProse
