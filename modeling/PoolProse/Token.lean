import PoolProse.Text

/-!
# Tokens

A document is a sequence of tokens. Each token keeps its bytes and the offset of the first of them.
-/
namespace PoolProse

/-- The two kinds of group: parentheses refer to a pool, braces draw from it. -/
inductive Bracket where
  | paren
  | brace
  deriving DecidableEq, Repr

/-- The four operators that bind a name to a pool: with or without a choice among the items, and
with or without evaluating them. -/
inductive Binding where
  | define
  | defineEval
  | select
  | selectEval
  deriving DecidableEq, Repr

def Binding.symbol : Binding → Text
  | .define => [Ascii.colon, Ascii.colon]
  | .defineEval => [Ascii.colon, Ascii.bang]
  | .select => [Ascii.less, Ascii.dash]
  | .selectEval => [Ascii.less, Ascii.bang]

namespace Token

/-- What a token is. A number outside the table of kinds is a kind of its own, which no line of a
document may hold. -/
inductive Kind where
  | eof
  | name
  | number
  | white
  | newline
  | binding (op : Binding)
  | pipe
  | opening (b : Bracket)
  | closing (b : Bracket)
  | escape
  | rule
  | doubleRule
  | unknown (code : Int)
  deriving DecidableEq, Repr

namespace Kind

def table : List Kind :=
  [.eof, .name, .number, .white, .newline, .binding .define, .binding .defineEval,
    .binding .select, .binding .selectEval, .pipe, .opening .paren, .closing .paren,
    .opening .brace, .closing .brace, .escape, .rule, .doubleRule]

def ofCode : Int → Kind
  | .ofNat n => table.getD n (.unknown (.ofNat n))
  | .negSucc n => .unknown (.negSucc n)

def label : Kind → String
  | .eof => "eof"
  | .name => "name"
  | .number => "number"
  | .white => "white"
  | .newline => "newline"
  | .binding .define => "define"
  | .binding .defineEval => "defEval"
  | .binding .select => "select"
  | .binding .selectEval => "selEval"
  | .pipe => "pipe"
  | .opening .paren => "lparen"
  | .closing .paren => "rparen"
  | .opening .brace => "lbrace"
  | .closing .brace => "rbrace"
  | .escape => "escape"
  | .rule => "rule1"
  | .doubleRule => "rule2"
  | .unknown _ => "*UNKNOWN TOKEN*"

def isBinding : Kind → Bool
  | .binding _ => true
  | _ => false

end Kind

end Token

structure Token where
  kind : Token.Kind
  text : Text
  /-- The byte offset of the first byte of `text` in the document. -/
  offset : Int
  deriving DecidableEq, Repr

def Token.describe (t : Token) : Text :=
  utf8 t.kind.label ++ utf8 ": '" ++ t.text ++ utf8 "'"

end PoolProse
