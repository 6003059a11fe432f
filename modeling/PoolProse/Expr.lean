import PoolProse.Token

/-!
# Expressions

An expression is literal text, a mix of two expressions, a reference to or a draw from a pool, or
the binding of a pool to a name. It can be written back as source.
-/
namespace PoolProse

inductive Expr where
  | lit (text : Text)
  | mix (left right : Expr)
  | ref (name : Expr)
  | draw (name : Expr)
  | bind (op : Binding) (name : Text) (items : List Expr)
  /-- An operand that was left out. It has no source and no value. -/
  | missing
  deriving Repr, Inhabited

abbrev Pool := List Expr

namespace Expr

/-! ## Chains -/

def mixAll : List Expr → Expr
  | [] => .lit []
  | e :: es => es.foldl .mix e

/-- The operands of a chain of mixes that was folded from the left. -/
def operands : Expr → List Expr
  | .mix l r => operands l ++ [r]
  | e => [e]

/-- Makes one literal of neighbouring literals. -/
def mergeLits : List Expr → List Expr
  | [] => []
  | .lit s :: es =>
    match mergeLits es with
    | .lit t :: rest => .lit (s ++ t) :: rest
    | rest => .lit s :: rest
  | e :: es => e :: mergeLits es

def concat (es : List Expr) : Expr := mixAll (mergeLits es)

/-- The operands of all lines, with a literal space between neighbouring lines. -/
def spaced : List Expr → List Expr
  | [] => []
  | [e] => operands e
  | e :: f :: es => operands e ++ .lit [Ascii.space] :: spaced (f :: es)

def joinLines (lines : List Expr) : Expr := concat (spaced lines)

def group : Bracket → Expr → Expr
  | .paren, e => .ref e
  | .brace, e => .draw e

def isBinding : Expr → Bool
  | .bind .. => true
  | _ => false

/-! ## Source -/

def escapeByte (b : UInt8) : Text :=
  if b == Ascii.newline then [Ascii.backslash, Ascii.letterN]
  else if b == Ascii.tab then [Ascii.backslash, Ascii.letterT]
  else if b == Ascii.backslash || b == Ascii.parenOpen || b == Ascii.parenClose ||
      b == Ascii.braceOpen || b == Ascii.braceClose || b == Ascii.bar then
    [Ascii.backslash, b]
  else [b]

def escapeText (t : Text) : Text := t.flatMap escapeByte

mutual

/-- The source of an expression. A missing operand has none. -/
def render : Expr → Text
  | .lit t => escapeText t
  | .mix l r => render l ++ render r
  | .ref e => Ascii.parenOpen :: (render e ++ [Ascii.parenClose])
  | .draw e => Ascii.braceOpen :: (render e ++ [Ascii.braceClose])
  | .bind op name items => name ++ Ascii.space :: op.symbol ++ renderItems items
  | .missing => []

def renderItems : List Expr → Text
  | [] => []
  | e :: es => Ascii.space :: (render e ++ renderMore es)

def renderMore : List Expr → Text
  | [] => []
  | e :: es => Ascii.space :: Ascii.bar :: Ascii.space :: (render e ++ renderMore es)

end

mutual

/-- No operand is missing at any depth. -/
def isComplete : Expr → Bool
  | .lit _ => true
  | .mix l r => isComplete l && isComplete r
  | .ref e => isComplete e
  | .draw e => isComplete e
  | .bind _ _ items => allComplete items
  | .missing => false

def allComplete : List Expr → Bool
  | [] => true
  | e :: es => isComplete e && allComplete es

end

/-! ## Comparison -/

mutual

def same : Expr → Expr → Bool
  | .lit s, .lit t => s == t
  | .mix l r, .mix l' r' => same l l' && same r r'
  | .ref e, .ref f => same e f
  | .draw e, .draw f => same e f
  | .bind op name items, .bind op' name' items' =>
    op == op' && name == name' && sameAll items items'
  | .missing, .missing => true
  | _, _ => false

def sameAll : List Expr → List Expr → Bool
  | [], [] => true
  | e :: es, f :: fs => same e f && sameAll es fs
  | _, _ => false

end

mutual

theorem same_iff (e f : Expr) : same e f = true ↔ e = f := by
  cases e <;> cases f <;> simp [same, same_iff, sameAll_iff, and_assoc]

theorem sameAll_iff (es fs : List Expr) : sameAll es fs = true ↔ es = fs := by
  cases es <;> cases fs <;> simp [sameAll, same_iff, sameAll_iff]

end

instance : DecidableEq Expr := fun e f => decidable_of_iff _ (same_iff e f)

end Expr

end PoolProse
