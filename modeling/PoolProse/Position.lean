import PoolProse.Text.CodePoint

/-!
# Positions

The line and column of a byte offset in a source, both counted from 1 and columns in code points.
Lines are told apart up to the first NUL byte only. A source with the replacement character before
that byte, be it written or read in place of a byte that is not UTF-8, has no positions.
-/
namespace PoolProse

structure Position where
  line : Nat
  column : Nat
  deriving DecidableEq, Repr

namespace Position

inductive Failure where
  | badCodePoint (offset : Nat)
  | negativeOffset
  deriving DecidableEq, Repr

def Failure.message? : Failure → Option Text
  | .badCodePoint offset => some (utf8 "invalid unicode character at offset " ++ Text.ofNat offset)
  | .negativeOffset => none

/-- The offsets after each newline, when the code points start at `offset`. -/
def startsFrom (offset : Nat) : List CodePoint → Except Failure (List Nat)
  | [] => .ok []
  | r :: rs =>
    if r.code = 0 then .ok []
    else if r.code = CodePoint.replacement then .error (.badCodePoint offset)
    else
      match startsFrom (offset + r.size) rs with
      | .error e => .error e
      | .ok starts => .ok (if r.code = 10 then (offset + 1) :: starts else starts)

def lineStarts (source : Text) : Except Failure (List Nat) :=
  (startsFrom 0 source.codePoints).map (0 :: ·)

/-- The position of an offset, given where lines start. -/
def among (source : Text) (starts : List Nat) (offset : Nat) : Position :=
  let reached := starts.filter (· ≤ offset)
  let start := reached.getLastD 0
  ⟨reached.length, 1 + Text.codePointCount ((source.take offset).drop start)⟩

def ofOffset (source : Text) (offset : Int) : Except Failure Position :=
  match lineStarts source, offset with
  | .error e, _ => .error e
  | .ok starts, .ofNat n => .ok (among source starts n)
  | .ok _, .negSucc _ => .error .negativeOffset

end Position

/-- What tells the place of an offset in a source. -/
class Locator where
  position : Text → Int → Except Position.Failure Position

instance Position.locator : Locator := ⟨Position.ofOffset⟩

end PoolProse
