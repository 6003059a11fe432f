/-!
# Text

A text is a sequence of bytes. Documents, pool names and messages are texts, so that a source that
is not well-formed UTF-8 is kept byte for byte.
-/
namespace PoolProse

abbrev Text := List UInt8

/-! ## The bytes that the language gives a meaning -/

namespace Ascii

abbrev nul : UInt8 := 0x00
abbrev tab : UInt8 := 0x09
abbrev newline : UInt8 := 0x0A
abbrev carriageReturn : UInt8 := 0x0D
abbrev space : UInt8 := 0x20
abbrev bang : UInt8 := 0x21
abbrev parenOpen : UInt8 := 0x28
abbrev parenClose : UInt8 := 0x29
abbrev dash : UInt8 := 0x2D
abbrev zero : UInt8 := 0x30
abbrev nine : UInt8 := 0x39
abbrev colon : UInt8 := 0x3A
abbrev less : UInt8 := 0x3C
abbrev equals : UInt8 := 0x3D
abbrev backslash : UInt8 := 0x5C
abbrev letterN : UInt8 := 0x6E
abbrev letterT : UInt8 := 0x74
abbrev braceOpen : UInt8 := 0x7B
abbrev bar : UInt8 := 0x7C
abbrev braceClose : UInt8 := 0x7D

end Ascii

/-- The bytes of a string. -/
def utf8 (s : String) : Text := s.toUTF8.data.toList

namespace Text

/-- A space, a tab or a carriage return: layout inside a line. -/
def isBlank (b : UInt8) : Bool :=
  b == Ascii.space || b == Ascii.tab || b == Ascii.carriageReturn

def isDigit (b : UInt8) : Bool :=
  Ascii.zero ≤ b && b ≤ Ascii.nine

def blanks (t : Text) : Nat := (t.takeWhile isBlank).length

/-- The text is over or a newline follows. -/
def atLineEnd : Text → Bool
  | [] => true
  | b :: _ => b == Ascii.newline

def ofNat (n : Nat) : Text := utf8 (Nat.repr n)

/-- The decimal digits of a number, after a dash if it is negative. -/
def ofInt : Int → Text
  | .ofNat n => ofNat n
  | .negSucc n => Ascii.dash :: ofNat (n + 1)

/-- The texts one after the other with `sep` between neighbours. -/
def joinWith (sep : Text) : List Text → Text
  | [] => []
  | [t] => t
  | t :: u :: ts => t ++ sep ++ joinWith sep (u :: ts)

/-- The value of a run of decimal digits, if the text is one. -/
def digits? (t : Text) : Option Nat :=
  if t.isEmpty || !t.all isDigit then none
  else some (t.foldl (fun n b => 10 * n + (b.toNat - 48)) 0)

/-- Bytewise comparison, a proper beginning before its continuations. -/
def compareBytes : Text → Text → Ordering
  | [], [] => .eq
  | [], _ :: _ => .lt
  | _ :: _, [] => .gt
  | a :: s, b :: t => if a < b then .lt else if b < a then .gt else compareBytes s t

end Text

end PoolProse
