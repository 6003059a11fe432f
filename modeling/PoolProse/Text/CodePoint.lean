import PoolProse.Text

/-!
# Code points

Reading a text as UTF-8 from the left. A byte that starts no well-formed sequence is read on its own
as the replacement character, so every text is the concatenation of what its code points spell.
-/
namespace PoolProse

/-- A code point together with the bytes that spelled it. -/
structure CodePoint where
  code : Nat
  bytes : Text
  deriving DecidableEq, Repr

namespace CodePoint

def replacement : Nat := 0xFFFD

def stray (b : UInt8) : CodePoint := ⟨replacement, [b]⟩

def isTail (b : UInt8) : Bool := 0x80 ≤ b && b ≤ 0xBF

/-- The least and the greatest second byte that may follow a lead byte. -/
def secondRange (lead : UInt8) : UInt8 × UInt8 :=
  if lead == 0xE0 then (0xA0, 0xBF)
  else if lead == 0xED then (0x80, 0x9F)
  else if lead == 0xF0 then (0x90, 0xBF)
  else if lead == 0xF4 then (0x80, 0x8F)
  else (0x80, 0xBF)

def secondOk (lead b : UInt8) : Bool :=
  (secondRange lead).1 ≤ b && b ≤ (secondRange lead).2

def tailBits (b : UInt8) : Nat := b.toNat % 64

/-- The code point that starts with the byte `a`, when `rest` follows it. -/
def ofLead (a : UInt8) (rest : Text) : CodePoint :=
  if a < 0x80 then ⟨a.toNat, [a]⟩
  else if a < 0xC2 then stray a
  else if a < 0xE0 then
    match rest with
    | b :: _ => if secondOk a b then ⟨a.toNat % 32 * 64 + tailBits b, [a, b]⟩ else stray a
    | _ => stray a
  else if a < 0xF0 then
    match rest with
    | b :: c :: _ =>
      if secondOk a b && isTail c then
        ⟨(a.toNat % 16 * 64 + tailBits b) * 64 + tailBits c, [a, b, c]⟩
      else stray a
    | _ => stray a
  else if a < 0xF5 then
    match rest with
    | b :: c :: d :: _ =>
      if secondOk a b && isTail c && isTail d then
        ⟨((a.toNat % 8 * 64 + tailBits b) * 64 + tailBits c) * 64 + tailBits d, [a, b, c, d]⟩
      else stray a
    | _ => stray a
  else stray a

def first? : Text → Option CodePoint
  | [] => none
  | a :: rest => some (ofLead a rest)

def size (r : CodePoint) : Nat := r.bytes.length

/-- Whether it was read from a byte that is not UTF-8. -/
def isStray (r : CodePoint) : Bool := r.code == replacement && r.size == 1

def encode (code : Nat) : Text :=
  let tail (n : Nat) : UInt8 := UInt8.ofNat (0x80 + n % 64)
  if code < 0x80 then [UInt8.ofNat code]
  else if code < 0x800 then [UInt8.ofNat (0xC0 + code / 64), tail code]
  else if code < 0x10000 then
    [UInt8.ofNat (0xE0 + code / 4096), tail (code / 64), tail code]
  else
    [UInt8.ofNat (0xF0 + code / 262144), tail (code / 4096), tail (code / 64), tail code]

def isSpace (r : CodePoint) : Bool :=
  let c := r.code
  (0x09 ≤ c && c ≤ 0x0D) || c == 0x20 || c == 0x85 || c == 0xA0 || c == 0x1680 ||
    (0x2000 ≤ c && c ≤ 0x200A) || c == 0x2028 || c == 0x2029 || c == 0x202F || c == 0x205F ||
    c == 0x3000

end CodePoint

namespace Text

/-- The code points of a text, when its first `skip` bytes belong to one already taken. -/
def codePointsFrom : Nat → Text → List CodePoint
  | _, [] => []
  | skip + 1, _ :: t => codePointsFrom skip t
  | 0, a :: t => CodePoint.ofLead a t :: codePointsFrom ((CodePoint.ofLead a t).size - 1) t

def codePoints (t : Text) : List CodePoint := codePointsFrom 0 t

def codePointCount (t : Text) : Nat := t.codePoints.length

def isUtf8 (t : Text) : Bool := t.codePoints.all (!·.isStray)

def ofCodePoints (rs : List CodePoint) : Text := rs.flatMap CodePoint.bytes

def trim (t : Text) : Text :=
  let kept := t.codePoints.dropWhile CodePoint.isSpace
  ofCodePoints (kept.reverse.dropWhile CodePoint.isSpace).reverse

end Text

end PoolProse
