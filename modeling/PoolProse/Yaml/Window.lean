import PoolProse.Yaml.Problem

/-!
# The window on a YAML document

A document is fetched in portions of bytes, and a portion is decoded as a whole when its first
character has to be looked at. Problems with characters that are never looked at, and do not share
a portion with one that is, go unnoticed.
-/
namespace PoolProse.Yaml

/-! ## Characters -/

/-- Stands for the characters after the last one. No document holds it. -/
def endChar : Char := '\x00'

def byteOrderMark : Char := '\ufeff'

def isBreakChar (c : Char) : Bool :=
  c == '\n' || c == '\r' || c == '\u0085' || c == '\u2028' || c == '\u2029'

def isBlankChar (c : Char) : Bool := c == ' ' || c == '\t'

def isWordChar (c : Char) : Bool := c.isAlphanum || c == '-' || c == '_'

def endsLine (c : Char) : Bool := isBreakChar c || c == endChar

def endsWord (c : Char) : Bool := isBlankChar c || endsLine c

def textOf (cs : List Char) : Text := utf8 (String.ofList cs)

/-- The code points that a document may hold. -/
def isAllowed (c : Nat) : Bool :=
  c == 0x09 || c == 0x0A || c == 0x0D || (0x20 ≤ c && c ≤ 0x7E) || c == 0x85 ||
    (0xA0 ≤ c && c ≤ 0xD7FF) || (0xE000 ≤ c && c ≤ 0xFFFD) || (0x10000 ≤ c && c ≤ 0x10FFFF)

/-! ## Decoding -/

/-- What stands at the start of some bytes. -/
inductive Decoded where
  /-- A character of so many bytes. -/
  | whole (c : Char) (size : Nat)
  /-- The start of a character. The problem is that of a document that ends there. -/
  | partly (p : Problem)
  | invalid (p : Problem)
  deriving DecidableEq, Repr

def Decoded.ofCode (code size : Nat) : Decoded :=
  if isAllowed code then .whole (Char.ofNat code) size else .invalid .controlCharacter

def octets (b : UInt8) : Nat :=
  if b < 0x80 then 1
  else if b &&& 0xE0 == 0xC0 then 2
  else if b &&& 0xF0 == 0xE0 then 3
  else if b &&& 0xF8 == 0xF0 then 4
  else 0

def codeOf (lead : UInt8) (tail : Text) : Nat :=
  let first := if lead < 0x80 then lead.toNat else lead.toNat % Nat.pow 2 (6 - tail.length)
  tail.foldl (fun n b => n * 64 + b.toNat % 64) first

def decodeOctets (lead : UInt8) (rest : Text) : Decoded :=
  let n := octets lead
  let tail := rest.take (n - 1)
  let code := codeOf lead tail
  if n = 0 then .invalid .invalidLeadingOctet
  else if tail.length + 1 < n then .partly .incompleteSequence
  else if tail.any (fun b => b &&& 0xC0 != 0x80) then .invalid .invalidTrailingOctet
  else if code < [0, 0, 0x80, 0x800, 0x10000].getD n 0 then .invalid .invalidSequenceLength
  else if (0xD800 ≤ code && code ≤ 0xDFFF) || 0x10FFFF < code then .invalid .invalidCharacter
  else .ofCode code n

def decodeWords (bigEndian : Bool) : Text → Decoded
  | a :: b :: rest =>
    let word (a b : UInt8) : Nat :=
      if bigEndian then 256 * a.toNat + b.toNat else a.toNat + 256 * b.toNat
    let first := word a b
    if first / 0x400 = 0x37 then .invalid .unexpectedLowSurrogate
    else if first / 0x400 = 0x36 then
      match rest with
      | c :: d :: _ =>
        let second := word c d
        if second / 0x400 = 0x37 then
          .ofCode (0x10000 + first % 0x400 * 0x400 + second % 0x400) 4
        else .invalid .missingLowSurrogate
      | _ => .partly .incompletePair
    else .ofCode first 2
  | _ => .partly .incompleteWord

inductive Encoding where
  | utf8
  | utf16 (bigEndian : Bool)
  deriving DecidableEq, Repr

namespace Encoding

def detect : Text → Encoding × Nat
  | 0xFF :: 0xFE :: _ => (.utf16 false, 2)
  | 0xFE :: 0xFF :: _ => (.utf16 true, 2)
  | 0xEF :: 0xBB :: 0xBF :: _ => (.utf8, 3)
  | _ => (.utf8, 0)

def decodeFirst (e : Encoding) (b : UInt8) (rest : Text) : Decoded :=
  match e with
  | .utf8 => decodeOctets b rest
  | .utf16 bigEndian => decodeWords bigEndian (b :: rest)

/-- The characters of some bytes, of which the first `skip` belong to a character already decoded.
The start of a character at the end is left over, unless the document has ended. -/
def decode (e : Encoding) (ended : Bool) : (skip : Nat) → Text → Except Problem (List Char × Text)
  | _, [] => .ok ([], [])
  | skip + 1, _ :: t => decode e ended skip t
  | 0, b :: t =>
    match e.decodeFirst b t with
    | .whole c size => do
      let (cs, left) ← decode e ended (size - 1) t
      return (c :: cs, left)
    | .partly p => if ended then .error p else .ok ([], b :: t)
    | .invalid p => .error p

end Encoding

/-! ## Fetching -/

/-- The bytes of a document that have not been decoded. -/
structure Supply where
  /-- Unknown until the first bytes have been fetched. -/
  encoding : Option Encoding := none
  fetched : Text := []
  later : Text
  /-- Whether there was nothing left when bytes were to be fetched. -/
  ended : Bool := false
  deriving Repr

namespace Supply

def capacity : Nat := 512

def fetch (s : Supply) : Supply :=
  if s.later.isEmpty then { s with ended := true }
  else
    let n := capacity - s.fetched.length
    { s with fetched := s.fetched ++ s.later.take n, later := s.later.drop n }

/-- Fetches the first bytes, three if there are as many, and tells the encoding from them. -/
def start (s : Supply) : Supply :=
  let s := s.fetch
  let s := if s.fetched.length < 3 && !s.ended then s.fetch else s
  let (e, n) := Encoding.detect s.fetched
  { s with encoding := some e, fetched := s.fetched.drop n }

/-- Decodes what has been fetched, and fetches more, until `n` characters stand ahead. At the end of
the document one more character stands for it. -/
def fill (n : Nat) : (fuel : Nat) → Supply → (ahead : List Char) →
    Except Problem (Supply × List Char)
  | 0, s, ahead => .ok (s, ahead)
  | fuel + 1, s, ahead => do
    let (cs, left) ← (s.encoding.getD .utf8).decode s.ended 0 s.fetched
    let s := { s with fetched := left }
    let ahead := ahead ++ cs
    if s.ended then return (s, ahead ++ [endChar])
    else if n ≤ ahead.length then return (s, ahead)
    else fill n fuel s.fetch ahead

end Supply

/-! ## The window -/

structure Window where
  supply : Supply
  /-- Characters that have been decoded and not been passed. -/
  ahead : List Char := []
  /-- Whether the window starts with a mark of byte order. It starts where the reader stood when it
  was last filled. -/
  marked : Bool := false
  deriving Repr

namespace Window

def ofText (t : Text) : Window where
  supply := { later := if t.isEmpty then [Ascii.newline] else t }

def need (n : Nat) (w : Window) : Except Problem Window := do
  if n ≤ w.ahead.length then return w
  else
    let s := if w.supply.encoding.isNone then w.supply.start else w.supply
    let s := if s.fetched.isEmpty then s.fetch else s
    let (s, ahead) ← s.fill n (s.later.length + 3) w.ahead
    return { supply := s, ahead, marked := ahead.head? == some byteOrderMark }

def peek (w : Window) (i : Nat) : Char := w.ahead.getD i endChar

def pass (w : Window) (n : Nat) : Window := { w with ahead := w.ahead.drop n }

end Window

end PoolProse.Yaml
