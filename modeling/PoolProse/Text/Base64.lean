import PoolProse.Text

/-!
# Base64

Bytes written with 64 letters, four for every three bytes, padded with equals signs.
-/
namespace PoolProse.Base64

def letter (n : Nat) : UInt8 :=
  UInt8.ofNat
    (if n < 26 then 65 + n
    else if n < 52 then 71 + n
    else if n < 62 then n - 4
    else if n = 62 then 43
    else 47)

def value? (b : UInt8) : Option Nat :=
  let n := b.toNat
  if 65 ≤ n && n ≤ 90 then some (n - 65)
  else if 97 ≤ n && n ≤ 122 then some (n - 71)
  else if 48 ≤ n && n ≤ 57 then some (n + 4)
  else if n = 43 then some 62
  else if n = 47 then some 63
  else none

def encode : Text → Text
  | [] => []
  | [a] =>
    let n := a.toNat * 65536
    [letter (n / 262144), letter (n / 4096 % 64), Ascii.equals, Ascii.equals]
  | [a, b] =>
    let n := a.toNat * 65536 + b.toNat * 256
    [letter (n / 262144), letter (n / 4096 % 64), letter (n / 64 % 64), Ascii.equals]
  | a :: b :: c :: t =>
    let n := a.toNat * 65536 + b.toNat * 256 + c.toNat
    letter (n / 262144) :: letter (n / 4096 % 64) :: letter (n / 64 % 64) :: letter (n % 64) ::
      encode t

/-- Reads groups of four letters. Padding ends the text. -/
def decodeGroups : Text → Option Text
  | [] => some []
  | a :: b :: c :: d :: t => do
    let x ← value? a
    let y ← value? b
    let n := x * 262144 + y * 4096
    let first := UInt8.ofNat (n / 65536)
    if c == Ascii.equals then
      if d == Ascii.equals && t.isEmpty then some [first] else none
    else
      let z ← value? c
      let n := n + z * 64
      let second := UInt8.ofNat (n / 256 % 256)
      if d == Ascii.equals then
        if t.isEmpty then some [first, second] else none
      else
        let w ← value? d
        let rest ← decodeGroups t
        some (first :: second :: UInt8.ofNat ((n + w) % 256) :: rest)
  | _ => none

def decode (t : Text) : Option Text :=
  decodeGroups (t.filter fun b => b != Ascii.newline && b != Ascii.carriageReturn)

end PoolProse.Base64
