import PoolProse.Text.CodePoint

/-!
# Cursors

A cursor reads a text by code points. It knows its byte position and the last code point it read,
and can be put back to a place it marked before.
-/
namespace PoolProse

structure Cursor where
  source : Text
  pos : Nat := 0
  /-- The last code point read, 0 before the first. -/
  last : Nat := 0
  deriving DecidableEq, Repr

namespace Cursor

structure Mark where
  pos : Nat
  last : Nat
  deriving DecidableEq, Repr

def start (source : Text) : Cursor := { source }

def rest (c : Cursor) : Text := c.source.drop c.pos

def atEnd (c : Cursor) : Bool := c.source.length ≤ c.pos

/-- Reads one code point. At the end the answer is 0 and nothing moves. -/
def next (c : Cursor) : Nat × Cursor :=
  match CodePoint.first? c.rest with
  | none => (0, c)
  | some r => (r.code, { c with pos := c.pos + r.size, last := r.code })

def skip (c : Cursor) : Nat → Cursor
  | 0 => c
  | n + 1 => c.next.2.skip n

/-- The code point `n` places ahead of the next one, 0 beyond the end. -/
def codeAhead : Nat → Text → Nat
  | 0, t => ((CodePoint.first? t).map CodePoint.code).getD 0
  | n + 1, t =>
    match CodePoint.first? t with
    | none => 0
    | some r => codeAhead n (t.drop r.size)

def peekAt (c : Cursor) (n : Nat) : Nat := codeAhead n c.rest

def peek (c : Cursor) : Nat := c.peekAt 0

/-- Looks ahead by a signed distance. Nothing ahead has a negative distance. -/
def peekFrom (c : Cursor) : Int → Nat
  | .ofNat n => c.peekAt n
  | .negSucc _ => 0

def startsWith (c : Cursor) (t : Text) : Bool := t.isPrefixOf c.rest

/-- The text between a byte offset and the cursor. There is none if the offset lies ahead. -/
def since? (c : Cursor) : Int → Option Text
  | .ofNat p => if p ≤ c.pos then some ((c.source.take c.pos).drop p) else none
  | .negSucc _ => none

def mark (c : Cursor) : Mark := ⟨c.pos, c.last⟩

def reset (c : Cursor) (m : Mark) : Cursor := { c with pos := m.pos, last := m.last }

end Cursor

end PoolProse
