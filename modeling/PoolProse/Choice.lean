import PoolProse.Choice.Blake3
import PoolProse.Choice.ChaCha

/-!
# Choices

Every random decision is a choice of a number below a bound. It comes from a stream that a seed
determines, or from a script.
-/
namespace PoolProse

/-- A source of choices with state `σ`: asked for a number below `n`, it answers and goes on. -/
structure Source (σ : Type) where
  choose : Nat → σ → Nat × σ

abbrev RandomStream := ChaCha.State

namespace RandomStream

def defaultSeed : Text := utf8 "Invocat"

def ofSeed (seed : Text) : RandomStream :=
  .ofKey (Blake3.hash (if seed.isEmpty then defaultSeed else seed))

def scaled (n : Nat) (w : UInt64) : Nat := w.toNat * n / Nat.pow 2 64

/-- Whether a word lies among the few that would favour some of the numbers below `n`. -/
def favours (n : Nat) (w : UInt64) : Bool :=
  w.toNat * n % Nat.pow 2 64 < (Nat.pow 2 64 - n) % n

def scale (n : Nat) : (tries : Nat) → UInt64 → RandomStream → Nat × RandomStream
  | 0, w, s => (scaled n w, s)
  | tries + 1, w, s =>
    if favours n w then scale n tries s.next.1 s.next.2 else (scaled n w, s)

/-- A generator has fewer states than this. So many words in a row that all favour some numbers
would come again and again. -/
def maxTries : Nat := Nat.pow (Nat.pow 2 64) 37

def isPowerOfTwo (n : Nat) : Bool := n &&& (n - 1) == 0

def below (n : Nat) (s : RandomStream) : Nat × RandomStream :=
  if isPowerOfTwo n then (s.next.1.toNat &&& (n - 1), s.next.2)
  else scale n maxTries s.next.1 s.next.2

def below? : Int → RandomStream → Option (Nat × RandomStream)
  | .ofNat (n + 1), s => some (below (n + 1) s)
  | _, _ => none

def source : Source RandomStream := ⟨below⟩

end RandomStream

abbrev Script := List Int

namespace Script

/-- The remainder of a scripted number, or 0 once the script is over. A negative remainder chooses
nothing, which the bound itself stands for. -/
def choose (n : Nat) : Script → Nat × Script
  | [] => (0, [])
  | c :: cs =>
    match c.tmod n with
    | .ofNat i => (i, cs)
    | .negSucc _ => (n, cs)

def source : Source Script := ⟨choose⟩

end Script

end PoolProse
