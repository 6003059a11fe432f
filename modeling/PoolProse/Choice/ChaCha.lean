/-!
# ChaCha8

A generator of 64-bit words keyed with 256 bits. Four ChaCha blocks of eight rounds are made at a
time and handed out interlaced. Every sixteenth block the last words become the next key.
-/
namespace PoolProse.ChaCha

abbrev Key := Vector UInt32 8

abbrev Block := Vector UInt32 16

def rotateLeft (x n : UInt32) : UInt32 := (x <<< n) ||| (x >>> (32 - n))

def quarter (s : Block) (a b c d : Fin 16) : Block :=
  let va := s[a] + s[b]
  let vd := rotateLeft (s[d] ^^^ va) 16
  let vc := s[c] + vd
  let vb := rotateLeft (s[b] ^^^ vc) 12
  let va := va + vb
  let vd := rotateLeft (vd ^^^ va) 8
  let vc := vc + vd
  let vb := rotateLeft (vb ^^^ vc) 7
  (((s.set a va).set b vb).set c vc).set d vd

def doubleRound (s : Block) : Block :=
  let s := quarter s 0 4 8 12
  let s := quarter s 1 5 9 13
  let s := quarter s 2 6 10 14
  let s := quarter s 3 7 11 15
  let s := quarter s 0 5 10 15
  let s := quarter s 1 6 11 12
  let s := quarter s 2 7 8 13
  quarter s 3 4 9 14

/-- The block with a given counter. Only the words that held the key have it added again. -/
def block (k : Key) (counter : UInt32) : Block :=
  let s : Block :=
    #v[0x61707865, 0x3320646E, 0x79622D32, 0x6B206574, k[0], k[1], k[2], k[3], k[4], k[5], k[6],
      k[7], counter, 0, 0, 0]
  let s := doubleRound (doubleRound (doubleRound (doubleRound s)))
  #v[s[0], s[1], s[2], s[3], s[4] + k[0], s[5] + k[1], s[6] + k[2], s[7] + k[3], s[8] + k[4],
    s[9] + k[5], s[10] + k[6], s[11] + k[7], s[12], s[13], s[14], s[15]]

def pair (low high : UInt32) : UInt64 := low.toUInt64 ||| (high.toUInt64 <<< 32)

/-- The words of four blocks: first word 0 of each, then word 1 of each, and so on. -/
def words (k : Key) (counter : UInt32) : Vector UInt64 32 :=
  let b0 := block k counter
  let b1 := block k (counter + 1)
  let b2 := block k (counter + 2)
  let b3 := block k (counter + 3)
  Vector.ofFn fun i : Fin 32 =>
    have : i.val / 2 < 16 := by omega
    if i.val % 2 = 0 then pair b0[i.val / 2] b1[i.val / 2] else pair b2[i.val / 2] b3[i.val / 2]

def keyOf (w : Vector UInt64 32) : Key :=
  #v[w[28].toUInt32, (w[28] >>> 32).toUInt32, w[29].toUInt32, (w[29] >>> 32).toUInt32,
    w[30].toUInt32, (w[30] >>> 32).toUInt32, w[31].toUInt32, (w[31] >>> 32).toUInt32]

/-- The state of the generator: the current four blocks and how many of their words are used. -/
structure State where
  key : Key
  counter : UInt32
  buffer : Vector UInt64 32
  used : Nat
  deriving Repr

namespace State

def ofKey (k : Key) : State := ⟨k, 0, words k 0, 0⟩

/-- The words of a buffer that are handed out. The last four before a change of key are kept. -/
def available (s : State) : Nat := if s.counter = 12 then 28 else 32

def refill (s : State) : State :=
  if s.counter = 12 then ofKey (keyOf s.buffer)
  else ⟨s.key, s.counter + 4, words s.key (s.counter + 4), 0⟩

def next (s : State) : UInt64 × State :=
  let s := if s.used < s.available then s else s.refill
  (s.buffer.toArray.getD s.used 0, { s with used := s.used + 1 })

end State

end PoolProse.ChaCha
