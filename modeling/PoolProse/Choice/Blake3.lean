import PoolProse.Text

/-!
# BLAKE3

The 256-bit BLAKE3 hash of a text. Chunks of 1024 bytes are the leaves of a binary tree whose left
subtrees are complete.
-/
namespace PoolProse.Blake3

abbrev ChainingValue := Vector UInt32 8

abbrev Block := Vector UInt32 16

def initial : ChainingValue :=
  #v[0x6A09E667, 0xBB67AE85, 0x3C6EF372, 0xA54FF53A, 0x510E527F, 0x9B05688C, 0x1F83D9AB, 0x5BE0CD19]

/-! ## Flags of a compression -/

def chunkStart : UInt32 := 1
def chunkEnd : UInt32 := 2
def parent : UInt32 := 4
def root : UInt32 := 8

/-! ## Compression -/

def rotateRight (x n : UInt32) : UInt32 := (x >>> n) ||| (x <<< (32 - n))

def word {n : Nat} (s : Vector UInt32 n) (i : Nat) : UInt32 := s.toArray.getD i 0

def quarter (s : Block) (a b c d : Nat) (x y : UInt32) : Block :=
  let va := word s a + word s b + x
  let vd := rotateRight (word s d ^^^ va) 16
  let vc := word s c + vd
  let vb := rotateRight (word s b ^^^ vc) 12
  let va := va + vb + y
  let vd := rotateRight (vd ^^^ va) 8
  let vc := vc + vd
  let vb := rotateRight (vb ^^^ vc) 7
  (((s.setIfInBounds a va).setIfInBounds b vb).setIfInBounds c vc).setIfInBounds d vd

def round (s m : Block) : Block :=
  let s := quarter s 0 4 8 12 (word m 0) (word m 1)
  let s := quarter s 1 5 9 13 (word m 2) (word m 3)
  let s := quarter s 2 6 10 14 (word m 4) (word m 5)
  let s := quarter s 3 7 11 15 (word m 6) (word m 7)
  let s := quarter s 0 5 10 15 (word m 8) (word m 9)
  let s := quarter s 1 6 11 12 (word m 10) (word m 11)
  let s := quarter s 2 7 8 13 (word m 12) (word m 13)
  quarter s 3 4 9 14 (word m 14) (word m 15)

def permute (m : Block) : Block :=
  #v[word m 2, word m 6, word m 3, word m 10, word m 7, word m 0, word m 4, word m 13, word m 1,
    word m 11, word m 12, word m 5, word m 9, word m 14, word m 15, word m 8]

def rounds : Nat → Block → Block → Block
  | 0, s, _ => s
  | n + 1, s, m => rounds n (round s m) (permute m)

def compress (cv : ChainingValue) (m : Block) (counter : Nat) (length flags : UInt32) :
    ChainingValue :=
  let s : Block :=
    #v[word cv 0, word cv 1, word cv 2, word cv 3, word cv 4, word cv 5, word cv 6, word cv 7,
      word initial 0, word initial 1, word initial 2, word initial 3,
      UInt32.ofNat counter, UInt32.ofNat (counter / Nat.pow 2 32), length, flags]
  let s := rounds 7 s m
  Vector.ofFn fun i : Fin 8 => s[i.val] ^^^ s[i.val + 8]

/-! ## The tree -/

/-- The word that starts at a byte, the least significant byte first. Missing bytes are 0. -/
def wordAt (t : Array UInt8) (i : Nat) : UInt32 :=
  let byte (k : Nat) : UInt32 := (t.getD k 0).toUInt32
  byte i ||| (byte (i + 1) <<< 8) ||| (byte (i + 2) <<< 16) ||| (byte (i + 3) <<< 24)

def blockOf (t : Text) : Block :=
  let bytes := t.toArray
  Vector.ofFn fun i : Fin 16 => wordAt bytes (4 * i.val)

/-- The rest of a chunk, block after block. `flags` go to its last block only, and `start` to the
next one. -/
def chunkFrom (cv : ChainingValue) (counter : Nat) (start flags : UInt32) (t : Text) :
    ChainingValue :=
  if t.length ≤ 64 then
    compress cv (blockOf t) counter (UInt32.ofNat t.length) (start ||| chunkEnd ||| flags)
  else
    chunkFrom (compress cv (blockOf (t.take 64)) counter 64 start) counter 0 flags (t.drop 64)
termination_by t.length

/-- The number of bytes in the left subtree: the greatest power of two of chunks that leaves
something for the right one. -/
def leftLength (n : Nat) : Nat := 1024 * Nat.pow 2 (Nat.log2 ((n - 1) / 1024))

theorem leftLength_pos (n : Nat) : 0 < leftLength n :=
  Nat.mul_pos (by decide) (Nat.two_pow_pos _)

theorem leftLength_lt {n : Nat} (h : 1024 < n) : leftLength n < n := by
  have hk : (n - 1) / 1024 ≠ 0 := by omega
  have hle : Nat.pow 2 (Nat.log2 ((n - 1) / 1024)) ≤ (n - 1) / 1024 := Nat.log2_self_le hk
  unfold leftLength
  omega

/-- The chaining value of a subtree whose first chunk has the number `counter`. -/
def subtree (flags : UInt32) (counter : Nat) (t : Text) : ChainingValue :=
  if h : t.length ≤ 1024 then chunkFrom initial counter chunkStart flags t
  else
    have := leftLength_lt (Nat.lt_of_not_le h)
    have := leftLength_pos t.length
    let n := leftLength t.length
    let left := subtree 0 counter (t.take n)
    let right := subtree 0 (counter + n / 1024) (t.drop n)
    compress initial (left ++ right) 0 64 (parent ||| flags)
termination_by t.length
decreasing_by
  · simp only [List.length_take]
    omega
  · simp only [List.length_drop]
    omega

def hash (t : Text) : Vector UInt32 8 := subtree root 0 t

end PoolProse.Blake3
