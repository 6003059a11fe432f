import PoolProse.Version.Range

/-!
# Version requirements

The text form of version ranges: alternatives divided by double bars, each a pair of versions with
a dash between, or comparisons that all must hold. A number may be left out or be a wildcard.
-/
namespace PoolProse.Version

inductive RequirementError where
  | notARange (piece : Text)
  | illegalTriplet
  | illegalPreRelease
  deriving DecidableEq, Repr

def RequirementError.message : RequirementError → Text
  | .notARange piece => utf8 "'" ++ piece ++ utf8 "' is not a valid version range"
  | .illegalTriplet => utf8 "illegal version triplet"
  | .illegalPreRelease => utf8 "Illegal characters in pre-release"

/-- A version of which numbers may be missing. -/
structure Pattern where
  major : Option Text
  minor : Option Text := none
  patch : Option Text := none
  preRelease : Option Text := none
  build : Option Text := none
  deriving DecidableEq, Repr

inductive Operator where
  | atLeast
  | above
  | atMost
  | below
  | tilde
  | caret
  | exactly
  deriving DecidableEq, Repr

namespace Requirement

open Text (isDigit)

def isSpace (b : UInt8) : Bool :=
  b == Ascii.tab || b == Ascii.newline || b == 0x0C || b == Ascii.carriageReturn || b == Ascii.space

def isOperatorByte (b : UInt8) : Bool := (utf8 "><=~^").contains b

def isIdentifierByte (b : UInt8) : Bool :=
  isDigit b || (0x41 ≤ b && b ≤ 0x5A) || (0x61 ≤ b && b ≤ 0x7A) || b == Ascii.dash

/-! ## Patterns -/

/-- A number or wildcard at the start, and what follows it. -/
def component? : Text → Option (Option Text × Text)
  | [] => none
  | b :: t =>
    if b == 0x78 || b == 0x58 || b == 0x2A then some (none, t)
    else if b == Ascii.zero then some (some [b], t)
    else if isDigit b then some (some (b :: t.takeWhile isDigit), t.dropWhile isDigit)
    else none

def splitAtByte (b : UInt8) : Text → List Text
  | [] => [[]]
  | a :: t =>
    match splitAtByte b t with
    | [] => [[a]]
    | p :: ps => if a == b then [] :: p :: ps else (a :: p) :: ps

def isIdentifiers (t : Text) : Bool :=
  (splitAtByte 0x2E t).all fun p => !p.isEmpty && p.all isIdentifierByte

def suffixes? (t : Text) : Option (Option Text × Option Text) :=
  let head := t.takeWhile (· != 0x2B)
  let tail := t.drop head.length
  let pre :=
    match head with
    | [] => some none
    | d :: p => if d == Ascii.dash && isIdentifiers p then some (some p) else none
  let build :=
    match tail with
    | [] => some none
    | _ :: p => if isIdentifiers p then some (some p) else none
  match pre, build with
  | some p, some b => some (p, b)
  | _, _ => none

def pattern? (t : Text) : Option Pattern := do
  let (major, t) ← component? t
  match t with
  | [] => some { major }
  | d :: t =>
    if d != 0x2E then none
    else
      let (minor, t) ← component? t
      match t with
      | [] => some { major, minor }
      | d :: t =>
        if d != 0x2E then none
        else
          let (patch, t) ← component? t
          let (preRelease, build) ← suffixes? t
          some { major, minor, patch, preRelease, build }

def operator (t : Text) : Operator × Text :=
  let long : List (String × Operator) :=
    [("<=", .atMost), (">=", .atLeast), ("~>", .tilde), ("~=", .exactly), ("<", .below),
      (">", .above), ("=", .exactly), ("~", .tilde), ("^", .caret)]
  match long.find? fun (s, _) => (utf8 s).isPrefixOf t with
  | some (s, op) => (op, t.drop (utf8 s).length)
  | none => (.exactly, t)

/-! ## Ranges of patterns -/

def number (t : Text) : Except RequirementError Int64 :=
  match t.digits? with
  | some n => if n < Nat.pow 2 63 then .ok (Int64.ofNat n) else .error .illegalTriplet
  | none => .error .illegalTriplet

def numberOrZero : Option Text → Except RequirementError Int64
  | some t => number t
  | none => .ok 0

def isPreReleasePart (t : Text) : Bool :=
  t == [Ascii.zero] || (t.all isDigit && !t.isEmpty && t.head? != some Ascii.zero) || !t.all isDigit

def partOf (t : Text) : Part :=
  match t with
  | [] => .word []
  | b :: u =>
    if b == Ascii.dash then
      match Text.digits? u with
      | some n => if n ≤ Nat.pow 2 63 then .number (Int64.ofInt (-n)) else .word t
      | none => .word t
    else
      match t.digits? with
      | some n => if n < Nat.pow 2 63 then .number (Int64.ofNat n) else .word t
      | none => .word t

def preReleaseOf : Option Text → Except RequirementError (Option (List Part))
  | none => .ok none
  | some t =>
    let parts := splitAtByte 0x2E t
    if parts.all isPreReleasePart then .ok (some (parts.map partOf)) else .error .illegalPreRelease

def version (p : Pattern) (major minor patch : Int64) : Except RequirementError Version := do
  let preRelease ← preReleaseOf p.preRelease
  return { major, minor, patch, preRelease, build := p.build }

def release (major minor patch : Int64) : Version := { major, minor, patch }

def upTo (start stop : Version) : Range := .between ⟨.atLeast, start⟩ ⟨.below, stop⟩

/-- The bound that a pattern gives with its wildcards taken for 0, or `default` if nothing is
known. -/
def zeroFilled (c : Comparator) (default : Range) (p : Pattern) :
    Except RequirementError Range := do
  match p.major with
  | none => return default
  | some t =>
    let major ← number t
    let minor ← numberOrZero p.minor
    let patch ← numberOrZero p.patch
    return .one ⟨c, ← version p major minor patch⟩

/-- The bound that a pattern gives when all versions that it covers are meant: `c` against the
first version after them, or `full` against the version itself if it has no wildcard. -/
def covering (c full : Comparator) (default : Range) (p : Pattern) :
    Except RequirementError Range := do
  match p.major with
  | none => return default
  | some t =>
    let major ← number t
    match p.minor with
    | none => return .one ⟨c, release (major + 1) 0 0⟩
    | some t =>
      let minor ← number t
      match p.patch with
      | none => return .one ⟨c, release major (minor + 1) 0⟩
      | some t =>
        let patch ← number t
        return .one ⟨full, ← version p major minor patch⟩

/-- The versions that agree with a pattern. A version without wildcard stands for itself if `exact`
is set, and for all later ones with the same minor number otherwise. -/
def agreeing (exact : Bool) (p : Pattern) : Except RequirementError Range := do
  match p.major with
  | none => return .all
  | some t =>
    let major ← number t
    match p.minor with
    | none => return upTo (release major 0 0) (release (major + 1) 0 0)
    | some t =>
      let minor ← number t
      match p.patch with
      | none => return upTo (release major minor 0) (release major (minor + 1) 0)
      | some t =>
        let patch ← number t
        let v ← version p major minor patch
        return if exact then .one ⟨.exactly, v⟩ else upTo v (release major (minor + 1) 0)

/-- All later versions with the same major number. A minor number that is too large counts as
0. -/
def compatible (p : Pattern) : Except RequirementError Range := do
  match p.major with
  | none => return .all
  | some t =>
    let major ← number t
    if major = 0 then agreeing false p
    else
      let minor := (numberOrZero p.minor).toOption.getD 0
      let patch ← numberOrZero p.patch
      return upTo (← version p major minor patch) (release (major + 1) 0 0)

def rangeOf : Operator → Pattern → Except RequirementError Range
  | .atLeast, p => zeroFilled .atLeast .all p
  | .above, p => covering .atLeast .above .all p
  | .atMost, p => covering .below .atMost .nothing p
  | .below, p => zeroFilled .below .nothing p
  | .tilde, p => agreeing false p
  | .exactly, p => agreeing true p
  | .caret, p => compatible p

/-! ## Requirements -/

inductive Tightening where
  | other
  | afterOperator
  | afterSpace
  deriving DecidableEq, Repr

def tighten : Tightening → Text → Text
  | _, [] => []
  | state, b :: t =>
    if state != .other && isSpace b then tighten .afterSpace t
    else if state == .afterOperator && b == 0x76 then tighten .other t
    else b :: tighten (if isOperatorByte b then .afterOperator else .other) t

def alternatives (current : Text) : (fuel : Nat) → Text → List Text
  | 0, t => [current ++ t]
  | _, [] => [current]
  | fuel + 1, b :: t =>
    match (b :: t).dropWhile isSpace with
    | c :: d :: u =>
      if c == Ascii.bar && d == Ascii.bar then current :: alternatives [] fuel (u.dropWhile isSpace)
      else alternatives (current ++ [b]) fuel t
    | _ => alternatives (current ++ [b]) fuel t

def pieces : Text → List Text
  | [] => [[]]
  | b :: t =>
    if isSpace b then
      match t with
      | c :: _ => if isSpace c then pieces t else [] :: pieces t
      | [] => [] :: pieces t
    else
      match pieces t with
      | [] => [[b]]
      | p :: ps => (b :: p) :: ps

def pieceRange (piece : Text) : Except RequirementError Range :=
  let (op, t) := operator piece
  match pattern? t with
  | some p => rangeOf op p
  | none => .error (.notARange piece)

/-- Narrows the range so far by each piece. Once nothing is left, the next piece starts anew. -/
def narrow : Option Range → List Text → Except RequirementError (Option Range)
  | r, [] => .ok r
  | r, piece :: rest => do
    let s ← pieceRange piece
    match r with
    | none => narrow (some s) rest
    | some r => narrow (r.intersection s) rest

/-- The two ends of an alternative that is a pair with a dash between. -/
def ends? (ps : List Text) : Option (Pattern × Pattern) :=
  match ps with
  | [a, d, b] =>
    if d == [Ascii.dash] then do
      let p ← pattern? a
      let q ← pattern? b
      some (p, q)
    else none
  | _ => none

def alternative (t : Text) : Except RequirementError (Option Range) := do
  if t.isEmpty then return some .all
  else
    match ends? (pieces t) with
    | some (p, q) =>
      let a ← rangeOf .atLeast p
      let b ← rangeOf .atLeast q
      return a.intersection b
    | none => narrow none (pieces t)

def parse (t : Text) : Except RequirementError Ranges := do
  let t := tighten .other t
  let ranges ← (alternatives [] t.length t).mapM alternative
  return Ranges.ofList (ranges.filterMap id)

end Requirement

end PoolProse.Version
