import PoolProse.Text

/-!
# Versions

A version is three numbers, and before a release a list of further parts. Numbers have 64 bits and
wrap.
-/
namespace PoolProse

inductive Version.Part where
  | number (n : Int64)
  | word (t : Text)
  deriving DecidableEq, Repr

structure Version where
  major : Int64
  minor : Int64
  patch : Int64
  preRelease : Option (List Version.Part) := none
  build : Option Text := none
  deriving DecidableEq, Repr

namespace Version

def least : Version := { major := 0, minor := 0, patch := 0, preRelease := some [] }

def greatest : Version where
  major := Int64.maxValue
  minor := Int64.maxValue
  patch := Int64.maxValue

/-- Numbers are ordered by the sign of their difference, which may wrap. -/
def compareNumbers (a b : Int64) : Ordering :=
  if a - b < 0 then .lt else if a - b = 0 then .eq else .gt

def Part.compare : Part → Part → Ordering
  | .number a, .number b => compareNumbers a b
  | .number _, .word _ => .lt
  | .word _, .number _ => .gt
  | .word s, .word t => s.compareBytes t

def compareParts : List Part → List Part → Ordering
  | [], [] => .eq
  | [], _ :: _ => .lt
  | _ :: _, [] => .gt
  | a :: as, b :: bs => (a.compare b).then (compareParts as bs)

/-- A release comes after its pre-releases. -/
def comparePreReleases : Option (List Part) → Option (List Part) → Ordering
  | none, none => .eq
  | none, some _ => .gt
  | some _, none => .lt
  | some as, some bs => compareParts as bs

/-- The order of versions, in which the build has no say. -/
def compare (a b : Version) : Ordering :=
  (compareNumbers a.major b.major).then <|
    (compareNumbers a.minor b.minor).then <|
      (compareNumbers a.patch b.patch).then <| comparePreReleases a.preRelease b.preRelease

def nextPatch (v : Version) : Version where
  major := v.major
  minor := v.minor
  patch := v.patch + 1

end Version

end PoolProse
