import PoolProse.Version

/-!
# Version ranges

A range is a comparison with one version, or the versions between a lower and an upper comparison.
Ranges are narrowed by intersection, and overlapping or adjacent ones are merged.
-/
namespace PoolProse.Version

inductive Comparator where
  | exactly
  | atLeast
  | above
  | atMost
  | below
  deriving DecidableEq, Repr

structure Bound where
  comparator : Comparator
  version : Version
  deriving DecidableEq, Repr

inductive Range where
  | one (b : Bound)
  | between (lower upper : Bound)
  deriving DecidableEq, Repr

namespace Bound

/-- Whether a version passes the comparison. The version of the bound is compared with it, and not
the other way round: differences of numbers wrap, so the two ways can disagree. -/
def includes (b : Bound) (v : Version) : Bool :=
  match b.comparator, b.version.compare v with
  | .exactly, o => o == .eq
  | .atLeast, o => o != .gt
  | .above, o => o == .lt
  | .atMost, o => o != .lt
  | .below, o => o == .gt

def start (b : Bound) : Version :=
  match b.comparator with
  | .exactly | .atLeast | .above => b.version
  | .atMost | .below => least

def stop (b : Bound) : Version :=
  match b.comparator with
  | .exactly | .atMost | .below => b.version
  | .atLeast | .above => greatest

def excludesStart (b : Bound) : Bool := b.comparator == .above

def isLowerBound (b : Bound) : Bool :=
  match b.comparator with
  | .exactly | .atLeast => b.version != least
  | .above => true
  | .atMost | .below => false

def isUpperBound (b : Bound) : Bool :=
  match b.comparator with
  | .exactly | .atMost => b.version != greatest
  | .below => true
  | .atLeast | .above => false

def asLowerBound (b : Bound) : Bound :=
  match b.comparator with
  | .exactly | .atLeast | .above => b
  | .atMost | .below => ⟨.above, greatest⟩

def asUpperBound (b : Bound) : Bound :=
  match b.comparator with
  | .exactly | .atMost | .below => b
  | .atLeast | .above => ⟨.below, least⟩

end Bound

namespace Range

def all : Range := .one ⟨.atLeast, least⟩

def nothing : Range := .one ⟨.below, least⟩

def lower : Range → Bound
  | .one b => b
  | .between l _ => l

def upper : Range → Bound
  | .one b => b
  | .between _ u => u

def includes (r : Range) (v : Version) : Bool := r.lower.includes v && r.upper.includes v

def start (r : Range) : Version := r.lower.start

def stop (r : Range) : Version := r.upper.stop

def excludesStart (r : Range) : Bool := r.lower.excludesStart

/-- The versions in both ranges, if any. The upper end counts as included. -/
def intersection (a b : Range) : Option Range :=
  match a.start.compare b.stop, b.start.compare a.stop with
  | .gt, _ => none
  | .eq, _ => if a.excludesStart then none else some (.one ⟨.exactly, a.start⟩)
  | .lt, .gt => none
  | .lt, .eq => if b.excludesStart then none else some (.one ⟨.exactly, b.start⟩)
  | .lt, .lt =>
    let first :=
      match a.start.compare b.start with
      | .gt => a
      | .lt => b
      | .eq => if a.excludesStart then a else b
    let last :=
      match a.stop.compare b.stop with
      | .lt => a
      | _ => b
    if !last.upper.isUpperBound then some first
    else if !first.lower.isLowerBound then some last
    else some (.between first.lower.asLowerBound last.upper.asUpperBound)

def fromTo (excludesStart : Bool) (start stop : Version) : Range :=
  .between ⟨if excludesStart then .above else .atLeast, start⟩ ⟨.atMost, stop⟩

/-- One range for the versions of two that overlap or are adjacent. -/
def union? (a b : Range) : Option Range :=
  if a.includes b.start || b.includes a.start then
    let stop :=
      match a.stop.compare b.stop with
      | .gt => a.stop
      | _ => b.stop
    match a.start.compare b.start with
    | .lt => some (fromTo a.excludesStart a.start stop)
    | .gt => some (fromTo b.excludesStart b.start stop)
    | .eq => some (fromTo (a.excludesStart && b.excludesStart) a.start stop)
  else if a.excludesStart && b.excludesStart && a.start.compare b.start == .eq then
    some (fromTo a.excludesStart a.start b.stop)
  else if !b.excludesStart && a.stop.nextPatch.compare b.start == .eq then
    some (fromTo a.excludesStart a.start b.stop)
  else if !a.excludesStart && b.stop.nextPatch.compare a.start == .eq then
    some (fromTo b.excludesStart b.start a.stop)
  else none

/-- Merges a range with those of a list that it can be merged with. The answer is the merged range,
the ranges left over and whether anything was merged. -/
def absorb (x : Range) : List Range → Range × List Range × Bool
  | [] => (x, [], false)
  | y :: ys =>
    match union? x y with
    | some u =>
      let (x, kept, _) := absorb u ys
      (x, kept, true)
    | none =>
      let (x, kept, merged) := absorb x ys
      (x, y :: kept, merged)

/-- Goes through the ranges once from the last to the first, merging each with the others. -/
def mergePass : (fuel : Nat) → List Range → List Range → Bool → List Range × Bool
  | 0, ranges, done, merged => (ranges ++ done, merged)
  | fuel + 1, ranges, done, merged =>
    match ranges with
    | [] => (done, merged)
    | [r] => (r :: done, merged)
    | r :: s :: rest =>
      let all := r :: s :: rest
      let (x, kept, m) := absorb (all.getLastD r) all.dropLast
      mergePass fuel kept (x :: done) (merged || m)

def mergeAll : (fuel : Nat) → List Range → List Range
  | 0, ranges => ranges
  | fuel + 1, ranges =>
    if ranges.length ≤ 1 then ranges
    else
      match mergePass ranges.length ranges [] false with
      | (ranges, true) => mergeAll fuel ranges
      | (ranges, false) => ranges

end Range

abbrev Ranges := List Range

namespace Ranges

def ofList (ranges : List Range) : Ranges :=
  match Range.mergeAll ranges.length ranges with
  | [] => [.nothing]
  | rs => rs

def includes (rs : Ranges) (v : Version) : Bool := rs.any (·.includes v)

end Ranges

end PoolProse.Version
