import PoolProse.Text

/-!
# Meaning of YAML scalars

A plain scalar stands for null, a truth value, a number or a point in time if it looks like one,
and for its own text otherwise.
-/
namespace PoolProse.Yaml

inductive Decimal where
  | finite (negative : Bool) (digits : Nat) (exponent : Int)
  | infinite (negative : Bool)
  | undefined
  deriving DecidableEq, Repr

inductive Meaning where
  | null
  | bool
  | int (n : Int)
  | float (d : Decimal)
  | timestamp
  | str
  deriving DecidableEq, Repr

namespace Meaning

open Text (isDigit)

/-! ## Words -/

def nullWords : List Text := ["", "~", "null", "Null", "NULL"].map utf8

def boolWords : List Text :=
  ["y", "Y", "yes", "Yes", "YES", "true", "True", "TRUE", "on", "On", "ON",
    "n", "N", "no", "No", "NO", "false", "False", "FALSE", "off", "Off", "OFF"].map utf8

def floatWords : List (Text × Decimal) :=
  [(".nan", .undefined), (".NaN", .undefined), (".NAN", .undefined),
    (".inf", .infinite false), (".Inf", .infinite false), (".INF", .infinite false),
    ("+.inf", .infinite false), ("+.Inf", .infinite false), ("+.INF", .infinite false),
    ("-.inf", .infinite true), ("-.Inf", .infinite true), ("-.INF", .infinite true)].map
    fun (w, d) => (utf8 w, d)

def word? (t : Text) : Option Meaning :=
  if nullWords.contains t then some .null
  else if boolWords.contains t then some .bool
  else (floatWords.lookup t).map .float

/-! ## Points in time -/

def isLeapYear (year : Nat) : Bool := year % 4 == 0 && (year % 100 != 0 || year % 400 == 0)

def daysIn (year month : Nat) : Nat :=
  if month = 2 then if isLeapYear year then 29 else 28
  else if month = 4 || month = 6 || month = 9 || month = 11 then 30
  else 31

def digitValue (b : UInt8) : Nat := b.toNat - 48

def short? : Text → Option (Nat × Text)
  | [] => none
  | a :: t =>
    if isDigit a then
      match t with
      | b :: u => if isDigit b then some (10 * digitValue a + digitValue b, u)
                  else some (digitValue a, b :: u)
      | [] => some (digitValue a, [])
    else none

def after? (b : UInt8) : Text → Option Text
  | [] => none
  | a :: t => if a == b then some t else none

def afterFraction (t : Text) : Text :=
  match t with
  | p :: d :: _ => if (p == 0x2E || p == 0x2C) && isDigit d then (t.drop 1).dropWhile isDigit else t
  | _ => t

def afterClock? (t : Text) : Option Text := do
  let (hour, t) ← short? t
  let t ← after? Ascii.colon t
  let (minute, t) ← short? t
  let t ← after? Ascii.colon t
  let (second, t) ← short? t
  if hour < 24 && minute < 60 && second < 60 then some (afterFraction t) else none

def isZone : Text → Bool
  | [z] => z == 0x5A
  | [s, a, b, c, d, e] =>
    (s == 0x2B || s == Ascii.dash) && isDigit a && isDigit b && c == Ascii.colon && isDigit d &&
      isDigit e && 10 * digitValue a + digitValue b ≤ 24 && 10 * digitValue d + digitValue e ≤ 60
  | _ => false

def isDateTail : Text → Bool
  | [] => true
  | b :: t =>
    if b == 0x54 || b == 0x74 then ((afterClock? t).map isZone).getD false
    else if b == Ascii.space then
      ((afterClock? (t.dropWhile (· == Ascii.space))).map List.isEmpty).getD false
    else false

/-- A date, alone or with a time of day. -/
def isTimestamp (t : Text) : Bool :=
  let year := t.takeWhile isDigit
  let found := do
    let t ← after? Ascii.dash (t.drop year.length)
    let (month, t) ← short? t
    let t ← after? Ascii.dash t
    let (day, t) ← short? t
    let year := year.foldl (fun n b => 10 * n + digitValue b) 0
    some (1 ≤ month && month ≤ 12 && 1 ≤ day && day ≤ daysIn year month && isDateTail t)
  year.length == 4 && found.getD false

/-! ## Numbers -/

def baseDigit? (base : Nat) (b : UInt8) : Option Nat :=
  let n := b.toNat
  let v :=
    if isDigit b then some (n - 48)
    else if 97 ≤ n && n ≤ 102 then some (n - 87)
    else if 65 ≤ n && n ≤ 70 then some (n - 55)
    else none
  v.filter (· < base)

def inBase? (base : Nat) (t : Text) : Option Nat :=
  t.foldl (fun n b => do some ((← n) * base + (← baseDigit? base b))) (some 0)

/-- A number without sign. After a leading 0, a letter gives the base, and without one it is 8. -/
def natural? : Text → Option Nat
  | [] => none
  | a :: t =>
    if a == Ascii.zero then
      match t with
      | b :: c :: u =>
        if b == 0x62 || b == 0x42 then inBase? 2 (c :: u)
        else if b == 0x6F || b == 0x4F then inBase? 8 (c :: u)
        else if b == 0x78 || b == 0x58 then inBase? 16 (c :: u)
        else inBase? 8 t
      | _ => inBase? 8 t
    else inBase? 10 (a :: t)

def splitSign : Text → Option UInt8 × Text
  | [] => (none, [])
  | a :: t => if a == Ascii.dash || a == 0x2B then (some a, t) else (none, a :: t)

/-- A signed number of 64 bits, whose magnitude `read` reads. -/
def signed? (read : Text → Option Nat) (t : Text) : Option Int :=
  let (sign, u) := splitSign t
  match read u with
  | none => none
  | some n =>
    if sign == some Ascii.dash then if n ≤ Nat.pow 2 63 then some (-n) else none
    else if n < Nat.pow 2 63 then some n
    else none

def binary? : Text → Option Nat
  | [] => none
  | t => inBase? 2 t

def markedBinary? (t : Text) : Option Int :=
  match t with
  | a :: b :: u =>
    if a == Ascii.zero && b == 0x62 then
      (signed? binary? u).or (((binary? u).filter (· < Nat.pow 2 64)).map Int.ofNat)
    else if a == Ascii.dash && b == Ascii.zero then
      match u with
      | c :: v => if c == 0x62 then signed? binary? (Ascii.dash :: v) else none
      | [] => none
    else none
  | _ => none

def integer? (t : Text) : Option Int :=
  (signed? natural? t).or (((natural? t).filter (· < Nat.pow 2 64)).map Int.ofNat)

def decimalOf (negative : Bool) (whole fraction : Text) (exponent : Int) : Decimal :=
  let digits := (whole ++ fraction).foldl (fun n b => 10 * n + digitValue b) 0
  .finite negative digits (exponent - fraction.length)

/-- The exponent that a text is, of which only the first digits count. -/
def exponent? : Text → Option Int
  | [] => none
  | t =>
    let (sign, u) := splitSign t
    if u.isEmpty || !u.all isDigit then none
    else
      let n := u.foldl (fun n b => if n < 10000 then 10 * n + digitValue b else n) 0
      some (if sign == some Ascii.dash then -n else n)

def decimal? (t : Text) : Option Decimal :=
  let (sign, t) := splitSign t
  let negative := sign == some Ascii.dash
  let whole := t.takeWhile isDigit
  let t := t.drop whole.length
  let (fraction, t) :=
    match t with
    | p :: u => if p == 0x2E then (u.takeWhile isDigit, u.dropWhile isDigit) else ([], t)
    | [] => ([], t)
  if whole.isEmpty && fraction.isEmpty then none
  else
    match t with
    | [] => some (decimalOf negative whole fraction 0)
    | e :: u =>
      if e == 0x65 || e == 0x45 then (exponent? u).map (decimalOf negative whole fraction) else none

/-- Whether a number lies within the range of binary numbers of 64 bits: it is nearer to the
greatest of them than to the next power of two. -/
def isRepresentable : Decimal → Bool
  | .finite _ digits exponent =>
    let bound := Nat.pow 2 1024 - Nat.pow 2 970
    if 0 ≤ exponent then digits = 0 || digits * Nat.pow 10 exponent.toNat < bound
    else digits < bound * Nat.pow 10 (-exponent).toNat
  | _ => false

def underscoresOk : (before : Bool) → Text → Bool
  | _, [] => true
  | before, b :: t =>
    if b == 0x5F then before && ((t.head?.map isDigit).getD false) && underscoresOk false t
    else underscoresOk (isDigit b) t

def withoutUnderscores (t : Text) : Text := t.filter (· != 0x5F)

/-- The form that a number with fraction or exponent has: its exponent is signed, and a point is
followed by digits. -/
def isFloatForm (t : Text) : Bool :=
  let (_, t) := splitSign t
  let t := t.dropWhile isDigit
  match t with
  | [] => true
  | b :: u =>
    if b == 0x2E then
      let rest := u.dropWhile isDigit
      (u.head?.map isDigit).getD false && (rest.isEmpty || isSignedExponent rest)
    else isSignedExponent t
where
  isSignedExponent (t : Text) : Bool :=
    match t with
    | e :: s :: d =>
      (e == 0x65 || e == 0x45) && (s == 0x2B || s == Ascii.dash) && !d.isEmpty && d.all isDigit
    | _ => false

def number? (t : Text) : Option Meaning :=
  let t := withoutUnderscores t
  ((integer? t).map Meaning.int).or
    ((((decimal? t).filter fun d => isFloatForm t && isRepresentable d).map Meaning.float).or
      ((markedBinary? t).map Meaning.int))

def fraction? (t : Text) : Option Meaning :=
  if underscoresOk false t then
    ((decimal? (withoutUnderscores t)).filter isRepresentable).map .float
  else none

/-! ## Plain scalars -/

def mayMean (t : Text) : Bool :=
  match t with
  | [] => true
  | b :: _ => (utf8 "+-0123456789.~yYnNtTfFoO").contains b

/-- What a text means. Points in time are recognised only if `times` is set. -/
def ofText (times : Bool) (t : Text) : Meaning :=
  if mayMean t then
    match word? t with
    | some m => m
    | none =>
      match t with
      | [] => .str
      | b :: _ =>
        if b == 0x2E then (fraction? t).getD .str
        else if isDigit b || b == Ascii.dash || b == 0x2B then
          if times && isTimestamp t then .timestamp else (number? t).getD .str
        else .str
  else .str

/-! ## Numbers in base 60 -/

def isBase60Tail (some_ : Bool) (fuel : Nat) (t : Text) : Bool :=
  match fuel, t with
  | _, [] => some_
  | 0, _ => false
  | fuel + 1, b :: t =>
    if b == Ascii.colon then
      match t.takeWhile isDigit with
      | [_] => isBase60Tail true fuel (t.drop 1)
      | [a, _] => a ≤ 0x35 && isBase60Tail true fuel (t.drop 2)
      | _ => false
    else some_ && b == 0x2E && t.all fun b => isDigit b || b == 0x5F

/-- A number such as `1:30`, which older readers take for a number of seconds. -/
def isBase60 (t : Text) : Bool :=
  let (_, t) := splitSign t
  match t with
  | [] => false
  | b :: t => isDigit b &&
      isBase60Tail false t.length (t.dropWhile fun b => isDigit b || b == 0x5F)

end Meaning

/-! ## Tags -/

def tagBase : Text := utf8 "tag:yaml.org,2002:"

def standardTag (name : String) : Text := tagBase ++ utf8 name

def shortTag (tag : Text) : Text :=
  if tagBase.isPrefixOf tag then utf8 "!!" ++ tag.drop tagBase.length else tag

def Meaning.tag : Meaning → Text
  | .null => standardTag "null"
  | .bool => standardTag "bool"
  | .int _ => standardTag "int"
  | .float _ => standardTag "float"
  | .timestamp => standardTag "timestamp"
  | .str => standardTag "str"

/-- Drops the fraction of a number after rounding it to a binary number of 64 bits, half to even.
Nothing is answered for numbers that are not finite. -/
def Decimal.truncate? : Decimal → Option Int
  | .finite negative digits exponent =>
    let num := if 0 ≤ exponent then digits * Nat.pow 10 exponent.toNat else digits
    let den := if 0 ≤ exponent then 1 else Nat.pow 10 (-exponent).toNat
    let whole := num / den
    let magnitude :=
      if whole = 0 then
        -- Only a number within half a unit of the last place below 1 is rounded up to it.
        if Nat.pow 2 54 * (den - num) ≤ den then 1 else 0
      else
        let places := Nat.log2 whole
        if places < 52 then
          let scale := Nat.pow 2 (52 - places)
          roundHalfEven (num * scale) den / scale
        else
          let scale := Nat.pow 2 (places - 52)
          roundHalfEven num (den * scale) * scale
    some (if negative then -magnitude else magnitude)
  | _ => none
where
  roundHalfEven (num den : Nat) : Nat :=
    let q := num / den
    let r := num % den
    if 2 * r < den || (2 * r = den && q % 2 = 0) then q else q + 1

end PoolProse.Yaml
