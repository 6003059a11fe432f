import PoolProse.Text.Base64
import PoolProse.Text.CodePoint
import PoolProse.Yaml.Scalar

/-!
# Writing YAML

A mapping from texts to lists of texts, written in block style. A text is written plain where that
reads back as the same string, and quoted otherwise. Long texts are folded at spaces.
-/
namespace PoolProse.Yaml

/-! ## Characters -/

def isBreak (c : Nat) : Bool :=
  c == 0x0A || c == 0x0D || c == 0x85 || c == 0x2028 || c == 0x2029

def isBlankCode (c : Nat) : Bool := c == 0x20 || c == 0x09

def isPrintable (c : Nat) : Bool :=
  c == 0x0A || (0x20 ≤ c && c ≤ 0x7E) || (0xA0 ≤ c && c ≤ 0xD7FF) ||
    (0xE000 ≤ c && c ≤ 0xFFFD && c != 0xFEFF)

/-! ## The style of a scalar -/

inductive Style where
  | plain
  | single
  | double
  | literal
  deriving DecidableEq, Repr

def blankFollows : List CodePoint → Bool
  | [] => true
  | r :: _ => isBlankCode r.code

def startsLikeIndicator (r : CodePoint) (rest : List CodePoint) : Bool :=
  (utf8 "#,[]\x7b\x7d&*!|>'\"%@`").any (fun b => b.toNat == r.code) ||
    ((r.code == 0x3F || r.code == 0x3A || r.code == 0x2D) && blankFollows rest)

def containsIndicator : (before : Nat) → List CodePoint → Bool
  | _, [] => false
  | before, r :: rest =>
    (r.code == 0x3A && blankFollows rest) ||
      (r.code == 0x23 && (isBlankCode before || isBreak before || before == 0)) ||
      containsIndicator r.code rest

def spaceMeetsBreak : List CodePoint → Bool
  | [] => false
  | [_] => false
  | a :: b :: rest =>
    (a.code == 0x20 && isBreak b.code) || (isBreak a.code && b.code == 0x20) ||
      spaceMeetsBreak (b :: rest)

def isMultiline (rs : List CodePoint) : Bool := rs.any (isBreak ·.code)

def isSingleAllowed (rs : List CodePoint) : Bool :=
  rs.all (isPrintable ·.code) && !spaceMeetsBreak rs

def isPlainAllowed (t : Text) (rs : List CodePoint) : Bool :=
  match rs with
  | [] => true
  | r :: rest =>
    !((utf8 "---").isPrefixOf t || (utf8 "...").isPrefixOf t) && !startsLikeIndicator r rest &&
      !containsIndicator r.code rest && r.code != 0x20 &&
      ((rs.getLast?.map (·.code != 0x20)).getD true) && !isMultiline rs && isSingleAllowed rs

/-- Whether a text is taken for a string if it stands plain. -/
def readsAsString (t : Text) : Bool := Meaning.ofText true t == .str && !Meaning.isBase60 t

def styleOf (t : Text) : Style :=
  let rs := t.codePoints
  if !readsAsString t then .double
  else if isPlainAllowed t rs then .plain
  else if isSingleAllowed rs then .single
  else .double

/-! ## Scalars -/

def bestWidth : Nat := 80

def lineBreak (indent : Nat) : Text := Ascii.newline :: List.replicate indent Ascii.space

def isSpaceNext : List CodePoint → Bool
  | [] => false
  | r :: _ => r.code == 0x20

/-- The rest of a plain scalar. `fold` is the indentation of continued lines, or none if the scalar
must stay on its line. -/
def plainFrom (fold : Option Nat) (column : Nat) (spaces : Bool) : List CodePoint → Text
  | [] => []
  | r :: rs =>
    if r.code == 0x20 then
      match fold with
      | some indent =>
        if !spaces && bestWidth < column && !isSpaceNext rs then
          lineBreak indent ++ plainFrom fold indent true rs
        else Ascii.space :: plainFrom fold (column + 1) true rs
      | none => Ascii.space :: plainFrom fold (column + 1) true rs
    else r.bytes ++ plainFrom fold (column + 1) false rs

/-- The rest of a scalar in single quotes. `start` is set at its first character and `broken` after
a line break, which keeps its own character. -/
def singleFrom (fold : Option Nat) (start : Bool) (column : Nat) (spaces broken : Bool) :
    List CodePoint → Text
  | [] => []
  | r :: rs =>
    if r.code == 0x20 then
      match fold with
      | some indent =>
        if !spaces && bestWidth < column && !start && !rs.isEmpty && !isSpaceNext rs then
          lineBreak indent ++ singleFrom fold false indent true broken rs
        else Ascii.space :: singleFrom fold false (column + 1) true broken rs
      | none => Ascii.space :: singleFrom fold false (column + 1) true broken rs
    else if isBreak r.code then r.bytes ++ singleFrom fold false 0 spaces true rs
    else
      let indent := if broken then fold.getD 0 - column else 0
      let quote := if r.code == 0x27 then [0x27] else []
      List.replicate indent Ascii.space ++ quote ++ r.bytes ++
        singleFrom fold false (column + indent + quote.length + 1) false false rs

def hexDigits : Nat → Nat → Text
  | 0, _ => []
  | n + 1, c =>
    let d := c % 16
    hexDigits n (c / 16) ++ [UInt8.ofNat (if d < 10 then 48 + d else 55 + d)]

def escapeCode (c : Nat) : Text :=
  match [(0x00, "0"), (0x07, "a"), (0x08, "b"), (0x09, "t"), (0x0A, "n"), (0x0B, "v"), (0x0C, "f"),
      (0x0D, "r"), (0x1B, "e"), (0x22, "\""), (0x5C, "\\"), (0x85, "N"), (0xA0, "_"),
      (0x2028, "L"), (0x2029, "P")].lookup c with
  | some s => utf8 s
  | none =>
    if c ≤ 0xFF then utf8 "x" ++ hexDigits 2 c
    else if c ≤ 0xFFFF then utf8 "u" ++ hexDigits 4 c
    else utf8 "U" ++ hexDigits 8 c

/-- The rest of a scalar in double quotes. `always` escapes every character. -/
def doubleFrom (fold : Option Nat) (always start : Bool) (column : Nat) (spaces : Bool) :
    List CodePoint → Text
  | [] => []
  | r :: rs =>
    if always || !isPrintable r.code || isBreak r.code || r.code == 0x22 || r.code == 0x5C then
      let e := escapeCode r.code
      Ascii.backslash :: e ++ doubleFrom fold always false (column + 1 + e.length) false rs
    else if r.code == 0x20 then
      match fold with
      | some indent =>
        if !spaces && bestWidth < column && !start && !rs.isEmpty then
          if isSpaceNext rs then
            lineBreak indent ++ Ascii.backslash ::
              doubleFrom fold always false (indent + 1) true rs
          else lineBreak indent ++ doubleFrom fold always false indent true rs
        else Ascii.space :: doubleFrom fold always false (column + 1) true rs
      | none => Ascii.space :: doubleFrom fold always false (column + 1) true rs
    else r.bytes ++ doubleFrom fold always false (column + 1) false rs

def startsWithByteOrder : List CodePoint → Bool
  | [] => false
  | r :: _ => r.code == 0xFEFF

def pieces (n : Nat) : (fuel : Nat) → Text → List Text
  | 0, _ => []
  | _, [] => []
  | fuel + 1, t => t.take n :: pieces n fuel (t.drop n)

/-- A text that is not UTF-8 is written in Base64. Longer than a line, it is cut into lines. -/
def binaryLines (t : Text) : List Text :=
  let e := Base64.encode t
  if e.length < 70 then [e] else pieces 70 e.length e

/-- A scalar that is written from `column` on. -/
def scalar (fold : Option Nat) (column : Nat) (t : Text) : Text :=
  if t.isUtf8 then
    let rs := t.codePoints
    match styleOf t with
    | .single => 0x27 :: singleFrom fold true (column + 1) false false rs ++ [0x27]
    | .double =>
      0x22 :: doubleFrom fold (startsWithByteOrder rs) true (column + 1) false rs ++ [0x22]
    | _ => plainFrom fold column false rs
  else
    match binaryLines t with
    | [e] => utf8 "!!binary " ++ e
    | lines => utf8 "!!binary |" ++ lines.flatMap fun l => lineBreak (fold.getD 0) ++ l

/-! ## Mappings -/

def isSimpleKey (t : Text) : Bool :=
  if t.isUtf8 then !isMultiline t.codePoints && t.length ≤ 128
  else
    match binaryLines t with
    | [e] => e.length + 8 ≤ 128
    | _ => false

def entry (key : Text) (items : List Text) : Text :=
  if isSimpleKey key then
    scalar none 0 key ++ utf8 ":\n" ++
      items.flatMap fun i => utf8 "- " ++ scalar (some 2) 2 i ++ utf8 "\n"
  else
    utf8 "? " ++ scalar (some 2) 2 key ++ utf8 "\n: " ++
      Text.joinWith (utf8 "  ") (items.map fun i => utf8 "- " ++ scalar (some 4) 4 i ++ utf8 "\n")

def mapping (entries : List (Text × List Text)) : Text :=
  if entries.isEmpty then utf8 "\x7b\x7d\n" else entries.flatMap fun (k, items) => entry k items

end PoolProse.Yaml
