import PoolProse.Statement

/-!
# Reading tokens by their places

A document can be read without cutting it into lines first: a place moves over the tokens, and looks
ahead of it run from one place to another. A look at a place that is not there has no result, and
neither has a loop that does not come further, since it has no end.
-/
namespace PoolProse

/-- The tokens with a mark of the end behind them, unless the last one is such a mark. -/
def Token.seal (ts : List Token) : List Token :=
  match ts.getLast? with
  | none => [⟨.eof, [], 0⟩]
  | some t => if t.kind = .eof then ts else ts ++ [⟨.eof, [], t.offset + t.text.length⟩]

namespace Walk

open Line (Level)

variable (ts : List Token)

/-! ## Looking ahead -/

/-- Goes on at the place `k`, if it is further than `i` and not beyond the tokens. -/
def onward {α : Type} (i k : Nat) (next : i < k ∧ k ≤ ts.length → Option α) : Option α :=
  if h : i < k ∧ k ≤ ts.length then next h else none

def scanWhile (p : Token → Bool) (i : Nat) : Option Nat :=
  if h : i < ts.length then
    if p ts[i] then scanWhile p (i + 1) else some i
  else none
termination_by ts.length - i

def skipWhite (i : Nat) : Option Nat := scanWhile ts Token.isWhite i

def lineEnd (i : Nat) : Option Nat :=
  scanWhile ts (fun t => t.kind != .newline && t.kind != .eof) i

/-- The first place of the line below. The end of the document is never passed. -/
def nextLine (i : Nat) : Option Nat := do
  let j ← lineEnd ts i
  let t ← ts[j]?
  some (if t.kind = .newline then j + 1 else j)

def nameAt (i : Nat) : Option (Option (Text × Nat)) := do
  let t ← ts[i]?
  match t.kind with
  | .name => some (some (t.text, i + 1))
  | .number =>
    let j ← skipWhite ts (i + 1)
    let u ← ts[j]?
    if u.kind = .name then some (some (((ts.take (j + 1)).drop i).flatMap Token.text, j + 1))
    else some (some (t.text, i + 1))
  | _ => some none

def isTitle (i : Nat) : Option Bool := do
  match ← nameAt ts i with
  | none => some false
  | some (_, next) =>
    let j ← skipWhite ts next
    let t ← ts[j]?
    if t.kind = .newline then
      let u ← ts[j + 1]?
      some (u.kind == .doubleRule)
    else some false

def closes (i : Nat) : Option Bool := do
  let j ← skipWhite ts i
  let t ← ts[j]?
  match t.kind with
  | .rule => some true
  | .eof => some false
  | .doubleRule => some false
  | .newline => onward ts i (j + 1) fun _ => closes (j + 1)
  | _ =>
    if ← isTitle ts j then some false
    else
      let k ← lineEnd ts j
      let u ← ts[k]?
      if u.kind = .eof then some false else onward ts i (k + 1) fun _ => closes (k + 1)
termination_by ts.length - i

def blockAhead (i : Nat) : Option Bool := do
  let j ← skipWhite ts i
  let t ← ts[j]?
  match t.kind with
  | .newline => some false
  | .eof => some false
  | _ => closes ts j

/-- The place after all blocks of a definition, or that of what cuts the first one off. -/
def blockEnd (i : Nat) : Option Nat := do
  let j ← skipWhite ts i
  let t ← ts[j]?
  match t.kind with
  | .eof => some j
  | .doubleRule => some j
  | _ =>
    if ← isTitle ts j then some j
    else
      let k ← nextLine ts j
      if t.kind = .rule then
        if ← blockAhead ts k then onward ts i k fun _ => blockEnd k else some k
      else onward ts i k fun _ => blockEnd k
termination_by ts.length - i

/-! ## Reading -/

/-- What is read from a place on: the answer or an error, and the place where reading stopped. -/
abbrev Reading (α : Type) := Except SyntaxError α × Nat

mutual

/-- Reads text and groups: inside `opener` up to the bracket that closes it, and outside of all
groups up to a bar between items or the end of the line. -/
def segments (opener : Option (Token × Bracket)) (items : Bool) (level : Level) (i : Nat) :
    Option (Reading (List Expr)) :=
  if h : i < ts.length then
    let t := ts[i]
    match t.kind with
    | .white => segments opener items (level.blank opener.isNone t.text) (i + 1)
    | .name => segments opener items (level.write opener.isNone t.text) (i + 1)
    | .number => segments opener items (level.write opener.isNone t.text) (i + 1)
    | .escape =>
      segments opener items (level.write opener.isNone (Token.decodeEscape t.text)) (i + 1)
    | .opening b =>
      match group t b (i + 1) with
      | none => none
      | some (.error e, j) => some (.error e, j)
      | some (.ok e, j) =>
        onward ts i j fun _ =>
          segments opener items ((level.write opener.isNone []).flush.push e) j
    | .closing b =>
      if opener.map Prod.snd = some b then some (.ok level.flush.segments, i)
      else some (.error ⟨.unmatchedGroup, t⟩, i)
    | .pipe =>
      if items && opener.isNone then some (.ok level.flush.segments, i)
      else some (.error ⟨.operatorWithoutName, t⟩, i)
    | .binding _ => some (.error ⟨.operatorWithoutName, t⟩, i)
    | _ =>
      match opener with
      | none => some (.ok level.flush.segments, i)
      | some (o, _) => some (.error ⟨.unmatchedGroup, o⟩, i)
  else none
termination_by 2 * (ts.length - i)

/-- Reads the inside of a group that `opener` opens, and passes over the bracket that closes it. -/
def group (opener : Token) (b : Bracket) (i : Nat) : Option (Reading Expr) :=
  match segments (some (opener, b)) false {} i with
  | none => none
  | some (.error e, j) => some (.error e, j)
  | some (.ok es, j) => some (.ok (.group b (.concat es)), j + 1)
termination_by 2 * (ts.length - i) + 1

end

def mix (items : Bool) (i : Nat) : Option (Reading Expr) := do
  let (es, j) ← segments ts none items {} i
  some (es.map Expr.concat, j)

/-- Passes over the end of the line, where an answer has been read. -/
def endLine {α : Type} : Reading α → Option (Reading α)
  | (.error e, i) => some (.error e, i)
  | (.ok a, i) => do
    let t ← ts[i]?
    match t.kind with
    | .newline => some (.ok a, i + 1)
    | .eof => some (.ok a, i)
    | _ => some (.error ⟨.unexpectedToken, t⟩, i)

def itemList (done : List Expr) (i : Nat) : Option (Reading (List Expr)) := do
  match ← mix ts true i with
  | (.error e, j) => some (.error e, j)
  | (.ok e, j) =>
    let t ← ts[j]?
    if t.kind = .pipe then onward ts i (j + 1) fun _ => itemList (done ++ [e]) (j + 1)
    else some (.ok (done ++ [e]), j)
termination_by ts.length - i

def freeText (i : Nat) : Option (Reading Expr) := do endLine ts (← mix ts false i)

def line (i : Nat) : Option (Reading Expr) := do
  match ← nameAt ts i with
  | none => freeText ts i
  | some (name, next) =>
    let t ← ts[next]?
    match t.kind with
    | .binding op =>
      let (items, j) ← itemList ts [] (next + 1)
      endLine ts (items.map (.bind op name), j)
    | _ => freeText ts i

def block (title : Token) (name : Text) (lines : List Expr) (i : Nat) : Option (Reading Expr) := do
  let j ← skipWhite ts i
  let t ← ts[j]?
  match t.kind with
  | .rule => endLine ts (.ok (.joinLines lines), j + 1)
  | .newline => onward ts i (j + 1) fun _ => block title name lines (j + 1)
  | .eof => some (.error ⟨.unterminatedBlock name, title⟩, j)
  | .doubleRule => some (.error ⟨.unterminatedBlock name, title⟩, j)
  | _ =>
    if ← isTitle ts j then some (.error ⟨.unterminatedBlock name, title⟩, j)
    else
      match ← freeText ts j with
      | (.error e, k) => some (.error e, k)
      | (.ok e, k) => onward ts i k fun _ => block title name (lines ++ [e]) k
termination_by ts.length - i

def blocks (title : Token) (name : Text) (done : List Expr) (i : Nat) :
    Option (Reading (List Expr)) := do
  match ← block ts title name [] i with
  | (.error e, j) => some (.error e, j)
  | (.ok e, j) =>
    if ← blockAhead ts j then onward ts i j fun _ => blocks title name (done ++ [e]) j
    else some (.ok (done ++ [e]), j)
termination_by ts.length - i

/-- Reads the definition whose title is at `i`. After an error in a block, reading goes on where all
blocks end, and this place is known before the first of them is read. -/
def definition (i : Nat) : Option (Statement × Nat) := do
  let title ← ts[i]?
  let (name, next) := (← nameAt ts i).getD ([], i)
  let j ← skipWhite ts next
  match ← endLine ts (.ok (), j + 2) with
  | (.error e, k) => some (.error e, ← nextLine ts k)
  | (.ok (), k) =>
    let resume ← blockEnd ts k
    match ← blocks ts title name [] k with
    | (.error e, _) => some (.error e, resume)
    | (.ok items, l) => some (.ok (.bind .define name items), l)

def statement (i : Nat) : Option (Option Statement × Nat) := do
  let j ← skipWhite ts i
  let t ← ts[j]?
  match t.kind with
  | .eof => some (none, j)
  | .newline => some (none, j + 1)
  | .rule => some (none, ← nextLine ts j)
  | .doubleRule => some (some (.error ⟨.ruleWithoutTitle, t⟩), ← nextLine ts j)
  | _ =>
    if ← isTitle ts j then
      let (s, k) ← definition ts j
      some (some s, k)
    else
      match ← line ts j with
      | (.ok e, k) => some (some (.ok e), k)
      | (.error e, k) => some (some (.error e), ← nextLine ts k)

def statements (i : Nat) : Option (List Statement) := do
  let t ← ts[i]?
  if t.kind = .eof then some []
  else
    let (s, j) ← statement ts i
    let rest ← onward ts i j fun _ => statements j
    some (s.toList ++ rest)
termination_by ts.length - i

end Walk

end PoolProse
