import PoolProse.Text.Cursor
import PoolProse.Token.Scan

/-!
# Scanning with a cursor

A document can be scanned without taking its text apart: the matchers move one cursor, read ahead on
trial, and go back to where they started if they do not apply. They see code points, and see the
same at the end of the text as at a NUL. A loop that does not come further has no end, and so no
result; neither has a token that would start behind its end.
-/
namespace PoolProse

namespace Cursor

/-! ## Looking at code points -/

def isBlank (code : Nat) : Bool :=
  code == Ascii.space.toNat || code == Ascii.tab.toNat || code == Ascii.carriageReturn.toNat

def isDigit (code : Nat) : Bool :=
  Ascii.zero.toNat ≤ code && code ≤ Ascii.nine.toNat

/-- Whether `b` is the code point `n` places ahead. The end of the text is taken for a NUL. -/
def sees (c : Cursor) (n : Nat) (b : UInt8) : Bool := c.peekAt n == b.toNat

/-- At the end of a line. Here the end of the text is told from a NUL. -/
def atLineEnd (c : Cursor) : Bool :=
  (c.sees 0 Ascii.nul && c.atEnd) || c.sees 0 Ascii.newline

def operator? (c : Cursor) : Option (Token.Kind × Nat) :=
  if c.sees 0 Ascii.bar then some (.pipe, 1)
  else if c.sees 0 Ascii.colon then
    if c.sees 1 Ascii.colon then some (.binding .define, 2)
    else if c.sees 1 Ascii.bang then some (.binding .defineEval, 2)
    else none
  else if c.sees 0 Ascii.less then
    if c.sees 1 Ascii.dash then some (.binding .select, 2)
    else if c.sees 1 Ascii.bang then some (.binding .selectEval, 2)
    else none
  else none

def bracket? (c : Cursor) : Option Token.Kind :=
  if c.sees 0 Ascii.parenOpen then some (.opening .paren)
  else if c.sees 0 Ascii.parenClose then some (.closing .paren)
  else if c.sees 0 Ascii.braceOpen then some (.opening .brace)
  else if c.sees 0 Ascii.braceClose then some (.closing .brace)
  else none

def newline? (c : Cursor) : Option Token.Kind :=
  if c.sees 0 Ascii.newline then some .newline else none

def ruleMark? (c : Cursor) : Option (UInt8 × Token.Kind) :=
  if c.sees 0 Ascii.dash then some (Ascii.dash, .rule)
  else if c.sees 0 Ascii.equals then some (Ascii.equals, .doubleRule)
  else none

def endsName (c : Cursor) : Bool :=
  c.sees 0 Ascii.nul || c.sees 0 Ascii.newline || c.sees 0 Ascii.backslash ||
    c.bracket?.isSome || c.operator?.isSome

/-! ## Loops -/

/-- Goes on with `d`, if it has less left to read than `c`. -/
def onward {α : Type} (c d : Cursor) (next : d.rest.length < c.rest.length → Option α) : Option α :=
  if h : d.rest.length < c.rest.length then next h else none

/-- Reads on while `p` holds and counts what is read. -/
def readWhile (p : Cursor → Bool) (c : Cursor) : Option (Nat × Cursor) :=
  if p c then
    onward c c.next.2 fun _ => (readWhile p c.next.2).map fun (n, d) => (n + 1, d)
  else some (0, c)
termination_by c.rest.length

def skipBlanks (c : Cursor) : Option (Nat × Cursor) := c.readWhile fun d => isBlank d.peek

/-- Reads to the end of a name. Blanks are read on trial, as they belong to it only if it goes on
after them. -/
def nameRest (c : Cursor) : Option Cursor :=
  if c.atEnd then some c
  else if isBlank c.peek then do
    let (_, d) ← c.skipBlanks
    if d.endsName || d.startsWith Token.commentMark then some (d.reset c.mark)
    else onward c d fun _ => nameRest d
  else if c.endsName then some c
  else onward c c.next.2 fun _ => nameRest c.next.2
termination_by c.rest.length

end Cursor

/-- A cursor, the tokens left so far, and whether none of them stands on this line. -/
structure Scanner where
  cursor : Cursor
  tokens : List Token := []
  lineStart : Bool := true
  deriving DecidableEq, Repr

namespace Scanner

open Token (Kind commentMark)

def start (t : Text) : Scanner := { cursor := .start t }

/-! ## The matchers -/

abbrev Matcher := Scanner → Option (Bool × Scanner)

def refuse : Matcher := fun s => some (false, s)

/-- Does not apply, and goes back from `d`. -/
def back (s : Scanner) (d : Cursor) : Option (Bool × Scanner) :=
  some (false, { s with cursor := d.reset s.cursor.mark })

def pass (s : Scanner) (d : Cursor) : Option (Bool × Scanner) :=
  some (true, { s with cursor := d })

def emit (s : Scanner) (kind : Kind) (d : Cursor) : Option (Bool × Scanner) :=
  (d.since? s.cursor.pos).map fun text =>
    (true, ⟨d, s.tokens ++ [⟨kind, text, s.cursor.pos⟩], kind == .newline⟩)

def continuation : Matcher := fun s =>
  if s.cursor.sees 0 Ascii.backslash then
    if s.cursor.sees 1 Ascii.newline then s.pass (s.cursor.skip 2)
    else if s.cursor.sees 1 Ascii.carriageReturn && s.cursor.sees 2 Ascii.newline then
      s.pass (s.cursor.skip 3)
    else refuse s
  else refuse s

def ruleOf (mark : UInt8) (kind : Kind) : Matcher := fun s => do
  let (n, c) ← s.cursor.readWhile fun c => c.sees 0 mark
  let (_, d) ← c.skipBlanks
  if n < 3 || !d.atLineEnd then s.back d else s.emit kind d

def rule : Matcher := fun s =>
  if s.lineStart then
    match s.cursor.ruleMark? with
    | none => refuse s
    | some (mark, kind) => ruleOf mark kind s
  else refuse s

def comment : Matcher := fun s => do
  let (n, c) ← s.cursor.skipBlanks
  if (0 < n || s.lineStart || Cursor.isBlank c.last) && c.startsWith commentMark then do
    let (_, d) ← c.readWhile fun c => !c.atLineEnd
    s.pass d
  else s.back c

def operator : Matcher := fun s => do
  let (_, c) ← s.cursor.skipBlanks
  match c.operator? with
  | none => s.back c
  | some (kind, n) => do
    let (_, d) ← (c.skip n).skipBlanks
    s.emit kind d

def single (kind? : Cursor → Option Kind) : Matcher := fun s =>
  match kind? s.cursor with
  | none => refuse s
  | some kind => s.emit kind s.cursor.next.2

def newline : Matcher := single Cursor.newline?

def bracket : Matcher := single Cursor.bracket?

def escape : Matcher := fun s =>
  if s.cursor.sees 0 Ascii.backslash then
    let c := s.cursor.next.2
    s.emit .escape (if c.atEnd then c else c.next.2)
  else refuse s

/-- Nothing was read where there is no blank, so this one does not go back. -/
def white : Matcher := fun s => do
  let (n, d) ← s.cursor.skipBlanks
  if n = 0 then some (false, { s with cursor := d }) else s.emit .white d

def number : Matcher := fun s =>
  if Cursor.isDigit s.cursor.peek then do
    let (_, d) ← s.cursor.readWhile fun c => Cursor.isDigit c.peek
    s.emit .number d
  else refuse s

def name : Matcher := fun s => do s.emit .name (← s.cursor.next.2.nameRest)

def matchers : List Matcher :=
  [continuation, rule, comment, operator, newline, bracket, escape, white, number, name]

/-! ## The scanner -/

/-- Tries matchers one after the other, each where the one before it left the scanner. -/
def attempt : List Matcher → Matcher
  | [], s => some (false, s)
  | m :: ms, s => do
    let (found, s') ← m s
    if found then some (true, s') else attempt ms s'

/-- Scans up to the end and marks it. -/
def run (s : Scanner) : Option (List Token) :=
  if s.cursor.atEnd then some (s.tokens ++ [⟨.eof, [], s.cursor.pos⟩])
  else do
    let (_, s') ← attempt matchers s
    s.cursor.onward s'.cursor fun _ => run s'
termination_by s.cursor.rest.length

end Scanner

end PoolProse
