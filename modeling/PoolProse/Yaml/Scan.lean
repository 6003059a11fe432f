import PoolProse.Yaml.Token
import PoolProse.Yaml.Window

/-!
# Scanning YAML

Tokens are cut off one at a time. A key is recognised only at its colon, so the place of every
possible key is kept until the colon comes or can no longer come, and the tokens of the key are put
in front then. How far a token looks ahead decides which problems with later characters come first.
-/
namespace PoolProse.Yaml

/-- A place where a key may have started, and the number its first token has. -/
structure PossibleKey where
  required : Bool
  number : Nat
  mark : Mark
  deriving Repr

structure Scanner where
  window : Window
  /-- The place of the next character. -/
  mark : Mark := {}
  /-- A bound on the number of characters. -/
  limit : Nat
  /-- Tokens that have been cut off and not been taken. -/
  queue : List Token := []
  /-- The number of tokens that have been taken. -/
  taken : Nat := 0
  started : Bool := false
  indent : Int := -1
  indents : List Int := []
  /-- The possible key of every level of flow collections, the innermost first. -/
  keys : List (Option PossibleKey) := [none]
  /-- Whether a key may start here. -/
  keyAllowed : Bool := true
  deriving Repr

def Scanner.ofText (t : Text) : Scanner where
  window := .ofText t
  limit := t.length + 2

abbrev Scan := StateT Scanner (Except Error)

namespace Scan

def flowLevel (s : Scanner) : Nat := s.keys.length - 1

def failAt {α : Type} (p : Problem) (m : Mark) : Scan α :=
  throw (.problem p (if m.line = 0 then 0 else m.line + 1))

def fail {α : Type} (p : Problem) : Scan α := do failAt p (← get).mark

/-! ## Looking and moving -/

def mark : Scan Mark := return (← get).mark

def limit : Scan Nat := return (← get).limit

def need (n : Nat) : Scan Unit := do
  let s ← get
  match s.window.need n with
  | .ok w => set { s with window := w }
  | .error p => throw (.problem p 0)

def ahead (i : Nat) : Scan Char := return (← get).window.peek i

def skip (n : Nat) : Scan Unit :=
  modify fun s =>
    let m := s.mark
    { s with
      window := s.window.pass n
      mark := { m with index := m.index + n, column := m.column + n } }

/-- Goes past a line break, if one comes next. The answer is the text that it stands for. -/
def readLine : Scan (List Char) := do
  let c ← ahead 0
  if isBreakChar c then
    need 2
    let n := if c == '\r' && (← ahead 1) == '\n' then 2 else 1
    modify fun s =>
      { s with window := s.window.pass n, mark := ⟨s.mark.index + n, s.mark.line + 1, 0⟩ }
    return [if c == '\u2028' || c == '\u2029' then c else '\n']
  else return []

def skipLine : Scan Unit := do
  let _ ← readLine

def takeWhileFrom (f : Char → Bool) : (fuel : Nat) → (taken : List Char) → Scan (List Char)
  | 0, taken => return taken.reverse
  | fuel + 1, taken => do
    need 1
    let c ← ahead 0
    if f c then
      skip 1
      takeWhileFrom f fuel (c :: taken)
    else return taken.reverse

def takeWhile (f : Char → Bool) : Scan (List Char) := do takeWhileFrom f (← limit) []

def skipWhile (f : Char → Bool) : Scan Unit := do
  let _ ← takeWhile f

def atIndicator : Scan Bool := do
  let w := (← get).window
  let three (c : Char) : Bool := w.peek 0 == c && w.peek 1 == c && w.peek 2 == c
  return (← mark).column == 0 && (three '-' || three '.') && endsWord (w.peek 3)

/-! ## The queue -/

def append (kind : TokenKind) (m : Mark) : Scan Unit :=
  modify fun s => { s with queue := s.queue ++ [⟨kind, m⟩] }

def allowKey (b : Bool) : Scan Unit := modify fun s => { s with keyAllowed := b }

/-! ## Keys and indentation -/

def removeKey : Scan Unit := do
  let s ← get
  match s.keys with
  | some k :: ks => if k.required then fail .missingColon else set { s with keys := none :: ks }
  | _ => return

def saveKey : Scan Unit := do
  let s ← get
  if s.keyAllowed then
    let k : PossibleKey :=
      { required := flowLevel s == 0 && s.indent == s.mark.column
        number := s.taken + s.queue.length
        mark := s.mark }
    removeKey
    modify fun s => { s with keys := some k :: s.keys.tail }

/-- Gives up keys that are on an earlier line or too long. -/
def dropStaleKeys : Scan Unit := do
  let s ← get
  let m := s.mark
  let isStale (k : PossibleKey) : Bool := k.mark.line < m.line || k.mark.index + 1024 < m.index
  if s.keys.any (fun k => (k.map fun k => isStale k && k.required).getD false) then
    fail .missingColon
  else set { s with keys := s.keys.map (Option.filter fun k => !isStale k) }

/-- Opens a block collection if the column is deeper than the indentation. Its token goes to the
position `number`, or to the end. -/
def openBlock (column : Nat) (number : Option Nat) (kind : TokenKind) (m : Mark) : Scan Unit := do
  let s ← get
  if flowLevel s == 0 && s.indent < column then
    let t : Token := ⟨kind, m⟩
    let queue :=
      match number with
      | some n => s.queue.take (n - s.taken) ++ t :: s.queue.drop (n - s.taken)
      | none => s.queue ++ [t]
    set { s with indents := s.indent :: s.indents, indent := column, queue }

/-- The indentation that is left when all blocks deeper than `column` end, and their number. -/
def unrolled (column : Int) : (indent : Int) → List Int → Int × List Int × Nat
  | indent, [] => (indent, [], 0)
  | indent, i :: is =>
    if column < indent then
      let (indent, is, n) := unrolled column i is
      (indent, is, n + 1)
    else (indent, i :: is, 0)

def closeBlocks (column : Int) : Scan Unit := do
  let s ← get
  if flowLevel s == 0 then
    let (indent, indents, n) := unrolled column s.indent s.indents
    let t : Token := ⟨.blockEnd, s.mark⟩
    set { s with indent, indents, queue := s.queue ++ List.replicate n t }

/-! ## Blanks and comments -/

def skipBlanks : Scan Unit := skipWhile isBlankChar

def skipComment : Scan Unit := do
  if (← ahead 0) == '#' then skipWhile fun c => !endsLine c

def finishLine : Scan Unit := do
  skipBlanks
  skipComment
  unless endsLine (← ahead 0) do fail .missingCommentOrBreak
  skipLine

/-- Goes to the next token. A new line may start a key outside of flow collections. While the window
starts with a mark of byte order, the first character of every line is passed over. -/
def toNextToken : (fuel : Nat) → Scan Unit
  | 0 => return
  | fuel + 1 => do
    need 1
    let s ← get
    if s.mark.column == 0 && s.window.marked then skip 1
    let tabs := 0 < flowLevel s || !s.keyAllowed
    skipWhile fun c => c == ' ' || (tabs && c == '\t')
    skipComment
    if isBreakChar (← ahead 0) then
      skipLine
      if flowLevel s == 0 then allowKey true
      toNextToken fuel

/-! ## Directives -/

def versionDigits : (allowed : Nat) → (digits : List Char) → Scan (List Char)
  | 0, digits => do
    need 1
    if (← ahead 0).isDigit then fail .longVersionNumber else return digits
  | allowed + 1, digits => do
    need 1
    let c ← ahead 0
    if c.isDigit then
      skip 1
      versionDigits allowed (digits ++ [c])
    else return digits

def versionNumber : Scan Nat := do
  let digits ← versionDigits 2 []
  if digits.isEmpty then fail .missingVersionNumber
  return digits.foldl (fun n c => 10 * n + (c.toNat - 48)) 0

def versionValue : Scan TokenKind := do
  skipBlanks
  let major ← versionNumber
  unless (← ahead 0) == '.' do fail .missingVersionPoint
  skip 1
  return .version major (← versionNumber)

def tagHandle (directive : Bool) : Scan (List Char) := do
  need 1
  unless (← ahead 0) == '!' do fail .missingExclamation
  skip 1
  let w ← takeWhile isWordChar
  if (← ahead 0) == '!' then
    skip 1
    return '!' :: w ++ ['!']
  else if directive && !w.isEmpty then fail .missingExclamation
  else return '!' :: w

def isUriChar (c : Char) : Bool := isWordChar c || ";/?:@&=+$,.!~*'()[]%".toList.contains c

def hexValue? (c : Char) : Option Nat :=
  if c.isDigit then some (c.toNat - 48)
  else if 'a' ≤ c && c ≤ 'f' then some (c.toNat - 87)
  else if 'A' ≤ c && c ≤ 'F' then some (c.toNat - 55)
  else none

def escapedOctet : Scan UInt8 := do
  need 3
  match (← ahead 0) == '%', hexValue? (← ahead 1), hexValue? (← ahead 2) with
  | true, some x, some y => return UInt8.ofNat (16 * x + y)
  | _, _, _ => fail .badUriEscape

def escapedTail : (count : Nat) → (octets : Text) → Scan Text
  | 0, octets => return octets
  | count + 1, octets => do
    let b ← escapedOctet
    unless b &&& 0xC0 == 0x80 do fail .badUriTrailingOctet
    skip 3
    escapedTail count (octets ++ [b])

/-- A character whose bytes are all escaped. -/
def escapedCharacter : Scan Text := do
  let b ← escapedOctet
  if octets b = 0 then fail .badUriLeadingOctet
  skip 3
  escapedTail (octets b - 1) [b]

def uriFrom : (fuel : Nat) → (uri : Text) → Scan Text
  | 0, uri => return uri
  | fuel + 1, uri => do
    need 1
    let c ← ahead 0
    if c == '%' then uriFrom fuel (uri ++ (← escapedCharacter))
    else if isUriChar c then
      skip 1
      uriFrom fuel (uri ++ textOf [c])
    else return uri

def tagUri (head : List Char) : Scan Text := do
  let uri ← uriFrom (← limit) []
  if head.isEmpty && uri.isEmpty then fail .missingTagUri
  return textOf head.tail ++ uri

def tagValue : Scan TokenKind := do
  skipBlanks
  let handle ← tagHandle true
  need 1
  unless isBlankChar (← ahead 0) do fail .missingWhitespace
  skipBlanks
  let lead ← tagUri []
  unless endsWord (← ahead 0) do fail .missingWhitespaceOrBreak
  return .tagDirective (textOf handle) lead

def directive : Scan Unit := do
  let start ← mark
  skip 1
  let name ← takeWhile isWordChar
  if name.isEmpty then fail .missingDirectiveName
  unless endsWord (← ahead 0) do fail .badDirectiveName
  let kind ←
    if name == "YAML".toList then versionValue
    else if name == "TAG".toList then tagValue
    else fail .unknownDirective
  finishLine
  append kind start

/-! ## Anchors and tags -/

def anchorOrAlias (kind : Text → TokenKind) : Scan Unit := do
  let start ← mark
  skip 1
  let name ← takeWhile isWordChar
  let c ← ahead 0
  unless !name.isEmpty && (endsWord c || "?:,]\x7d%@`".toList.contains c) do
    fail .missingAnchorName
  append (kind (textOf name)) start

def tag : Scan Unit := do
  let start ← mark
  need 2
  let kind ←
    if (← ahead 1) == '<' then
      skip 2
      let suffix ← tagUri []
      unless (← ahead 0) == '>' do fail .missingTagEnd
      skip 1
      pure (.tag [] suffix)
    else
      let handle ← tagHandle false
      if 1 < handle.length && handle.getLast? == some '!' then
        pure (.tag (textOf handle) (← tagUri []))
      else
        let suffix ← tagUri handle
        pure (if suffix.isEmpty then .tag [] (utf8 "!") else .tag (utf8 "!") suffix)
  need 1
  unless endsWord (← ahead 0) do fail .missingWhitespaceOrBreak
  append kind start

/-! ## Block scalars -/

/-- Line breaks that have been read and may yet be folded. -/
structure Folding where
  /-- Whether a line break has been read since the last other character. -/
  broken : Bool := false
  /-- The first line break. -/
  leading : List Char := []
  /-- The line breaks after the first. -/
  trailing : List Char := []
  /-- Blanks on the line of the last other character. -/
  blanks : List Char := []

namespace Folding

def joined (f : Folding) : List Char :=
  if f.broken then
    if f.leading == ['\n'] then if f.trailing.isEmpty then [' '] else f.trailing
    else f.leading ++ f.trailing
  else f.blanks

end Folding

/-- The indentation of a block scalar whose deepest leading blank line ends at `deepest`. -/
def detectedIndent (s : Scanner) (deepest : Nat) : Nat :=
  max (max deepest (s.indent + 1).toNat) 1

/-- Whether a column lies before the indentation, which it does while that is unknown. -/
def isShallow (indent : Option Nat) (m : Mark) : Bool :=
  (indent.map fun i => decide (m.column < i)).getD true

def skipIndentation (indent : Option Nat) : (fuel : Nat) → Scan Unit
  | 0 => return
  | fuel + 1 => do
    need 1
    if isShallow indent (← mark) && (← ahead 0) == ' ' then
      skip 1
      skipIndentation indent fuel

/-- Goes past indentation and empty lines. While the indentation is unknown, `none` stands for it
and the deepest column is kept. -/
def blockBreaks (indent : Option Nat) :
    (fuel : Nat) → (deepest : Nat) → List Char → Scan (Nat × List Char)
  | 0, deepest, breaks => return (indent.getD (detectedIndent (← get) deepest), breaks)
  | fuel + 1, deepest, breaks => do
    skipIndentation indent (← limit)
    let m ← mark
    let deepest := max deepest m.column
    let c ← ahead 0
    if isShallow indent m && c == '\t' then fail .tabInIndentation
    else if isBreakChar c then
      let b ← readLine
      blockBreaks indent fuel deepest (breaks ++ b)
    else return (indent.getD (detectedIndent (← get) deepest), breaks)

/-- The lines of a block scalar. `leadingBlank` tells whether the line before started with a
blank. -/
def blockLines (literal : Bool) (indent : Nat) :
    (fuel : Nat) → (leadingBlank : Bool) → (leading trailing text : List Char) →
      Scan (List Char × List Char × List Char)
  | 0, _, leading, trailing, text => return (text, leading, trailing)
  | fuel + 1, leadingBlank, leading, trailing, text => do
    let c ← ahead 0
    if (← mark).column != indent || c == endChar then return (text, leading, trailing)
    else
      let blank := isBlankChar c
      let folded := !literal && !leadingBlank && !blank && leading == ['\n']
      let joint := if folded then if trailing.isEmpty then [' '] else [] else leading
      let line ← takeWhile fun c => !endsLine c
      need 2
      let leading ← readLine
      let (_, breaks) ← blockBreaks (some indent) (← limit) 0 []
      blockLines literal indent fuel blank leading breaks (text ++ joint ++ trailing ++ line)

inductive Chomping where
  | strip
  | clip
  | keep
  deriving DecidableEq

def chomping? : Char → Option Chomping
  | '+' => some .keep
  | '-' => some .strip
  | _ => none

def indentationIndicator : Scan (Option Nat) := do
  need 1
  let c ← ahead 0
  if c == '0' then fail .zeroIndentation
  else if c.isDigit then
    skip 1
    return some (c.toNat - 48)
  else return none

def chompingIndicator : Scan (Option Chomping) := do
  need 1
  match chomping? (← ahead 0) with
  | some h =>
    skip 1
    return some h
  | none => return none

def blockScalar (literal : Bool) : Scan Unit := do
  let start ← mark
  skip 1
  let first ← chompingIndicator
  let increment ← indentationIndicator
  let second ← if first.isNone && increment.isSome then chompingIndicator else pure none
  let chomping := (first.or second).getD .clip
  finishLine
  let s ← get
  let given := increment.map fun i => (max s.indent 0).toNat + i
  let (indent, breaks) ← blockBreaks given s.limit 0 []
  let (text, leading, trailing) ← blockLines literal indent s.limit false [] breaks []
  let ending :=
    match chomping with
    | .strip => []
    | .clip => leading
    | .keep => leading ++ trailing
  append (.scalar (textOf (text ++ ending)) false) start

/-! ## Quoted scalars -/

def simpleEscape? (c : Char) : Option Char :=
  [('0', '\x00'), ('a', '\x07'), ('b', '\x08'), ('t', '\t'), ('\t', '\t'), ('n', '\n'),
    ('v', '\x0b'), ('f', '\x0c'), ('r', '\r'), ('e', '\x1b'), (' ', ' '), ('"', '"'),
    ('\'', '\''), ('\\', '\\'), ('N', '\u0085'), ('_', '\u00a0'), ('L', '\u2028'),
    ('P', '\u2029')].lookup c

def escapeDigits? : Char → Option Nat
  | 'x' => some 2
  | 'u' => some 4
  | 'U' => some 8
  | _ => none

def hexNumber? (cs : List Char) : Option Nat :=
  cs.foldl (fun n c => do some (16 * (← n) + (← hexValue? c))) (some 0)

def numericEscape (digits : Nat) : Scan Char := do
  need digits
  match hexNumber? (← (List.range digits).mapM ahead) with
  | none => fail .missingHexDigit
  | some n =>
    if (0xD800 ≤ n && n ≤ 0xDFFF) || 0x10FFFF < n then fail .invalidEscapeCode
    else
      skip digits
      return Char.ofNat n

def escape : Scan Char := do
  let c ← ahead 1
  match simpleEscape? c, escapeDigits? c with
  | some d, _ =>
    skip 2
    return d
  | none, some digits =>
    skip 2
    numericEscape digits
  | none, none => fail .unknownEscape

/-- Characters of a quoted scalar up to a blank, a line break or the closing quote, in reverse. The
second part of the answer tells whether an escaped line break ended them. -/
def quotedWord (single : Bool) : (fuel : Nat) → (word : List Char) → Scan (List Char × Bool)
  | 0, word => return (word, false)
  | fuel + 1, word => do
    let c ← ahead 0
    let next ← ahead 1
    if endsWord c then return (word, false)
    else if single && c == '\'' && next == '\'' then
      skip 2
      need 2
      quotedWord single fuel ('\'' :: word)
    else if c == (if single then '\'' else '"') then return (word, false)
    else if !single && c == '\\' && isBreakChar next then
      need 3
      skip 1
      skipLine
      return (word, true)
    else if !single && c == '\\' then
      let e ← escape
      need 2
      quotedWord single fuel (e :: word)
    else
      skip 1
      need 2
      quotedWord single fuel (c :: word)

/-- Goes past blanks and line breaks. In a plain scalar, no tab may stand before column `indent` on
a new line. -/
def blanksAndBreaks (indent : Option Int) : (fuel : Nat) → Folding → Scan Folding
  | 0, f => return f
  | fuel + 1, f => do
    need 1
    let c ← ahead 0
    if isBlankChar c then
      let column : Int := (← mark).column
      let early := (indent.map fun i => decide (column < i)).getD false
      if f.broken && early && c == '\t' then fail .tabBeforeIndentation
      else
        skip 1
        blanksAndBreaks indent fuel (if f.broken then f else { f with blanks := f.blanks ++ [c] })
    else if isBreakChar c then
      let b ← readLine
      blanksAndBreaks indent fuel
        (if f.broken then { f with trailing := f.trailing ++ b }
        else { f with broken := true, leading := b, blanks := [] })
    else return f

def quotedFrom (single : Bool) : (fuel : Nat) → List Char → Scan (List Char)
  | 0, text => return text
  | fuel + 1, text => do
    need 4
    if ← atIndicator then fail .documentIndicator
    if (← ahead 0) == endChar then fail .endOfStream
    let (word, broken) ← quotedWord single (← limit) []
    let text := text ++ word.reverse
    need 1
    if (← ahead 0) == (if single then '\'' else '"') then return text
    else
      let f ← blanksAndBreaks none (← limit) { broken }
      quotedFrom single fuel (text ++ f.joined)

def quotedScalar (single : Bool) : Scan Unit := do
  let start ← mark
  skip 1
  let text ← quotedFrom single (← limit) []
  skip 1
  append (.scalar (textOf text) false) start

/-! ## Plain scalars -/

def plainWord (flow : Bool) : (fuel : Nat) → (word : List Char) → Scan (List Char)
  | 0, word => return word
  | fuel + 1, word => do
    let c ← ahead 0
    let next ← ahead 1
    if endsWord c || (c == ':' && endsWord next) ||
        (flow && ",?[]\x7b\x7d".toList.contains c) then return word
    else
      skip 1
      need 2
      plainWord flow fuel (c :: word)

/-- The rest of a plain scalar. The second part of the answer tells whether line breaks stand
between the scalar and what follows. -/
def plainFrom (flow : Bool) (indent : Int) :
    (fuel : Nat) → List Char → Folding → Scan (List Char × Bool)
  | 0, text, f => return (text, f.broken)
  | fuel + 1, text, f => do
    need 4
    if (← atIndicator) || (← ahead 0) == '#' then return (text, f.broken)
    else
      let word ← plainWord flow (← limit) []
      let (text, f) :=
        if word.isEmpty then (text, f) else (text ++ f.joined ++ word.reverse, {})
      let c ← ahead 0
      if isBlankChar c || isBreakChar c then
        let f ← blanksAndBreaks (some indent) (← limit) f
        if !flow && ((← mark).column : Int) < indent then return (text, f.broken)
        else plainFrom flow indent fuel text f
      else return (text, f.broken)

def plainScalar : Scan Unit := do
  let s ← get
  let (text, broken) ← plainFrom (0 < flowLevel s) (s.indent + 1) s.limit [] {}
  append (.scalar (textOf text) true) s.mark
  if broken then allowKey true

/-! ## Tokens -/

def endStream : Scan Unit := do
  modify fun s =>
    let m := s.mark
    if m.column = 0 then s else { s with mark := { m with column := 0, line := m.line + 1 } }
  closeBlocks (-1)
  removeKey
  allowKey false
  append .streamEnd (← mark)

def indicator (kind : TokenKind) (n : Nat) : Scan Unit := do
  let start ← mark
  skip n
  append kind start

def documentIndicator (kind : TokenKind) : Scan Unit := do
  closeBlocks (-1)
  removeKey
  allowKey false
  indicator kind 3

def openFlow (kind : TokenKind) : Scan Unit := do
  saveKey
  modify fun s => { s with keys := none :: s.keys }
  allowKey true
  indicator kind 1

def closeFlow (kind : TokenKind) : Scan Unit := do
  removeKey
  modify fun s => if 0 < flowLevel s then { s with keys := s.keys.tail } else s
  allowKey false
  indicator kind 1

def flowEntry : Scan Unit := do
  removeKey
  allowKey true
  indicator .flowEntry 1

def blockEntry : Scan Unit := do
  let s ← get
  if flowLevel s == 0 then
    unless s.keyAllowed do fail .entryNotAllowed
    openBlock s.mark.column none .blockSequenceStart s.mark
  removeKey
  allowKey true
  indicator .blockEntry 1

def explicitKey : Scan Unit := do
  let s ← get
  if flowLevel s == 0 then
    unless s.keyAllowed do fail .keyNotAllowed
    openBlock s.mark.column none .blockMappingStart s.mark
  removeKey
  allowKey (flowLevel s == 0)
  indicator .key 1

/-- A colon ends a possible key, whose token is put before it now. -/
def value : Scan Unit := do
  let s ← get
  match s.keys with
  | some k :: ks =>
    let i := k.number - s.taken
    let t : Token := ⟨.key, k.mark⟩
    set { s with queue := s.queue.take i ++ t :: s.queue.drop i, keys := none :: ks }
    openBlock k.mark.column (some k.number) .blockMappingStart k.mark
    allowKey false
  | _ =>
    if flowLevel s == 0 then
      unless s.keyAllowed do fail .valueNotAllowed
      openBlock s.mark.column none .blockMappingStart s.mark
    allowKey (flowLevel s == 0)
  indicator .value 1

def startsPlain (flow : Bool) (c next : Char) : Bool :=
  !(endsWord c || "-?:,[]\x7b\x7d#&*!|>'\"%@`".toList.contains c) ||
    (c == '-' && !isBlankChar next) || (!flow && (c == '?' || c == ':') && !endsWord next)

def fetchNext : Scan Unit := do
  need 1
  unless (← get).started do
    modify fun s => { s with started := true }
    append .streamStart (← mark)
    return
  toNextToken (← limit)
  dropStaleKeys
  closeBlocks (← mark).column
  need 4
  let flow := decide (0 < flowLevel (← get))
  let c ← ahead 0
  let next ← ahead 1
  if c == endChar then endStream
  else if (← mark).column == 0 && c == '%' then
    closeBlocks (-1)
    removeKey
    allowKey false
    directive
  else if ← atIndicator then
    documentIndicator (if c == '-' then .documentStart else .documentEnd)
  else if c == '[' then openFlow .flowSequenceStart
  else if c == '\x7b' then openFlow .flowMappingStart
  else if c == ']' then closeFlow .flowSequenceEnd
  else if c == '\x7d' then closeFlow .flowMappingEnd
  else if c == ',' then flowEntry
  else if c == '-' && endsWord next then blockEntry
  else if c == '?' && (flow || endsWord next) then explicitKey
  else if c == ':' && (flow || endsWord next) then value
  else if c == '*' then
    saveKey
    allowKey false
    anchorOrAlias .alias
  else if c == '&' then
    saveKey
    allowKey false
    anchorOrAlias .anchor
  else if c == '!' then
    saveKey
    allowKey false
    tag
  else if (c == '|' || c == '>') && !flow then
    removeKey
    allowKey true
    blockScalar (c == '|')
  else if c == '\'' || c == '"' then
    saveKey
    allowKey false
    quotedScalar (c == '\'')
  else if startsPlain flow c next then
    saveKey
    allowKey false
    plainScalar
  else fail .noToken

/-- Cuts off tokens until the first in the queue can no longer be a key without its mark. -/
def fetchMore : (fuel : Nat) → Scan Unit
  | 0 => throw (.problem .tooManyTokens 0)
  | fuel + 1 => do
    if (← get).queue.isEmpty then
      fetchNext
      fetchMore fuel
    else
      dropStaleKeys
      let s ← get
      if s.keys.any fun k => (k.map fun k => k.number == s.taken).getD false then
        fetchNext
        fetchMore fuel

def peek : Scan Token := do
  fetchMore ((← limit) + 8)
  match (← get).queue with
  | t :: _ => return t
  | [] => throw (.problem .tooManyTokens 0)

def take : Scan Unit :=
  modify fun s => { s with queue := s.queue.tail, taken := s.taken + 1 }

end Scan

end PoolProse.Yaml
