import PoolProse.Text.CodePoint
import PoolProse.Token

/-!
# Scanning

A text is cut into lexemes from the left. Ten matchers are tried in order and the first that
applies decides the next lexeme. Continued lines and comments are lexemes without a token.
-/
namespace PoolProse

namespace Token

/-- What a matcher may know of the text already read. -/
structure Context where
  /-- No token stands before on this line. -/
  lineStart : Bool
  /-- The last byte read is a blank. -/
  afterBlank : Bool
  deriving DecidableEq, Repr

/-- A stretch of text that is read as one. Without a kind it leaves no token. -/
structure Lexeme where
  kind : Option Kind
  length : Nat
  deriving DecidableEq, Repr

abbrev Matcher := Context → Text → Option Lexeme

open Text (isBlank isDigit blanks atLineEnd)

/-! ## Parts of lexemes -/

def commentMark : Text := [Ascii.dash, Ascii.dash]

def operatorAt : Text → Option (Kind × Nat)
  | [] => none
  | a :: t =>
    if a == Ascii.bar then some (.pipe, 1)
    else if a == Ascii.colon then
      match t with
      | [] => none
      | b :: _ =>
        if b == Ascii.colon then some (.binding .define, 2)
        else if b == Ascii.bang then some (.binding .defineEval, 2)
        else none
    else if a == Ascii.less then
      match t with
      | [] => none
      | b :: _ =>
        if b == Ascii.dash then some (.binding .select, 2)
        else if b == Ascii.bang then some (.binding .selectEval, 2)
        else none
    else none

def bracketKind (b : UInt8) : Option Kind :=
  if b == Ascii.parenOpen then some (.opening .paren)
  else if b == Ascii.parenClose then some (.closing .paren)
  else if b == Ascii.braceOpen then some (.opening .brace)
  else if b == Ascii.braceClose then some (.closing .brace)
  else none

def endsName : Text → Bool
  | [] => true
  | b :: t =>
    b == Ascii.nul || b == Ascii.newline || b == Ascii.backslash || (bracketKind b).isSome ||
      (operatorAt (b :: t)).isSome

/-- Whether a name is over here: what follows, blanks set aside, cannot belong to it. -/
def nameOver (t : Text) : Bool :=
  endsName (t.dropWhile isBlank) ||
    (0 < blanks t && commentMark.isPrefixOf (t.dropWhile isBlank))

def nameTail : Text → Nat
  | [] => 0
  | b :: t => if nameOver (b :: t) then 0 else nameTail t + 1

def ruleOf (mark : UInt8) (kind : Kind) (t : Text) : Option Lexeme :=
  let marks := (t.takeWhile (· == mark)).length
  let length := marks + blanks (t.drop marks)
  if 3 ≤ marks && atLineEnd (t.drop length) then some ⟨some kind, length⟩ else none

/-! ## The matchers -/

/-- A backslash before the end of a line joins it with the next one. -/
def continuation : Matcher := fun _ t =>
  if [Ascii.backslash, Ascii.newline].isPrefixOf t then some ⟨none, 2⟩
  else if [Ascii.backslash, Ascii.carriageReturn, Ascii.newline].isPrefixOf t then some ⟨none, 3⟩
  else none

def rule : Matcher := fun c t =>
  if c.lineStart then
    (ruleOf Ascii.dash .rule t).or (ruleOf Ascii.equals .doubleRule t)
  else none

/-- A comment follows a blank or starts the line. It ends before the newline. -/
def comment : Matcher := fun c t =>
  if (0 < blanks t || c.lineStart || c.afterBlank) && commentMark.isPrefixOf (t.drop (blanks t))
  then some ⟨none, (t.takeWhile (· != Ascii.newline)).length⟩
  else none

/-- An operator takes the blanks on both of its sides. -/
def operator : Matcher := fun _ t =>
  match operatorAt (t.drop (blanks t)) with
  | none => none
  | some (kind, n) =>
    some ⟨some kind, blanks t + n + blanks (t.drop (blanks t + n))⟩

def newline : Matcher := fun _ t =>
  match t with
  | [] => none
  | b :: _ => if b == Ascii.newline then some ⟨some .newline, 1⟩ else none

def bracket : Matcher := fun _ t =>
  match t with
  | [] => none
  | b :: _ => (bracketKind b).map fun kind => ⟨some kind, 1⟩

def escape : Matcher := fun _ t =>
  match t with
  | [] => none
  | b :: rest =>
    if b == Ascii.backslash then
      some ⟨some .escape, 1 + ((CodePoint.first? rest).map CodePoint.size).getD 0⟩
    else none

def white : Matcher := fun _ t =>
  if 0 < blanks t then some ⟨some .white, blanks t⟩ else none

def number : Matcher := fun _ t =>
  let n := (t.takeWhile isDigit).length
  if 0 < n then some ⟨some .number, n⟩ else none

def name : Matcher := fun _ t =>
  match t with
  | [] => none
  | _ :: rest => some ⟨some .name, 1 + nameTail rest⟩

def matchers : List Matcher :=
  [continuation, rule, comment, operator, newline, bracket, escape, white, number, name]

def lexeme (c : Context) (t : Text) : Option Lexeme :=
  matchers.findSome? fun m => m c t

/-! ## Every matcher takes at least one byte -/

theorem operatorAt_pos {t : Text} {k : Kind} {n : Nat} (h : operatorAt t = some (k, n)) :
    0 < n := by
  unfold operatorAt at h
  repeat' split at h
  all_goals simp_all
  all_goals omega

theorem comment_pos {c : Context} {t : Text} {l : Lexeme} (h : comment c t = some l) :
    0 < l.length := by
  unfold comment at h
  split at h
  case isTrue hc =>
    obtain rfl := Option.some.inj h
    simp only [Bool.and_eq_true] at hc
    cases t with
    | nil => simp [commentMark] at hc
    | cons b t =>
      have hb : b ≠ Ascii.newline := by
        rintro rfl
        have hn : isBlank Ascii.newline = false := rfl
        have hz : blanks (Ascii.newline :: t) = 0 := by
          simp [blanks, hn]
        have hd : Ascii.dash ≠ Ascii.newline := by decide
        simp [hz, commentMark, hd] at hc
      simp [hb]
  case isFalse => simp at h

theorem ruleOf_pos {m : UInt8} {k : Kind} {t : Text} {l : Lexeme} (h : ruleOf m k t = some l) :
    0 < l.length := by
  unfold ruleOf at h
  simp only [Bool.and_eq_true, decide_eq_true_eq] at h
  split at h
  case isTrue hc =>
    obtain rfl := Option.some.inj h
    have := hc.1
    simp only
    omega
  case isFalse => simp at h

theorem matcher_pos {m : Matcher} (hm : m ∈ matchers) {c : Context} {t : Text} {l : Lexeme}
    (hl : m c t = some l) : 0 < l.length := by
  simp only [matchers, List.mem_cons, List.not_mem_nil, or_false] at hm
  rcases hm with rfl | rfl | rfl | rfl | rfl | rfl | rfl | rfl | rfl | rfl
  · simp only [continuation] at hl
    split at hl
    · obtain rfl := Option.some.inj hl
      decide
    · split at hl
      · obtain rfl := Option.some.inj hl
        decide
      · simp at hl
  · simp only [rule] at hl
    split at hl
    · rcases Option.or_eq_some_iff.1 hl with hl | hl
      · exact ruleOf_pos hl
      · exact ruleOf_pos hl.2
    · simp at hl
  · exact comment_pos hl
  · simp only [operator] at hl
    split at hl
    · simp at hl
    case h_2 k n hk =>
      obtain rfl := Option.some.inj hl
      have := operatorAt_pos hk
      simp only
      omega
  · cases t with
    | nil => simp [newline] at hl
    | cons b t =>
      simp only [newline] at hl
      split at hl
      · obtain rfl := Option.some.inj hl
        decide
      · simp at hl
  · cases t with
    | nil => simp [bracket] at hl
    | cons b t =>
      simp only [bracket] at hl
      obtain ⟨k, -, rfl⟩ := Option.map_eq_some_iff.1 hl
      exact Nat.one_pos
  · cases t with
    | nil => simp [escape] at hl
    | cons b t =>
      simp only [escape] at hl
      split at hl
      · obtain rfl := Option.some.inj hl
        simp only
        omega
      · simp at hl
  · simp only [white] at hl
    split at hl
    case isTrue hb =>
      obtain rfl := Option.some.inj hl
      exact hb
    case isFalse => simp at hl
  · simp only [number] at hl
    split at hl
    case isTrue hb =>
      obtain rfl := Option.some.inj hl
      exact hb
    case isFalse => simp at hl
  · cases t with
    | nil => simp [name] at hl
    | cons b t =>
      simp only [name] at hl
      obtain rfl := Option.some.inj hl
      simp only
      omega

theorem lexeme_pos {c : Context} {t : Text} {l : Lexeme} (h : lexeme c t = some l) :
    0 < l.length := by
  obtain ⟨m, hm, hl⟩ := List.exists_of_findSome?_eq_some h
  exact matcher_pos hm hl

/-! ## From a text to its tokens -/

def Context.after (c : Context) (l : Lexeme) (read : Text) : Context where
  lineStart :=
    match l.kind with
    | none => c.lineStart
    | some k => k == .newline
  afterBlank := (read.getLast?.map isBlank).getD c.afterBlank

def Lexeme.token (l : Lexeme) (read : Text) (offset : Nat) : List Token :=
  match l.kind with
  | none => []
  | some k => [⟨k, read, offset⟩]

/-- The tokens of the unread text `t`, whose first byte is at `offset`. -/
def scanFrom (c : Context) (offset : Nat) (t : Text) : List Token :=
  match t with
  | [] => [⟨.eof, [], offset⟩]
  | b :: rest =>
    match h : lexeme c (b :: rest) with
    | none => [⟨.eof, [], offset⟩]
    | some l =>
      have : rest.length + 1 - l.length < rest.length + 1 := by
        have := lexeme_pos h
        omega
      let read := (b :: rest).take l.length
      l.token read offset ++
        scanFrom (c.after l read) (offset + l.length) ((b :: rest).drop l.length)
termination_by t.length
decreasing_by simpa only [List.length_drop, List.length_cons] using this

end Token

def tokenize (t : Text) : List Token :=
  Token.scanFrom ⟨true, false⟩ 0 t

end PoolProse
