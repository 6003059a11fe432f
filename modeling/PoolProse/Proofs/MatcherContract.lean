import PoolProse.Proofs.CursorLoops
import PoolProse.Proofs.RelatedLists

/-!
# What the scanner may rely on

Every matcher of the scanner keeps a contract: if it does not apply, the scanner is as it was, and
if it does, the cursor has come further and at most one token was left. The reason is that each of
them does with the cursor what the matcher of the same rank says of the unread text. So scanning
with a cursor ends on every text, and finds its tokens.
-/
namespace PoolProse

namespace Scanner

open Cursor (Reads)
open Token (Kind Lexeme Context)
open Text (blanks)

/-! ## Each matcher does what is said of the unread text -/

def context (s : Scanner) : Context := ⟨s.lineStart, Cursor.isBlank s.cursor.last⟩

def after (s : Scanner) (kind : Option Kind) (read : Text) (d : Cursor) : Scanner where
  cursor := d
  tokens := s.tokens ++ Lexeme.token ⟨kind, read.length⟩ read s.cursor.pos
  lineStart := (s.context.after ⟨kind, read.length⟩ read).lineStart

/-- The answer of a matcher where `found` is the lexeme that it should find. -/
inductive Answers (s : Scanner) (found : Option Lexeme) : Option (Bool × Scanner) → Prop where
  | missed (h : found = none) : Answers s found (some (false, s))
  | found {kind : Option Kind} {read : Text} {d : Cursor} (h : found = some ⟨kind, read.length⟩)
      (hreads : s.cursor.Reads read d) : Answers s found (some (true, s.after kind read d))

/-- The matcher `m` of the scanner does what `p` says of the unread text. -/
def Agrees (m : Matcher) (p : Token.Matcher) : Prop :=
  ∀ s : Scanner, s.cursor.atEnd = false → s.Answers (p s.context s.cursor.rest) (m s)

variable {s : Scanner} {found : Option Lexeme} {read : Text} {c d : Cursor}

theorem answers_back (h : found = none) (hreads : s.cursor.Reads read d) :
    s.Answers found (s.back d) := by
  rw [back, hreads.reset]
  exact .missed h

theorem answers_pass (h : found = some ⟨none, read.length⟩) (hreads : s.cursor.Reads read d) :
    s.Answers found (s.pass d) := by
  have hafter : s.after none read d = { s with cursor := d } := by
    simp [after, Lexeme.token, Context.after, context]
  rw [pass, ← hafter]
  exact .found h hreads

theorem answers_emit {kind : Kind} (h : found = some ⟨some kind, read.length⟩)
    (hreads : s.cursor.Reads read d) : s.Answers found (s.emit kind d) := by
  rw [emit, hreads.since?]
  exact .found h hreads

theorem Answers.exists_after {l : Lexeme} {r : Option (Bool × Scanner)} (h : s.Answers (some l) r) :
    ∃ kind read d, l = ⟨kind, read.length⟩ ∧ s.cursor.Reads read d ∧
      r = some (true, s.after kind read d) := by
  cases h with
  | missed h => cases h
  | found h hreads => exact ⟨_, _, _, Option.some.inj h, hreads, rfl⟩

theorem exists_cons (h : s.cursor.atEnd = false) : ∃ a t, s.cursor.rest = a :: t := by
  rw [← Bool.not_eq_true, Cursor.atEnd_iff] at h
  exact List.exists_cons_of_ne_nil h

theorem continuation_agrees : Agrees continuation Token.continuation := by
  intro s hs
  obtain ⟨a, t, hrest⟩ := exists_cons hs
  rw [continuation, Cursor.sees_cons hrest (by decide), hrest]
  by_cases ha : a = Ascii.backslash
  case neg =>
    rw [if_neg (by simpa using ha)]
    exact .missed (Token.continuation_of_head (by simpa using ha))
  subst ha
  simp only [Cursor.sees_succ hrest (by decide), BEq.rfl, if_true]
  cases t with
  | nil => exact .missed rfl
  | cons b t =>
      simp (disch := decide) only [Cursor.codeAhead_beq]
      by_cases hnewline : b = Ascii.newline
      · subst hnewline
        exact answers_pass rfl (Reads.skip [Ascii.backslash, Ascii.newline] hrest rfl)
      by_cases hreturn : b = Ascii.carriageReturn
      case neg =>
        simp only [beq_eq_false_iff_ne.2 hnewline, beq_eq_false_iff_ne.2 hreturn, Bool.false_and]
        exact .missed (by simp [Token.continuation, Ne.symm hnewline, Ne.symm hreturn])
      subst hreturn
      cases t with
      | nil => exact .missed rfl
      | cons b t =>
          simp (disch := decide) only [Cursor.codeAhead_succ, Cursor.codeAhead_beq]
          by_cases hb : b = Ascii.newline
          · subst hb
            exact answers_pass rfl (Reads.skip
              [Ascii.backslash, Ascii.carriageReturn, Ascii.newline] hrest rfl)
          · simp only [beq_eq_false_iff_ne.2 hb, Bool.and_false]
            exact .missed (by simp [Token.continuation, Ne.symm hnewline, Ne.symm hb])

theorem ruleOf_agrees {mark : UInt8} (hascii : mark < 0x80) (hnul : mark ≠ Ascii.nul)
    (kind : Kind) : Agrees (ruleOf mark kind) (fun _ => Token.ruleOf mark kind) := by
  intro s _
  obtain ⟨c, hmarks, hreads⟩ :=
    Cursor.readWhile_ascii (Cursor.sees_eq hascii hnul) (fun h => eq_of_beq h ▸ hascii) s.cursor
  obtain ⟨d, hskip, hblanks⟩ := c.skipBlanks_reads
  generalize hn : (s.cursor.rest.takeWhile (· == mark)).length = n at hmarks
  have hfound : Token.ruleOf mark kind s.cursor.rest =
      if 3 ≤ n && d.atLineEnd then
        some ⟨some kind, (s.cursor.rest.takeWhile (· == mark) ++
          c.rest.takeWhile Text.isBlank).length⟩
      else none := by
    simp only [Token.ruleOf, ← hreads.rest_drop, List.length_append, Cursor.atLineEnd_eq, ← hn,
      (hreads.trans hblanks).rest_drop]
    rfl
  have hless : decide (n < 3) = !decide (3 ≤ n) := by
    rw [← decide_not, decide_eq_decide, Nat.not_le]
  have hloop : ruleOf mark kind s =
      if 3 ≤ n && d.atLineEnd then s.emit kind d else s.back d := by
    rw [ruleOf, hmarks]
    simp only [Option.bind_eq_bind, Option.bind_some, hskip, hless, ← Bool.not_and]
    cases decide (3 ≤ n) && d.atLineEnd <;> rfl
  change s.Answers (Token.ruleOf mark kind s.cursor.rest) _
  rw [hloop, hfound]
  cases decide (3 ≤ n) && d.atLineEnd with
  | true => exact answers_emit rfl (hreads.trans hblanks)
  | false => exact answers_back rfl (hreads.trans hblanks)

theorem rule_agrees : Agrees rule Token.rule := by
  intro s hs
  obtain ⟨a, t, hrest⟩ := exists_cons hs
  rw [rule, Token.rule, context]
  cases s.lineStart with
  | false => exact .missed rfl
  | true =>
      have hother : ∀ {mark : UInt8} (kind : Kind), a ≠ mark →
          Token.ruleOf mark kind s.cursor.rest = none := by
        intro mark kind ha
        exact Token.ruleOf_of_head kind (by simpa [hrest] using ha)
      rw [if_pos rfl, if_pos rfl, Cursor.ruleMark?, Cursor.sees_cons hrest (by decide),
        Cursor.sees_cons hrest (by decide)]
      by_cases hdash : a = Ascii.dash
      · subst hdash
        rw [hother .doubleRule (by decide), Option.or_none]
        exact ruleOf_agrees (by decide) (by decide) .rule s hs
      rw [hother .rule hdash, Option.none_or]
      by_cases hequals : a = Ascii.equals
      · subst hequals
        exact ruleOf_agrees (by decide) (by decide) .doubleRule s hs
      simp only [beq_eq_false_iff_ne.2 hdash, beq_eq_false_iff_ne.2 hequals]
      exact .missed (hother .doubleRule hequals)

theorem comment_agrees : Agrees comment Token.comment := by
  intro s _
  obtain ⟨c, hskip, hreads⟩ := s.cursor.skipBlanks_reads
  have hrest : c.rest = s.cursor.rest.drop (blanks s.cursor.rest) := hreads.rest_drop
  -- the last code point counts only if no blank was read here
  have hfresh : (0 < blanks s.cursor.rest || s.lineStart || Cursor.isBlank c.last) =
      (0 < blanks s.cursor.rest || s.lineStart || Cursor.isBlank s.cursor.last) := by
    cases hblank : s.cursor.rest.takeWhile Text.isBlank with
    | nil => rw [hreads.isBlank_last, hblank]; rfl
    | cons b u => simp [blanks, hblank]
  have hfound : Token.comment s.context s.cursor.rest =
      if (0 < blanks s.cursor.rest || s.lineStart || Cursor.isBlank c.last) &&
          c.startsWith Token.commentMark then
        some ⟨none, (s.cursor.rest.takeWhile (· != Ascii.newline)).length⟩
      else none := by
    rw [Token.comment, hfresh, ← hrest]
    rfl
  rw [comment, hskip, hfound]
  simp only [Option.bind_eq_bind, Option.bind_some]
  split
  case isTrue =>
    obtain ⟨n, d, hloop, hbody⟩ := c.readWhile_line
    have hline : s.cursor.rest.takeWhile (· != Ascii.newline) =
        s.cursor.rest.takeWhile Text.isBlank ++ c.rest.takeWhile (· != Ascii.newline) := by
      rw [← List.takeWhile_append_of_pos, ← hreads.rest_eq]
      intro b hb
      rw [bne_iff_ne]
      rintro rfl
      cases List.mem_takeWhile_imp hb
    rw [hloop, hline]
    exact answers_pass rfl (hreads.trans hbody)
  case isFalse => exact answers_back rfl hreads

theorem operator_agrees : Agrees operator Token.operator := by
  intro s _
  obtain ⟨c, hskip, hreads⟩ := s.cursor.skipBlanks_reads
  have hrest : c.rest = s.cursor.rest.drop (blanks s.cursor.rest) := hreads.rest_drop
  rw [operator, hskip, Token.operator, ← hrest]
  simp only [Option.bind_eq_bind, Option.bind_some, Cursor.operator?_eq]
  cases hop : Token.operatorAt c.rest with
  | none => exact answers_back rfl hreads
  | some x =>
      obtain ⟨kind, n⟩ := x
      obtain ⟨symbol, u, hcut, rfl, hascii⟩ := Token.operatorAt_ascii hop
      have hsymbol := Reads.skip symbol hcut hascii
      obtain ⟨d, hskip', hblanks⟩ := (c.skip symbol.length).skipBlanks_reads
      have hlength : blanks (s.cursor.rest.drop (blanks s.cursor.rest + symbol.length)) =
          ((c.skip symbol.length).rest.takeWhile Text.isBlank).length := by
        rw [hsymbol.rest_drop, hrest, List.drop_drop]
        rfl
      simp only [hskip', Option.bind_some]
      refine answers_emit ?_ ((hreads.trans hsymbol).trans hblanks)
      rw [hlength, List.length_append, List.length_append]
      rfl

theorem answers_single {kind? : Cursor → Option Kind} {a : UInt8} {t : Text} {k : Option Kind}
    (hrest : s.cursor.rest = a :: t) (hkind : kind? s.cursor = k)
    (hascii : k.isSome = true → a < 0x80) :
    s.Answers (k.map fun kind => ⟨some kind, 1⟩) (single kind? s) := by
  rw [single, hkind]
  cases k with
  | none => exact .missed rfl
  | some kind => exact answers_emit rfl (Reads.skip [a] hrest (by simpa using hascii))

theorem newline_agrees : Agrees newline Token.newline := by
  intro s hs
  obtain ⟨a, t, hrest⟩ := exists_cons hs
  have hkind : s.cursor.newline? = if a == Ascii.newline then some .newline else none := by
    rw [Cursor.newline?, Cursor.sees_cons hrest (by decide)]
  have hfound : Token.newline s.context (a :: t) =
      (if a == Ascii.newline then some Kind.newline else none).map fun kind => ⟨some kind, 1⟩ := by
    rw [Token.newline]
    split <;> rfl
  rw [hrest, hfound]
  refine answers_single hrest hkind fun h => ?_
  have ha : a = Ascii.newline := by simpa using h
  subst ha
  decide

theorem bracket_agrees : Agrees bracket Token.bracket := by
  intro s hs
  obtain ⟨a, t, hrest⟩ := exists_cons hs
  rw [hrest]
  refine answers_single hrest (Cursor.bracket?_cons hrest) fun h => ?_
  obtain ⟨k, hk⟩ := Option.isSome_iff_exists.1 h
  rcases Token.bracketKind_cases hk with ⟨b, -, rfl⟩ | ⟨b, -, rfl⟩
  all_goals cases b <;> decide

theorem escape_agrees : Agrees escape Token.escape := by
  intro s hs
  obtain ⟨a, t, hrest⟩ := exists_cons hs
  rw [escape, Cursor.sees_cons hrest (by decide), hrest]
  by_cases ha : a = Ascii.backslash
  case neg =>
    rw [if_neg (by simpa using ha)]
    exact .missed (by simp [Token.escape, ha])
  subst ha
  have hnext : s.cursor.Reads [Ascii.backslash] s.cursor.next.2 :=
    Reads.skip [Ascii.backslash] hrest rfl
  have hafter : s.cursor.next.2.rest = t := by rw [hnext.rest_drop, hrest]; rfl
  cases t with
  | nil =>
      simp only [BEq.rfl, if_true, (Cursor.atEnd_iff _).2 hafter]
      exact answers_emit rfl hnext
  | cons b t =>
      simp only [BEq.rfl, if_true, if_neg (Cursor.not_atEnd hafter)]
      refine answers_emit ?_ (hnext.trans (Reads.next hafter))
      rw [List.length_append]
      rfl

theorem white_agrees : Agrees white Token.white := by
  intro s _
  obtain ⟨d, hskip, hreads⟩ := s.cursor.skipBlanks_reads
  rw [white, Token.white]
  by_cases hblanks : blanks s.cursor.rest = 0
  · have hnone : Cursor.isBlank s.cursor.peek = false := by
      rw [Cursor.isBlank_peek]
      cases h : s.cursor.rest with
      | nil => rfl
      | cons a t => simpa [h] using Text.blanks_eq_zero_iff.1 hblanks
    rw [Cursor.skipBlanks, Cursor.readWhile_of_false hnone]
    exact .missed (by simp [hblanks])
  · rw [hskip]
    simp only [Option.bind_eq_bind, Option.bind_some, if_neg hblanks]
    exact answers_emit (by rw [if_pos (Nat.pos_of_ne_zero hblanks)]; rfl) hreads

theorem number_agrees : Agrees number Token.number := by
  intro s hs
  obtain ⟨a, t, hrest⟩ := exists_cons hs
  obtain ⟨d, hloop, hreads⟩ :=
    Cursor.readWhile_ascii Cursor.isDigit_peek Cursor.ascii_of_isDigit s.cursor
  have hpeek : Cursor.isDigit s.cursor.peek = Text.isDigit a := by
    rw [Cursor.isDigit_peek, hrest]
    rfl
  rw [number, hpeek]
  cases ha : Text.isDigit a with
  | false => exact .missed (by simp [Token.number, hrest, ha])
  | true =>
      have hpos : 0 < (s.cursor.rest.takeWhile Text.isDigit).length := by
        rw [hrest, List.takeWhile_cons_of_pos ha]
        exact Nat.succ_pos _
      rw [if_pos rfl, hloop]
      exact answers_emit (if_pos hpos) hreads

theorem name_agrees : Agrees name Token.name := by
  intro s hs
  obtain ⟨a, t, hrest⟩ := exists_cons hs
  obtain ⟨d, hloop, hreads⟩ := s.cursor.next.2.nameRest_reads
  obtain ⟨more, hbytes, hhigh⟩ := CodePoint.exists_bytes_ofLead a t
  have hnext := Reads.next hrest
  rw [hbytes] at hnext
  have ht : t = more ++ s.cursor.next.2.rest :=
    (List.cons.inj (hrest.symm.trans hnext.rest_eq)).2
  -- the further bytes of the first code point go on with the name
  have htail : Token.nameTail t = more.length + Token.nameTail s.cursor.next.2.rest := by
    rw [ht]
    apply Token.nameTail_add
    intro x b y hcat
    exact Token.nameOver_high (hhigh b (by simp [hcat])) _
  have hle := Token.nameTail_le_length s.cursor.next.2.rest
  rw [name, hloop]
  refine answers_emit ?_ (hnext.trans hreads)
  rw [hrest, Token.name, htail, List.length_append, List.length_take, List.length_cons,
    Nat.min_eq_left hle, Nat.add_comm more.length 1, Nat.add_assoc]

/-- The matchers agree, one by one and in the order in which they are tried. -/
theorem matchers_agree : List.Forall₂ Agrees matchers Token.matchers :=
  .cons continuation_agrees <| .cons rule_agrees <| .cons comment_agrees <| .cons operator_agrees <|
    .cons newline_agrees <| .cons bracket_agrees <| .cons escape_agrees <| .cons white_agrees <|
    .cons number_agrees <| .cons name_agrees .nil

/-! ## The contract -/

/-- What the scanner asks of a matcher. -/
inductive KeepsContract (s : Scanner) : Option (Bool × Scanner) → Prop where
  | missed : KeepsContract s (some (false, s))
  | found {s' : Scanner} (source : s'.cursor.source = s.cursor.source)
      (further : s.cursor.pos < s'.cursor.pos) (inside : s'.cursor.pos ≤ s.cursor.source.length)
      (tokens : s'.tokens = s.tokens ∨ ∃ t, s'.tokens = s.tokens ++ [t]) :
      KeepsContract s (some (true, s'))

theorem Answers.keepsContract {r : Option (Bool × Scanner)} (h : s.Answers found r)
    (hpos : ∀ l, found = some l → 0 < l.length) : s.KeepsContract r := by
  cases h with
  | missed => exact .missed
  | @found kind read d h hreads =>
      have hread : 0 < read.length := hpos _ h
      have hlength := hreads.length_rest
      rw [Cursor.rest, List.length_drop] at hlength
      refine .found hreads.source_eq ?_ ?_ ?_
      · rw [after, hreads.pos_eq]
        omega
      · rw [after, hreads.pos_eq]
        omega
      · cases kind with
        | none => exact Or.inl (List.append_nil _)
        | some kind => exact Or.inr ⟨_, rfl⟩

/-- Matchers that are tried in turn are one that finds the first lexeme. -/
theorem attempt_agrees {ms : List Matcher} {ps : List Token.Matcher}
    (h : List.Forall₂ Agrees ms ps) :
    Agrees (attempt ms) fun c t => ps.findSome? fun p => p c t := by
  intro s hs
  induction h with
  | nil => exact .missed rfl
  | @cons m p ms ps hm _ ih =>
      have hfirst := hm s hs
      simp only [attempt, List.findSome?_cons]
      generalize m s = r at hfirst
      cases hfirst with
      | missed h =>
          rw [h]
          exact ih
      | found h hreads =>
          rw [h]
          exact .found rfl hreads

theorem context_after {kind : Option Kind} (h : s.cursor.Reads read d) :
    (s.after kind read d).context = s.context.after ⟨kind, read.length⟩ read := by
  rw [context, after, h.isBlank_last]
  rfl

/-- From any state, scanning ends with the tokens of the unread text. -/
theorem run_eq_scanFrom (s : Scanner) :
    s.run = some (s.tokens ++ Token.scanFrom s.context s.cursor.pos s.cursor.rest) := by
  induction hc : s.cursor using Cursor.reading_induction generalizing s with
  | step c ih =>
      subst hc
      rw [run]
      cases hend : s.cursor.atEnd with
      | true => rw [if_pos rfl, (Cursor.atEnd_iff _).1 hend, Token.scanFrom_nil]
      | false =>
          obtain ⟨a, t, hrest⟩ := exists_cons hend
          obtain ⟨l, hl⟩ := Token.exists_lexeme s.context a t
          rw [← hrest] at hl
          have hanswer : s.Answers (Token.lexeme s.context s.cursor.rest) (attempt matchers s) :=
            attempt_agrees matchers_agree s hend
          rw [hl] at hanswer
          obtain ⟨kind, read, d, rfl, hreads, hturn⟩ := hanswer.exists_after
          have hread : read ≠ [] := List.ne_nil_of_length_pos (Token.lexeme_pos hl)
          have hnext := ih hreads hread (s.after kind read d) rfl
          have htokens : s.tokens ++ Token.scanFrom s.context s.cursor.pos s.cursor.rest =
              (s.after kind read d).tokens ++
                Token.scanFrom (s.after kind read d).context d.pos d.rest := by
            rw [hreads.rest_eq] at hl ⊢
            rw [Token.scanFrom_append hl, context_after hreads, hreads.pos_eq, ← List.append_assoc]
            rfl
          rw [if_neg Bool.false_ne_true, hturn, htokens]
          exact (hreads.onward hread _).trans hnext

/-- Whatever a scanner has read before, unless it is at the end: each of the ten matchers ends, and
if it does not apply, the cursor, the last code point, the tokens and the flag are as they were; if
it does, the cursor is further on, not behind the end, and at most one token was left. One of them,
the name, always applies. Each does what the matcher of the same rank says of the unread text. So
the scanner comes to the end of every text, and with the tokens of that text. -/
theorem matchers_keep_contract :
    (∀ s : Scanner, s.cursor.atEnd = false →
      (∀ m ∈ matchers, s.KeepsContract (m s)) ∧ ∃ s', name s = some (true, s')) ∧
    List.Forall₂ Agrees matchers Token.matchers ∧
    ∀ t, (start t).run = some (tokenize t) := by
  refine ⟨fun s hs => ⟨fun m hm => ?_, ?_⟩, matchers_agree, fun t => run_eq_scanFrom (start t)⟩
  · obtain ⟨p, hp, hagrees⟩ := matchers_agree.exists_of_mem hm
    exact (hagrees s hs).keepsContract fun l hl => Token.matcher_pos hp hl
  · obtain ⟨a, t, hrest⟩ := exists_cons hs
    have hanswer := name_agrees s hs
    rw [hrest] at hanswer
    obtain ⟨kind, read, d, -, -, hname⟩ := hanswer.exists_after
    exact ⟨_, hname⟩

/-- A blank, which comments and operators read on trial, before a NUL and a sequence cut short. -/
theorem matchers_keep_contract_nul :
    let t : Text := [Ascii.space, Ascii.nul, 0xE2, 0x82]
    (start t).cursor.atEnd = false ∧ (∀ m ∈ matchers, (start t).KeepsContract (m (start t))) ∧
      (∃ s', name (start t) = some (true, s')) ∧ (start t).run = some (tokenize t) := by
  intro t
  have hs : (start t).cursor.atEnd = false := by decide
  obtain ⟨hkeeps, hname⟩ := matchers_keep_contract.1 (start t) hs
  exact ⟨hs, hkeeps, hname, matchers_keep_contract.2.2 t⟩

end Scanner

end PoolProse
