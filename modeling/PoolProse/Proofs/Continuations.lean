import PoolProse.Proofs.Lossless
import PoolProse.Proofs.Outlook

/-!
# Continued lines between tokens

A line may be continued wherever one token ends and the next one starts. The scanner then finds the
same tokens: the one before the break ends there because a backslash ends every token but a rule,
and the one after it is not tried as a comment again.
-/
namespace PoolProse

namespace Token

/-! ## The token after the break -/

section

variable {c d : Context} {read rest : Text} {k : Kind}

/-- Where a token starts no comment does, so a blank before it makes no difference. -/
theorem lexeme_of_lineStart {n : Nat} {t : Text} (hl : lexeme c t = some ⟨some k, n⟩)
    (hstart : d.lineStart = c.lineStart) (hblank : d.afterBlank = true → c.afterBlank = true) :
    lexeme d t = some ⟨some k, n⟩ := by
  have hrule : rule d t = rule c t := by
    rw [rule, rule, hstart]
  rw [lexeme_eq_or] at hl ⊢
  rw [hrule]
  rcases Option.or_eq_some_iff.1 hl with hl | ⟨hcontinuation, hl⟩
  · rw [show continuation d t = _ from hl]
    rfl
  rw [show continuation d t = none from hcontinuation]
  rcases Option.or_eq_some_iff.1 hl with hl | ⟨hnone, hl⟩
  · rw [hl]
    rfl
  rcases Option.or_eq_some_iff.1 hl with hl | ⟨hcomment, hl⟩
  · unfold comment at hl
    split at hl
    all_goals cases hl
  have hcomment' : comment d t = none := by
    rw [comment_eq_none_iff, hstart]
    exact fun h => comment_eq_none_iff.1 hcomment (h.imp_right (Or.imp_right hblank))
  rw [hnone, hcomment']
  exact hl

theorem scanFrom_of_lineStart (hl : lexeme c (read ++ rest) = some ⟨some k, read.length⟩)
    (hstart : d.lineStart = c.lineStart) (hblank : d.afterBlank = true → c.afterBlank = true)
    (p : Nat) : scanFrom d p (read ++ rest) = scanFrom c p (read ++ rest) := by
  have hread : read ≠ [] := List.length_pos_iff.1 (lexeme_pos hl)
  have hafter : d.after ⟨some k, read.length⟩ read = c.after ⟨some k, read.length⟩ read := by
    obtain ⟨x, b, rfl⟩ := List.eq_nil_or_concat read |>.resolve_left hread
    simp [Context.after]
  rw [scanFrom_append hl, scanFrom_append (lexeme_of_lineStart hl hstart hblank), hafter]

theorem scanFrom_continued {line : Text} (hline : IsContinuation line)
    (hl : lexeme c (read ++ rest) = some ⟨some k, read.length⟩) (p : Nat) :
    scanFrom c p (line ++ (read ++ rest)) = scanFrom c (p + line.length) (read ++ rest) := by
  have hblank : (c.after ⟨none, line.length⟩ line).afterBlank = false := by
    rcases hline with rfl | rfl <;> rfl
  rw [scanFrom_append (lexeme_continuation hline), Lexeme.token, List.nil_append]
  refine scanFrom_of_lineStart hl (d := c.after ⟨none, line.length⟩ line) rfl ?_ _
  rw [hblank]
  exact nofun

end

/-! ## The token before the break -/

section

variable {c c' : Context} {p : Nat} {x r line : Text} {ts : List Token}

theorem Passes.continued (hline : IsContinuation line) (h : Passes c p x ts c' r) (hr : r ≠ [])
    (hplace : x = [] ∨ ∃ u ∈ ts.getLast?, u.stop = (p + x.length : Nat) ∧ u.kind ≠ .rule ∧
      u.kind ≠ .doubleRule) : Passes c p x ts c' (line ++ r) := by
  obtain ⟨y, hy⟩ := hline.exists_backslash r
  rw [hy]
  cases h with
  | nil => exact .nil
  | @snoc x read _ ts c' k h hl =>
      have hread : 0 < read.length := lexeme_pos hl
      have hne : x ++ read ≠ [] :=
        List.append_ne_nil_of_right_ne_nil x (List.length_pos_iff.1 hread)
      obtain ⟨u, hu, hstop, hrule, hdouble⟩ := hplace.resolve_left hne
      cases k with
      | none =>
          -- A comment or a continued line would part the last token from the place.
          have hmem : u ∈ ts := by
            rw [Lexeme.token, List.append_nil] at hu
            exact List.mem_of_mem_getLast? hu
          have hle := h.stop_le u hmem
          rw [List.length_append] at hstop
          omega
      | some k =>
          rw [Lexeme.token, List.getLast?_concat] at hu
          obtain rfl := Option.some.inj hu
          rcases kind_of_lexeme hl with hk | hk | rfl
          · exact .snoc (h.alike (alike_backslash hl (Or.inl hk) hr y))
              ((replaces_backslash r y).lexeme_eq hl hk hr fun _ _ => rfl)
          · exact absurd hk (by simp [hrule, hdouble])
          · obtain rfl := eq_newline_of_lexeme hl
            exact .snoc (h.alike (alike_backslash hl (Or.inr rfl) hr y)) (lexeme_newline _ _)

end

end Token

/-- A continued line put in before a token, where no comment or other continued line stands before
it and the token before is no rule, moves the tokens from there on and changes nothing else. -/
theorem tokenize_insert_continuation {text line : Text} {ts vs : List Token} {v : Token}
    (hline : Token.IsContinuation line) (htokens : tokenize text = ts ++ v :: vs)
    (hv : v.kind ≠ .eof)
    (hplace : v.offset = 0 ∨ ∃ u ∈ ts.getLast?, u.stop = v.offset ∧ u.kind ≠ .rule ∧
      u.kind ≠ .doubleRule) :
    tokenize (text.insertAt line v.offset) =
      ts ++ (v :: vs).map (Token.shift line.length) := by
  obtain ⟨x, read, rest, c, rfl, hpass, hl, hoffset⟩ := Token.exists_passes htokens hv
  have hne : read ++ rest ≠ [] :=
    List.append_ne_nil_of_left_ne_nil (List.length_pos_iff.1 (Token.lexeme_pos hl)) rest
  rw [Nat.zero_add] at hoffset
  have hplace' : x = [] ∨ ∃ u ∈ ts.getLast?, u.stop = (0 + x.length : Nat) ∧ u.kind ≠ .rule ∧
      u.kind ≠ .doubleRule := by
    rw [hoffset] at hplace
    simpa using hplace
  have hpass' := hpass.continued hline hne hplace'
  have hscan : Token.scanFrom c x.length (read ++ rest) = v :: vs := by
    have hsame := hpass.scanFrom_eq
    rw [show Token.scanFrom _ _ _ = _ from htokens, Nat.zero_add] at hsame
    exact (List.append_cancel_left hsame).symm
  calc
    tokenize ((x ++ (read ++ rest)).insertAt line v.offset) =
        tokenize (x ++ (line ++ (read ++ rest))) := by
      rw [hoffset, Text.insertAt_append]
    _ = ts ++ Token.scanFrom c x.length (line ++ (read ++ rest)) := by
      rw [tokenize, hpass'.scanFrom_eq, Nat.zero_add]
    _ = ts ++ Token.scanFrom c (x.length + line.length) (read ++ rest) := by
      rw [Token.scanFrom_continued hline hl]
    _ = ts ++ (v :: vs).map (Token.shift line.length) := by
      rw [Token.scanFrom_shift, hscan]

/-- The line `(a) b` continued before its blank. -/
theorem tokenize_insert_continuation_reference :
    tokenize (utf8 "(a)\\\r\n b") =
      [⟨.opening .paren, utf8 "(", 0⟩, ⟨.name, utf8 "a", 1⟩, ⟨.closing .paren, utf8 ")", 2⟩,
        ⟨.white, utf8 " ", 6⟩, ⟨.name, utf8 "b", 7⟩, ⟨.eof, [], 8⟩] := by
  have hline : Token.IsContinuation (utf8 "\\\r\n") := Or.inr rfl
  have htokens : tokenize (utf8 "(a) b") =
      [⟨.opening .paren, utf8 "(", 0⟩, ⟨.name, utf8 "a", 1⟩, ⟨.closing .paren, utf8 ")", 2⟩] ++
        ⟨.white, utf8 " ", 3⟩ :: [⟨.name, utf8 "b", 4⟩, ⟨.eof, [], 5⟩] := by
    decide +kernel
  exact tokenize_insert_continuation hline htokens nofun (Or.inr ⟨_, rfl, rfl, nofun, nofun⟩)

end PoolProse
