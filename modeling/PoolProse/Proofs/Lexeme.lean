import PoolProse.Token.Scan

/-!
# What a lexeme can be

`Spelled` lists the lexemes that the ten matchers find: what each is made of, and what may stand
before and after it. Scanning a text is a sequence of such steps, so a property of its tokens is
proved by `scan_induction`, one lexeme at a time.
-/
namespace PoolProse

namespace Text

theorem blanks_le_length (t : Text) : blanks t ≤ t.length :=
  (List.takeWhile_prefix _).length_le

theorem drop_takeWhile_length (p : UInt8 → Bool) (t : Text) :
    t.drop (t.takeWhile p).length = t.dropWhile p := by
  calc
    t.drop (t.takeWhile p).length =
        (t.takeWhile p ++ t.dropWhile p).drop (t.takeWhile p).length := by
      rw [List.takeWhile_append_dropWhile]
    _ = t.dropWhile p := List.drop_left' rfl

theorem atLineEnd_dropWhile (t : Text) :
    atLineEnd (t.dropWhile (· != Ascii.newline)) = true := by
  induction t with
  | nil => rfl
  | cons b t ih =>
      by_cases hb : b = Ascii.newline
      · simp [hb, atLineEnd]
      · simpa [hb] using ih

end Text

namespace CodePoint

theorem ofLead_size_le (a : UInt8) (rest : Text) : (ofLead a rest).size ≤ rest.length + 1 := by
  unfold ofLead
  repeat' split
  all_goals simp [size, stray]

end CodePoint

namespace Token

open Text (isBlank isDigit blanks atLineEnd)

/-! ## The lexemes without a token -/

/-- A backslash and the line end that it hides. -/
def IsContinuation (t : Text) : Prop :=
  t = [Ascii.backslash, Ascii.newline] ∨
    t = [Ascii.backslash, Ascii.carriageReturn, Ascii.newline]

/-- Blanks, the comment mark, and anything up to the end of the line. -/
def IsComment (t : Text) : Prop :=
  ∃ before after : Text, t = before ++ commentMark ++ after ∧
    (∀ b ∈ before, isBlank b = true) ∧ Ascii.newline ∉ after

/-! ## Spelling -/

/-- The kinds of which a line may hold any number. -/
def Kind.isInside : Kind → Bool
  | .name | .number | .white | .binding _ | .pipe | .opening _ | .closing _ | .escape => true
  | .eof | .newline | .rule | .doubleRule | .unknown _ => false

/-- A lexeme of the given kind may be spelled `read` when `rest` follows. -/
inductive Spelled (c : Context) : Option Kind → Text → Text → Prop where
  | continuation {read rest : Text} (h : IsContinuation read) : Spelled c none read rest
  | comment {read rest : Text} (h : IsComment read) (hend : atLineEnd rest = true) :
      Spelled c none read rest
  | rule {k : Kind} {read rest : Text} (hk : k = .rule ∨ k = .doubleRule)
      (hstart : c.lineStart = true) (hend : atLineEnd rest = true) : Spelled c (some k) read rest
  | newline {rest : Text} : Spelled c (some .newline) [Ascii.newline] rest
  | inside {k : Kind} {read rest : Text} (hk : k.isInside = true) : Spelled c (some k) read rest

/-- The lexeme lies at the start of `t` and is spelled as its kind asks. -/
def Lexeme.Fits (c : Context) (t : Text) (l : Lexeme) : Prop :=
  l.length ≤ t.length ∧ Spelled c l.kind (t.take l.length) (t.drop l.length)

theorem continuation_fits {c : Context} {t : Text} {l : Lexeme}
    (h : continuation c t = some l) : l.Fits c t := by
  unfold continuation at h
  split at h
  case isTrue hp =>
    obtain rfl := Option.some.inj h
    obtain ⟨u, rfl⟩ := List.isPrefixOf_iff_prefix.1 hp
    exact ⟨by simp, .continuation (Or.inl (by simp))⟩
  case isFalse =>
    split at h
    case isTrue hp =>
      obtain rfl := Option.some.inj h
      obtain ⟨u, rfl⟩ := List.isPrefixOf_iff_prefix.1 hp
      exact ⟨by simp, .continuation (Or.inr (by simp))⟩
    case isFalse => simp at h

theorem ruleOf_fits {c : Context} {m : UInt8} {k : Kind} {t : Text} {l : Lexeme}
    (hstart : c.lineStart = true) (hk : k = .rule ∨ k = .doubleRule)
    (h : ruleOf m k t = some l) : l.Fits c t := by
  simp only [ruleOf, Bool.and_eq_true, decide_eq_true_eq] at h
  split at h
  case isTrue hc =>
    obtain rfl := Option.some.inj h
    refine ⟨?_, .rule hk hstart hc.2⟩
    have hm : (t.takeWhile (· == m)).length ≤ t.length := (List.takeWhile_prefix _).length_le
    have hb := Text.blanks_le_length (t.drop (t.takeWhile (· == m)).length)
    rw [List.length_drop] at hb
    simp only
    omega
  case isFalse => simp at h

theorem rule_fits {c : Context} {t : Text} {l : Lexeme} (h : rule c t = some l) :
    l.Fits c t := by
  unfold rule at h
  split at h
  case isTrue hstart =>
    rcases Option.or_eq_some_iff.1 h with h | h
    · exact ruleOf_fits hstart (Or.inl rfl) h
    · exact ruleOf_fits hstart (Or.inr rfl) h.2
  case isFalse => simp at h

theorem isComment_takeWhile {t : Text} (h : commentMark <+: t.drop (blanks t)) :
    IsComment (t.takeWhile (· != Ascii.newline)) := by
  obtain ⟨u, hu⟩ := h
  have hblank : ∀ b ∈ t.takeWhile isBlank, isBlank b = true := by
    intro b hb
    exact List.all_eq_true.1 List.all_takeWhile b hb
  have hmark : ∀ b ∈ commentMark, (b != Ascii.newline) = true := by
    intro b hb
    obtain rfl : b = Ascii.dash := by simpa [commentMark] using hb
    rfl
  have hne : ∀ b ∈ t.takeWhile isBlank ++ commentMark, (b != Ascii.newline) = true := by
    intro b hb
    rcases List.mem_append.1 hb with hb | hb
    · have hbb := hblank b hb
      rw [bne_iff_ne]
      rintro rfl
      exact absurd hbb (by decide)
    · exact hmark b hb
  have ht : t = (t.takeWhile isBlank ++ commentMark) ++ u := by
    rw [List.append_assoc, hu, blanks, Text.drop_takeWhile_length,
      List.takeWhile_append_dropWhile]
  refine ⟨t.takeWhile isBlank, u.takeWhile (· != Ascii.newline), ?_, hblank, ?_⟩
  · rw [← List.takeWhile_append_of_pos hne, ← ht]
  · intro hmem
    have hn := List.all_eq_true.1 List.all_takeWhile _ hmem
    simp at hn

theorem comment_fits {c : Context} {t : Text} {l : Lexeme} (h : comment c t = some l) :
    l.Fits c t := by
  unfold comment at h
  split at h
  case isTrue hc =>
    obtain rfl := Option.some.inj h
    have hmark := List.isPrefixOf_iff_prefix.1 (Bool.and_eq_true_iff.1 hc).2
    have hlen : (t.takeWhile (· != Ascii.newline)).length ≤ t.length :=
      (List.takeWhile_prefix _).length_le
    have htake : t.take (t.takeWhile (· != Ascii.newline)).length =
        t.takeWhile (· != Ascii.newline) :=
      (List.prefix_iff_eq_take.1 (List.takeWhile_prefix _)).symm
    refine ⟨hlen, ?_⟩
    rw [htake, Text.drop_takeWhile_length]
    exact .comment (isComment_takeWhile hmark) (Text.atLineEnd_dropWhile t)
  case isFalse => simp at h

theorem operatorAt_inside {t : Text} {k : Kind} {n : Nat} (h : operatorAt t = some (k, n)) :
    k.isInside = true ∧ n ≤ t.length := by
  unfold operatorAt at h
  repeat' split at h
  all_goals simp at h
  all_goals obtain ⟨rfl, rfl⟩ := h
  all_goals simp [Kind.isInside]

theorem operator_fits {c : Context} {t : Text} {l : Lexeme} (h : operator c t = some l) :
    l.Fits c t := by
  unfold operator at h
  split at h
  · simp at h
  case h_2 k n hk =>
    obtain rfl := Option.some.inj h
    obtain ⟨hin, hn⟩ := operatorAt_inside hk
    refine ⟨?_, .inside hin⟩
    have ha := Text.blanks_le_length t
    have hb := Text.blanks_le_length (t.drop (blanks t + n))
    rw [List.length_drop] at hn hb
    simp only
    omega

theorem newline_fits {c : Context} {t : Text} {l : Lexeme} (h : newline c t = some l) :
    l.Fits c t := by
  cases t with
  | nil => simp [newline] at h
  | cons b t =>
      simp only [newline] at h
      split at h
      case isTrue hb =>
        obtain rfl := Option.some.inj h
        obtain rfl := eq_of_beq hb
        exact ⟨by simp, .newline⟩
      case isFalse => simp at h

theorem bracketKind_inside {b : UInt8} {k : Kind} (h : bracketKind b = some k) :
    k.isInside = true := by
  unfold bracketKind at h
  repeat' split at h
  all_goals simp at h
  all_goals subst h
  all_goals rfl

theorem bracket_fits {c : Context} {t : Text} {l : Lexeme} (h : bracket c t = some l) :
    l.Fits c t := by
  cases t with
  | nil => simp [bracket] at h
  | cons b t =>
      obtain ⟨k, hk, rfl⟩ := Option.map_eq_some_iff.1 h
      exact ⟨by simp, .inside (bracketKind_inside hk)⟩

theorem escape_fits {c : Context} {t : Text} {l : Lexeme} (h : escape c t = some l) :
    l.Fits c t := by
  cases t with
  | nil => simp [escape] at h
  | cons b t =>
      simp only [escape] at h
      split at h
      case isTrue =>
        obtain rfl := Option.some.inj h
        refine ⟨?_, .inside rfl⟩
        cases t with
        | nil => simp [CodePoint.first?]
        | cons a t =>
            have hs := CodePoint.ofLead_size_le a t
            simp only [CodePoint.first?, Option.map_some, Option.getD_some, List.length_cons]
            omega
      case isFalse => simp at h

theorem white_fits {c : Context} {t : Text} {l : Lexeme} (h : white c t = some l) :
    l.Fits c t := by
  unfold white at h
  split at h
  case isTrue =>
    obtain rfl := Option.some.inj h
    exact ⟨Text.blanks_le_length t, .inside rfl⟩
  case isFalse => simp at h

theorem number_fits {c : Context} {t : Text} {l : Lexeme} (h : number c t = some l) :
    l.Fits c t := by
  simp only [number] at h
  split at h
  case isTrue =>
    obtain rfl := Option.some.inj h
    exact ⟨(List.takeWhile_prefix _).length_le, .inside rfl⟩
  case isFalse => simp at h

theorem nameTail_le_length (t : Text) : nameTail t ≤ t.length := by
  induction t with
  | nil => exact Nat.le_refl 0
  | cons b t ih =>
      rw [nameTail]
      split
      · exact Nat.zero_le _
      · exact Nat.succ_le_succ ih

theorem name_fits {c : Context} {t : Text} {l : Lexeme} (h : name c t = some l) :
    l.Fits c t := by
  cases t with
  | nil => simp [name] at h
  | cons b t =>
      obtain rfl := Option.some.inj h
      have ht := nameTail_le_length t
      refine ⟨?_, .inside rfl⟩
      simp only [List.length_cons]
      omega

theorem lexeme_fits {c : Context} {t : Text} {l : Lexeme} (h : lexeme c t = some l) :
    l.Fits c t := by
  obtain ⟨m, hm, hl⟩ := List.exists_of_findSome?_eq_some h
  simp only [matchers, List.mem_cons, List.not_mem_nil, or_false] at hm
  rcases hm with rfl | rfl | rfl | rfl | rfl | rfl | rfl | rfl | rfl | rfl
  · exact continuation_fits hl
  · exact rule_fits hl
  · exact comment_fits hl
  · exact operator_fits hl
  · exact newline_fits hl
  · exact bracket_fits hl
  · exact escape_fits hl
  · exact white_fits hl
  · exact number_fits hl
  · exact name_fits hl

/-- Some matcher applies to every text that is not over: a name may start with any byte. -/
theorem exists_lexeme (c : Context) (b : UInt8) (t : Text) :
    ∃ l, lexeme c (b :: t) = some l := by
  cases h : lexeme c (b :: t) with
  | some l => exact ⟨l, rfl⟩
  | none =>
      have hname := List.findSome?_eq_none_iff.1 h name (by simp [matchers])
      simp [name] at hname

theorem lexeme_newline (c : Context) (t : Text) :
    lexeme c (Ascii.newline :: t) = some ⟨some .newline, 1⟩ := by
  have hb : isBlank Ascii.newline = false := rfl
  have hz : blanks (Ascii.newline :: t) = 0 := by simp [blanks, hb]
  have hcontinuation : continuation c (Ascii.newline :: t) = none := by
    have hs : Ascii.backslash ≠ Ascii.newline := by decide
    simp [continuation, hs]
  have hrule : rule c (Ascii.newline :: t) = none := by
    have hdash : (Ascii.newline == Ascii.dash) = false := rfl
    have hequals : (Ascii.newline == Ascii.equals) = false := rfl
    simp [rule, ruleOf, hdash, hequals]
  have hcomment : comment c (Ascii.newline :: t) = none := by
    have hd : Ascii.dash ≠ Ascii.newline := by decide
    simp [comment, commentMark, hz, hd]
  have hoperator : operator c (Ascii.newline :: t) = none := by
    have hnone : operatorAt (Ascii.newline :: t) = none := rfl
    simp [operator, hz, hnone]
  simp only [lexeme, matchers, List.findSome?_cons, hcontinuation, hrule, hcomment, hoperator]
  rfl

/-! ## Scanning, one lexeme at a time -/

theorem scanFrom_nil (c : Context) (offset : Nat) :
    scanFrom c offset [] = [⟨.eof, [], offset⟩] := by
  rw [scanFrom]

theorem scanFrom_append {c : Context} {offset : Nat} {k : Option Kind} {read rest : Text}
    (hl : lexeme c (read ++ rest) = some ⟨k, read.length⟩) :
    scanFrom c offset (read ++ rest) =
      Lexeme.token ⟨k, read.length⟩ read offset ++
        scanFrom (c.after ⟨k, read.length⟩ read) (offset + read.length) rest := by
  generalize ht : read ++ rest = t at hl
  cases t with
  | nil =>
      have hpos := lexeme_pos hl
      obtain ⟨rfl, -⟩ := List.append_eq_nil_iff.1 ht
      simp at hpos
  | cons b t =>
      rw [scanFrom]
      split
      case h_1 hn => rw [hl] at hn; cases hn
      case h_2 l hs =>
        obtain rfl := Option.some.inj (hl.symm.trans hs)
        simp only [← ht, List.take_left', List.drop_left']

/-- A property of texts in their contexts holds if it holds at the end of the text and before each
lexeme whenever it holds after it. -/
@[elab_as_elim]
theorem scan_induction {P : Context → Nat → Text → Prop}
    (nil : ∀ c offset, P c offset [])
    (step : ∀ c offset k read rest, read ≠ [] →
      lexeme c (read ++ rest) = some ⟨k, read.length⟩ → Spelled c k read rest →
      P (c.after ⟨k, read.length⟩ read) (offset + read.length) rest → P c offset (read ++ rest))
    (c : Context) (offset : Nat) (t : Text) : P c offset t := by
  generalize hn : t.length = n
  induction n using Nat.strongRecOn generalizing c offset t with
  | ind n ih =>
      cases t with
      | nil => exact nil c offset
      | cons b t =>
          obtain ⟨l, hl⟩ := exists_lexeme c b t
          have hpos := lexeme_pos hl
          obtain ⟨hle, hsp⟩ := lexeme_fits hl
          have hlen : ((b :: t).take l.length).length = l.length := by
            rw [List.length_take]
            omega
          have hcat := List.take_append_drop l.length (b :: t)
          rw [← hcat]
          apply step c offset l.kind
          · intro he
            rw [he] at hlen
            simp only [List.length_nil] at hlen
            omega
          · rw [hcat, hlen, hl]
          · exact hsp
          · exact ih _ (by rw [List.length_drop]; omega) _ _ _ rfl

end Token

end PoolProse
