import PoolProse.Proofs.Lexeme

/-!
# The forms of the tokens of a line

A token is what its own matcher takes, where the matchers tried before found nothing. `Formed` says
for each kind of token on a line what it is made of and what may follow it.
-/
namespace PoolProse

namespace Text

theorem isBlank_iff {b : UInt8} : isBlank b = true ↔
    b = Ascii.space ∨ b = Ascii.tab ∨ b = Ascii.carriageReturn := by
  simp [isBlank, or_assoc]

theorem blanks_eq_zero_iff {t : Text} : blanks t = 0 ↔ ∀ b ∈ t.head?, isBlank b = false := by
  cases t with
  | nil => simp [blanks]
  | cons b t =>
      cases hb : isBlank b with
      | false => simp [blanks, hb]
      | true => simp [blanks, hb]

theorem exists_blanks (t : Text) : ∃ u v, t = u ++ v ∧ (∀ b ∈ u, isBlank b = true) ∧
    blanks t = u.length ∧ blanks v = 0 := by
  refine ⟨t.takeWhile isBlank, t.dropWhile isBlank, List.takeWhile_append_dropWhile.symm, ?_, rfl,
    ?_⟩
  · intro b hb
    exact List.all_eq_true.1 List.all_takeWhile b hb
  · rw [blanks_eq_zero_iff]
    intro b hb
    have hfirst := List.head?_dropWhile_not isBlank t
    rw [hb] at hfirst
    simpa using hfirst

end Text

def Bracket.opener : Bracket → UInt8
  | .paren => Ascii.parenOpen
  | .brace => Ascii.braceOpen

def Bracket.closer : Bracket → UInt8
  | .paren => Ascii.parenClose
  | .brace => Ascii.braceClose

theorem Bracket.isBlank_opener (b : Bracket) : Text.isBlank b.opener = false := by
  cases b <;> rfl

theorem Bracket.isBlank_closer (b : Bracket) : Text.isBlank b.closer = false := by
  cases b <;> rfl

namespace CodePoint

theorem ofLead_prefix (a : UInt8) (rest : Text) : (ofLead a rest).bytes <+: a :: rest := by
  unfold ofLead
  repeat' split
  all_goals simp [stray]

end CodePoint

namespace Token

open Text (isBlank isDigit blanks atLineEnd)

/-! ## Brackets and operators -/

theorem bracketKind_opener (b : Bracket) : bracketKind b.opener = some (.opening b) := by
  cases b <;> rfl

theorem bracketKind_closer (b : Bracket) : bracketKind b.closer = some (.closing b) := by
  cases b <;> rfl

theorem bracketKind_cases {b : UInt8} {k : Kind} (h : bracketKind b = some k) :
    (∃ br : Bracket, k = .opening br ∧ b = br.opener) ∨
      ∃ br : Bracket, k = .closing br ∧ b = br.closer := by
  unfold bracketKind at h
  repeat' split at h
  all_goals simp only [Option.some.injEq, reduceCtorEq] at h
  all_goals rename_i hb
  all_goals obtain rfl := eq_of_beq hb
  all_goals subst h
  · exact Or.inl ⟨.paren, rfl, rfl⟩
  · exact Or.inr ⟨.paren, rfl, rfl⟩
  · exact Or.inl ⟨.brace, rfl, rfl⟩
  · exact Or.inr ⟨.brace, rfl, rfl⟩

theorem operatorAt_symbol (op : Binding) (t : Text) :
    operatorAt (op.symbol ++ t) = some (.binding op, op.symbol.length) := by
  cases op <;> rfl

theorem operatorAt_cases {t : Text} {k : Kind} {n : Nat} (h : operatorAt t = some (k, n)) :
    (k = .pipe ∧ n = 1 ∧ ∃ u, t = Ascii.bar :: u) ∨
      ∃ op u, k = .binding op ∧ n = op.symbol.length ∧ t = op.symbol ++ u := by
  cases t with
  | nil => cases h
  | cons a t =>
      by_cases hbar : a = Ascii.bar
      · subst hbar
        obtain ⟨rfl, rfl⟩ := Prod.mk.inj (Option.some.inj h)
        exact Or.inl ⟨rfl, rfl, t, rfl⟩
      · right
        unfold operatorAt at h
        simp only [beq_iff_eq, hbar, if_false] at h
        repeat' split at h
        all_goals simp only [Option.some.injEq, Prod.mk.injEq, reduceCtorEq] at h
        all_goals obtain ⟨rfl, rfl⟩ := h
        all_goals subst_vars
        · exact ⟨.define, _, rfl, rfl, rfl⟩
        · exact ⟨.defineEval, _, rfl, rfl, rfl⟩
        · exact ⟨.select, _, rfl, rfl, rfl⟩
        · exact ⟨.selectEval, _, rfl, rfl, rfl⟩

/-! ## Names -/

/-- The byte `b`, with `t` after it, may stand in a name. -/
structure Inner (b : UInt8) (t : Text) : Prop where
  newline : b ≠ Ascii.newline
  backslash : b ≠ Ascii.backslash
  bracket : bracketKind b = none
  operator : operatorAt (b :: t) = none
  mark : isBlank b = true → ¬ commentMark <+: t.dropWhile isBlank

theorem inner_of_nameOver {b : UInt8} {t : Text} (h : nameOver (b :: t) = false) : Inner b t := by
  obtain ⟨hends, hmark⟩ := Bool.or_eq_false_iff.1 h
  cases hb : isBlank b with
  | true =>
      have hblank : b = Ascii.space ∨ b = Ascii.tab ∨ b = Ascii.carriageReturn :=
        Text.isBlank_iff.1 hb
      have hpos : 0 < blanks (b :: t) := by simp [blanks, hb]
      rw [List.dropWhile_cons_of_pos hb] at hmark
      have hnone : ¬ commentMark <+: t.dropWhile isBlank := by
        rw [← List.isPrefixOf_iff_prefix, Bool.not_eq_true]
        simpa [hpos] using hmark
      refine ⟨?_, ?_, ?_, ?_, fun _ => hnone⟩
      all_goals rcases hblank with rfl | rfl | rfl
      all_goals first | rfl | decide
  | false =>
      have hdrop : (b :: t).dropWhile isBlank = b :: t := by
        rw [List.dropWhile_cons_of_neg (by simp [hb])]
      rw [hdrop] at hends
      simp only [endsName, Bool.or_eq_false_iff, beq_eq_false_iff_ne, Option.isSome_eq_false_iff,
        Option.isNone_iff_eq_none] at hends
      obtain ⟨⟨⟨⟨-, hnewline⟩, hbackslash⟩, hbracket⟩, hoperator⟩ := hends
      exact ⟨hnewline, hbackslash, hbracket, hoperator, fun hblank => by simp [hb] at hblank⟩

theorem nameTail_append_iff {u v : Text} : nameTail (u ++ v) = u.length ↔
    (∀ x b y, u = x ++ b :: y → nameOver (b :: (y ++ v)) = false) ∧ nameOver v = true := by
  induction u with
  | nil =>
      cases v with
      | nil => simp [nameTail, nameOver, endsName]
      | cons b v => simp [nameTail]
  | cons a u ih =>
      rw [List.cons_append, nameTail, List.length_cons]
      cases ha : nameOver (a :: (u ++ v)) with
      | true =>
          constructor
          · simp
          · rintro ⟨hinner, -⟩
            rw [hinner [] a u rfl] at ha
            cases ha
      | false =>
          simp only [Bool.false_eq_true, if_false, Nat.add_right_cancel_iff, ih]
          refine and_congr_left fun _ => ?_
          constructor
          · intro hinner x b y hcat
            rcases List.cons_eq_append_iff.1 hcat with ⟨rfl, hby⟩ | ⟨x, rfl, hby⟩
            · obtain ⟨rfl, rfl⟩ := List.cons.inj hby
              exact ha
            · exact hinner x b y hby
          · intro hinner x b y hcat
            exact hinner (a :: x) b y (by rw [hcat, List.cons_append])

/-- What a name is made of. -/
structure NameForm (read rest : Text) : Prop where
  ne_nil : read ≠ []
  first : ∀ b ∈ read.head?, isBlank b = false ∧ isDigit b = false
  inner : ∀ x b y, read = x ++ b :: y → Inner b (y ++ rest)
  last : ∀ b ∈ read.getLast?, isBlank b = false
  tail : nameTail (read.tail ++ rest) = read.tail.length

theorem nameOver_blank {b : UInt8} {t : Text} (hb : isBlank b = true) (h : nameOver t = true) :
    nameOver (b :: t) = true := by
  have hpos : 0 < blanks (b :: t) := by simp [blanks, hb]
  rw [nameOver, List.dropWhile_cons_of_pos hb]
  rcases Bool.or_eq_true_iff.1 h with hends | hmark
  · rw [hends, Bool.true_or]
  · rw [(Bool.and_eq_true_iff.1 hmark).2]
    simp [hpos]

theorem nameForm_of_nameTail {b : UInt8} {read rest : Text}
    (hfirst : isBlank b = false ∧ isDigit b = false) (hinner : Inner b (read ++ rest))
    (htail : nameTail (read ++ rest) = read.length) : NameForm (b :: read) rest := by
  obtain ⟨hover, hstops⟩ := nameTail_append_iff.1 htail
  refine ⟨by simp, by simpa using hfirst, ?_, ?_, htail⟩
  · intro x a y hcat
    rcases List.cons_eq_append_iff.1 hcat with ⟨rfl, hay⟩ | ⟨x, rfl, hay⟩
    · obtain ⟨rfl, rfl⟩ := List.cons.inj hay
      exact hinner
    · exact inner_of_nameOver (hover x a y hay)
  · intro a ha
    rcases List.eq_nil_or_concat read with rfl | ⟨x, z, rfl⟩
    · obtain rfl := Option.some.inj ha
      exact hfirst.1
    · rw [List.concat_eq_append, ← List.cons_append, List.getLast?_concat] at ha
      obtain rfl := Option.some.inj ha
      cases hz : isBlank z with
      | false => rfl
      | true =>
          have hcont := hover x z [] List.concat_eq_append
          rw [List.nil_append, nameOver_blank hz hstops] at hcont
          cases hcont

/-! ## Tokens -/

/-- How a token of a line is spelled when `rest` follows it. -/
inductive Formed : Kind → Text → Text → Prop where
  | pipe {before after rest : Text} (hbefore : ∀ b ∈ before, isBlank b = true)
      (hafter : ∀ b ∈ after, isBlank b = true) (hrest : blanks rest = 0) :
      Formed .pipe (before ++ Ascii.bar :: after) rest
  | binding {op : Binding} {before after rest : Text} (hbefore : ∀ b ∈ before, isBlank b = true)
      (hafter : ∀ b ∈ after, isBlank b = true) (hrest : blanks rest = 0) :
      Formed (.binding op) (before ++ (op.symbol ++ after)) rest
  | opening {b : Bracket} {rest : Text} : Formed (.opening b) [b.opener] rest
  | closing {b : Bracket} {rest : Text} : Formed (.closing b) [b.closer] rest
  | escape {r rest : Text}
      (h : r = ((CodePoint.first? (r ++ rest)).map CodePoint.bytes).getD []) :
      Formed .escape (Ascii.backslash :: r) rest
  | white {read rest : Text} (hne : read ≠ []) (hread : ∀ b ∈ read, isBlank b = true)
      (hrest : blanks rest = 0) (hoperator : operatorAt rest = none)
      (hmark : ¬ commentMark <+: rest) : Formed .white read rest
  | number {read rest : Text} (hne : read ≠ []) (hread : ∀ b ∈ read, isDigit b = true)
      (hrest : ∀ b ∈ rest.head?, isDigit b = false) : Formed .number read rest
  | name {read rest : Text} (h : NameForm read rest) : Formed .name read rest

theorem operator_formed {c : Context} {t : Text} {k : Kind} {n : Nat}
    (h : operator c t = some ⟨some k, n⟩) : Formed k (t.take n) (t.drop n) := by
  obtain ⟨before, u, rfl, hbefore, hcount, -⟩ := Text.exists_blanks t
  rw [operator, hcount, List.drop_left' rfl] at h
  split at h
  · cases h
  case h_2 k' m hk =>
    obtain ⟨hkind, rfl⟩ := Lexeme.mk.inj (Option.some.inj h)
    obtain rfl := Option.some.inj hkind
    rcases operatorAt_cases hk with ⟨rfl, rfl, v, rfl⟩ | ⟨op, v, rfl, rfl, rfl⟩
    · obtain ⟨after, rest, rfl, hafter, hcount', hrest⟩ := Text.exists_blanks v
      have hlen : before.length + 1 + blanks
          ((before ++ Ascii.bar :: (after ++ rest)).drop (before.length + 1)) =
          (before ++ Ascii.bar :: after).length := by
        rw [← List.drop_drop, List.drop_left' rfl, List.drop_one, List.tail_cons, hcount',
          List.length_append, List.length_cons]
        omega
      have hcat : before ++ Ascii.bar :: (after ++ rest) =
          (before ++ Ascii.bar :: after) ++ rest := by simp
      rw [hlen, hcat, List.take_left' rfl, List.drop_left' rfl]
      exact .pipe hbefore hafter hrest
    · obtain ⟨after, rest, rfl, hafter, hcount', hrest⟩ := Text.exists_blanks v
      have hlen : before.length + op.symbol.length + blanks
          ((before ++ (op.symbol ++ (after ++ rest))).drop (before.length + op.symbol.length)) =
          (before ++ (op.symbol ++ after)).length := by
        rw [← List.drop_drop, List.drop_left' rfl, List.drop_left' rfl, hcount',
          List.length_append, List.length_append]
        omega
      have hcat : before ++ (op.symbol ++ (after ++ rest)) =
          (before ++ (op.symbol ++ after)) ++ rest := by simp
      rw [hlen, hcat, List.take_left' rfl, List.drop_left' rfl]
      exact .binding hbefore hafter hrest

theorem bracket_formed {c : Context} {t : Text} {k : Kind} {n : Nat}
    (h : bracket c t = some ⟨some k, n⟩) : Formed k (t.take n) (t.drop n) := by
  cases t with
  | nil => cases h
  | cons b t =>
      obtain ⟨k', hk, hl⟩ := Option.map_eq_some_iff.1 h
      obtain ⟨hkind, rfl⟩ := Lexeme.mk.inj hl
      obtain rfl := Option.some.inj hkind
      rcases bracketKind_cases hk with ⟨br, rfl, rfl⟩ | ⟨br, rfl, rfl⟩
      · exact .opening
      · exact .closing

theorem escape_formed {c : Context} {t : Text} {k : Kind} {n : Nat}
    (h : escape c t = some ⟨some k, n⟩) : Formed k (t.take n) (t.drop n) := by
  cases t with
  | nil => cases h
  | cons b t =>
      simp only [escape] at h
      split at h
      case isTrue hb =>
        obtain rfl := eq_of_beq hb
        obtain ⟨hkind, rfl⟩ := Lexeme.mk.inj (Option.some.inj h)
        obtain rfl := Option.some.inj hkind
        rw [Nat.add_comm 1, List.take_succ_cons, List.drop_succ_cons]
        apply Formed.escape
        rw [List.take_append_drop]
        cases t with
        | nil => rfl
        | cons a t =>
            have htake := List.prefix_iff_eq_take.1 (CodePoint.ofLead_prefix a t)
            exact htake.symm
      case isFalse => cases h

theorem operator_eq_none_iff {c : Context} {t : Text} :
    operator c t = none ↔ operatorAt (t.drop (blanks t)) = none := by
  unfold operator
  split
  case h_1 h => simp [h]
  case h_2 k n h => simp [h]

theorem comment_eq_none_iff {c : Context} {t : Text} : comment c t = none ↔
    (0 < blanks t ∨ c.lineStart = true ∨ c.afterBlank = true →
      ¬ commentMark <+: t.drop (blanks t)) := by
  simp only [comment, ite_eq_right_iff, reduceCtorEq, imp_false, Bool.and_eq_true, Bool.or_eq_true,
    decide_eq_true_eq, or_assoc, List.isPrefixOf_iff_prefix, not_and]

theorem white_formed {c : Context} {t : Text} {k : Kind} {n : Nat}
    (hoperator : operator c t = none) (hcomment : comment c t = none)
    (h : white c t = some ⟨some k, n⟩) : Formed k (t.take n) (t.drop n) := by
  unfold white at h
  split at h
  case isTrue hpos =>
    obtain ⟨hkind, rfl⟩ := Lexeme.mk.inj (Option.some.inj h)
    obtain rfl := Option.some.inj hkind
    rw [operator_eq_none_iff] at hoperator
    rw [comment_eq_none_iff] at hcomment
    have hmark := hcomment (Or.inl hpos)
    obtain ⟨u, v, rfl, hu, hcount, hv⟩ := Text.exists_blanks t
    rw [hcount] at hpos hoperator hmark ⊢
    rw [List.drop_left' rfl] at hoperator hmark ⊢
    rw [List.take_left' rfl]
    exact .white (List.length_pos_iff.1 hpos) hu hv hoperator hmark
  case isFalse => cases h

theorem number_formed {c : Context} {t : Text} {k : Kind} {n : Nat}
    (h : number c t = some ⟨some k, n⟩) : Formed k (t.take n) (t.drop n) := by
  simp only [number] at h
  split at h
  case isTrue hpos =>
    obtain ⟨hkind, rfl⟩ := Lexeme.mk.inj (Option.some.inj h)
    obtain rfl := Option.some.inj hkind
    have htake : t.take (t.takeWhile isDigit).length = t.takeWhile isDigit :=
      (List.prefix_iff_eq_take.1 (List.takeWhile_prefix _)).symm
    rw [htake, Text.drop_takeWhile_length]
    refine .number (List.length_pos_iff.1 hpos) ?_ ?_
    · intro b hb
      exact List.all_eq_true.1 List.all_takeWhile b hb
    · intro b hb
      have hfirst := List.head?_dropWhile_not isDigit t
      rw [hb] at hfirst
      simpa using hfirst
  case isFalse => cases h

theorem name_formed {c : Context} {t : Text} {k : Kind} {n : Nat}
    (hoperator : operator c t = none) (hnewline : newline c t = none)
    (hbracket : bracket c t = none) (hescape : escape c t = none) (hwhite : white c t = none)
    (hnumber : number c t = none) (h : name c t = some ⟨some k, n⟩) :
    Formed k (t.take n) (t.drop n) := by
  cases t with
  | nil => cases h
  | cons b t =>
      obtain ⟨hkind, rfl⟩ := Lexeme.mk.inj (Option.some.inj h)
      obtain rfl := Option.some.inj hkind
      have hblank : isBlank b = false := by
        cases hb : isBlank b with
        | false => rfl
        | true => simp [white, blanks, hb] at hwhite
      have hdigit : isDigit b = false := by
        cases hb : isDigit b with
        | false => rfl
        | true => simp [number, hb] at hnumber
      have hzero : blanks (b :: t) = 0 := by simp [blanks, hblank]
      rw [operator_eq_none_iff, hzero, List.drop_zero] at hoperator
      have hinner : Inner b t := by
        refine ⟨?_, ?_, ?_, hoperator, ?_⟩
        · rintro rfl
          cases hnewline
        · rintro rfl
          cases hescape
        · exact Option.map_eq_none_iff.1 hbracket
        · intro hb
          rw [hblank] at hb
          cases hb
      have hle := nameTail_le_length t
      rw [Nat.add_comm 1, List.take_succ_cons, List.drop_succ_cons]
      apply Formed.name
      apply nameForm_of_nameTail ⟨hblank, hdigit⟩
      · rwa [List.take_append_drop]
      · rw [List.take_append_drop, List.length_take]
        omega

theorem lexeme_eq_or (c : Context) (t : Text) : lexeme c t =
    (continuation c t).or ((rule c t).or ((comment c t).or ((operator c t).or
      ((newline c t).or ((bracket c t).or ((escape c t).or ((white c t).or
        ((number c t).or (name c t))))))))) := by
  have hcons : ∀ (m : Matcher) (ms : List Matcher),
      (m :: ms).findSome? (fun m => m c t) = (m c t).or (ms.findSome? fun m => m c t) := by
    intro m ms
    rw [List.findSome?_cons]
    cases m c t <;> rfl
  simp only [lexeme, matchers, hcons, List.findSome?_nil, Option.or_none]

theorem rule_kind {c : Context} {t : Text} {k : Option Kind} {n : Nat}
    (h : rule c t = some ⟨k, n⟩) : k = some .rule ∨ k = some .doubleRule := by
  unfold rule at h
  split at h
  · rcases Option.or_eq_some_iff.1 h with h | ⟨-, h⟩ <;>
      simp only [ruleOf, Option.ite_none_right_eq_some, Option.some.injEq, Lexeme.mk.injEq] at h
    · exact Or.inl h.2.1.symm
    · exact Or.inr h.2.1.symm
  · cases h

/-- Where no continued line, rule or comment starts, the next lexeme is a token of a line or the
newline at its end. -/
theorem lexeme_inside {c : Context} {t : Text} {k : Option Kind} {n : Nat}
    (hcontinuation : continuation c t = none) (hrule : rule c t = none)
    (hcomment : comment c t = none) (h : lexeme c t = some ⟨k, n⟩) :
    (∃ k', k = some k' ∧ k'.isInside = true) ∨ [Ascii.newline] <+: t := by
  rw [lexeme_eq_or, hcontinuation, hrule, hcomment, Option.none_or, Option.none_or,
    Option.none_or] at h
  rcases Option.or_eq_some_iff.1 h with h | ⟨-, h⟩
  · left
    unfold operator at h
    split at h
    · cases h
    case h_2 k' m hk =>
      obtain ⟨rfl, -⟩ := Lexeme.mk.inj (Option.some.inj h)
      exact ⟨k', rfl, (operatorAt_inside hk).1⟩
  rcases Option.or_eq_some_iff.1 h with h | ⟨-, h⟩
  · right
    cases t with
    | nil => cases h
    | cons b t =>
        simp only [newline, Option.ite_none_right_eq_some, beq_iff_eq] at h
        rw [h.1]
        exact ⟨t, rfl⟩
  left
  rcases Option.or_eq_some_iff.1 h with h | ⟨-, h⟩
  · cases t with
    | nil => cases h
    | cons b t =>
        obtain ⟨k', hk, hl⟩ := Option.map_eq_some_iff.1 h
        obtain ⟨rfl, -⟩ := Lexeme.mk.inj hl
        exact ⟨k', rfl, bracketKind_inside hk⟩
  rcases Option.or_eq_some_iff.1 h with h | ⟨-, h⟩
  · unfold escape at h
    repeat' split at h
    all_goals cases h
    exact ⟨.escape, rfl, rfl⟩
  rcases Option.or_eq_some_iff.1 h with h | ⟨-, h⟩
  · unfold white at h
    split at h
    all_goals cases h
    exact ⟨.white, rfl, rfl⟩
  rcases Option.or_eq_some_iff.1 h with h | ⟨-, h⟩
  · simp only [number] at h
    split at h
    all_goals cases h
    exact ⟨.number, rfl, rfl⟩
  unfold name at h
  split at h
  all_goals cases h
  exact ⟨.name, rfl, rfl⟩

/-- A token of a line has the form of its kind, and no comment starts where it does. -/
theorem lexeme_formed {c : Context} {t : Text} {k : Kind} {n : Nat}
    (h : lexeme c t = some ⟨some k, n⟩) (hk : k.isInside = true) :
    Formed k (t.take n) (t.drop n) ∧ comment c t = none := by
  rw [lexeme_eq_or] at h
  rcases Option.or_eq_some_iff.1 h with h | ⟨-, h⟩
  · unfold continuation at h
    repeat' split at h
    all_goals cases h
  rcases Option.or_eq_some_iff.1 h with h | ⟨-, h⟩
  · rcases rule_kind h with hrule | hrule
    all_goals
      rw [Option.some.inj hrule] at hk
      cases hk
  rcases Option.or_eq_some_iff.1 h with h | ⟨hcomment, h⟩
  · unfold comment at h
    split at h
    all_goals cases h
  refine ⟨?_, hcomment⟩
  rcases Option.or_eq_some_iff.1 h with h | ⟨hoperator, h⟩
  · exact operator_formed h
  rcases Option.or_eq_some_iff.1 h with h | ⟨hnewline, h⟩
  · unfold newline at h
    repeat' split at h
    all_goals cases h
    cases hk
  rcases Option.or_eq_some_iff.1 h with h | ⟨hbracket, h⟩
  · exact bracket_formed h
  rcases Option.or_eq_some_iff.1 h with h | ⟨hescape, h⟩
  · exact escape_formed h
  rcases Option.or_eq_some_iff.1 h with h | ⟨hwhite, h⟩
  · exact white_formed hoperator hcomment h
  rcases Option.or_eq_some_iff.1 h with h | ⟨hnumber, h⟩
  · exact number_formed h
  exact name_formed hoperator hnewline hbracket hescape hwhite hnumber h

end Token

end PoolProse
