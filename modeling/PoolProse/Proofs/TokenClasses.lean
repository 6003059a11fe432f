import PoolProse.Proofs.TrailingLayout

/-!
# The classes of tokens

For each class of tokens this says what its tokens are made of and what may follow them, in terms of
bytes alone and not of the matchers and their order. Every token of a document has the form of its
class. The form leaves no choice: no other stretch of the document that starts in the same place has
it, so tokens are as long as their class allows and no longer.
-/
namespace PoolProse

namespace Token

open Text (isBlank isDigit atLineEnd)

/-! ## Operators, brackets and what stops a name -/

def operatorSymbols : List Text :=
  [[Ascii.colon, Ascii.colon], [Ascii.colon, Ascii.bang], [Ascii.less, Ascii.dash],
    [Ascii.less, Ascii.bang], [Ascii.bar]]

def StartsOperator (t : Text) : Prop := ∃ symbol ∈ operatorSymbols, symbol <+: t

def brackets : List UInt8 :=
  [Ascii.parenOpen, Ascii.parenClose, Ascii.braceOpen, Ascii.braceClose]

/-- No name goes on with this text: it is over, or it starts with a newline, a NUL, a bracket, a
backslash or an operator. -/
inductive StopsName : Text → Prop where
  | nil : StopsName []
  | byte {b : UInt8} {t : Text}
      (h : b = Ascii.newline ∨ b = Ascii.nul ∨ b ∈ brackets ∨ b = Ascii.backslash) :
      StopsName (b :: t)
  | operator {t : Text} (h : StartsOperator t) : StopsName t

variable {t read read' after after' : Text}

theorem operatorAt_eq_none_iff : operatorAt t = none ↔ ¬ StartsOperator t := by
  constructor
  · rintro hnone ⟨symbol, hsymbol, u, rfl⟩
    simp only [operatorSymbols, List.mem_cons, List.not_mem_nil, or_false] at hsymbol
    rcases hsymbol with rfl | rfl | rfl | rfl | rfl <;> cases hnone
  · intro hstarts
    rw [Option.eq_none_iff_forall_ne_some]
    rintro ⟨k, n⟩ hk
    apply hstarts
    rcases operatorAt_cases hk with ⟨-, -, u, rfl⟩ | ⟨op, u, -, -, rfl⟩
    · exact ⟨[Ascii.bar], by simp [operatorSymbols], u, rfl⟩
    · exact ⟨op.symbol, by cases op <;> simp [operatorSymbols, Binding.symbol], u, rfl⟩

theorem bracketKind_eq_none_iff {b : UInt8} : bracketKind b = none ↔ b ∉ brackets := by
  unfold bracketKind brackets
  repeat' split
  all_goals simp_all

theorem stopsName_of_endsName (h : endsName t = true) : StopsName t := by
  cases t with
  | nil => exact .nil
  | cons b t =>
      simp only [endsName, Bool.or_eq_true, beq_iff_eq] at h
      rcases h with (((hnul | hnewline) | hbackslash) | hbracket) | hoperator
      · exact .byte (Or.inr (Or.inl hnul))
      · exact .byte (Or.inl hnewline)
      · exact .byte (Or.inr (Or.inr (Or.inr hbackslash)))
      · have hmem : b ∈ brackets := by
          by_contra hmem
          rw [bracketKind_eq_none_iff.2 hmem] at hbracket
          cases hbracket
        exact .byte (Or.inr (Or.inr (Or.inl hmem)))
      · apply StopsName.operator
        by_contra hstarts
        rw [operatorAt_eq_none_iff.2 hstarts] at hoperator
        cases hoperator

/-! ## The forms -/

/-- A name neither starts nor ends with a blank and does not start with a digit. It has no newline,
bracket or backslash, and a NUL only in front. No operator starts in it, and no blanks in it stand
before a comment mark. It ends before something that stops a name, or before blanks and something
that stops a name or a comment mark. -/
structure NameClass (read after : Text) : Prop where
  ne_nil : read ≠ []
  first : ∀ b ∈ read.head?, isBlank b = false ∧ isDigit b = false
  last : ∀ b ∈ read.getLast?, isBlank b = false
  plain : ∀ b ∈ read, b ≠ Ascii.newline ∧ b ∉ brackets ∧ b ≠ Ascii.backslash
  nul : ∀ b ∈ read.tail, b ≠ Ascii.nul
  operator : ∀ x y, read = x ++ y → y ≠ [] → ¬ StartsOperator (y ++ after)
  mark : ∀ x gap y, read = x ++ (gap ++ y) → gap ≠ [] → (∀ b ∈ gap, isBlank b = true) →
    ¬ commentMark <+: y ++ after
  stops : ∃ gap rest, after = gap ++ rest ∧ (∀ b ∈ gap, isBlank b = true) ∧
    (StopsName rest ∨ gap ≠ [] ∧ commentMark <+: rest)

/-- Blanks, the operator and blanks, before no other blank. -/
def OperatorClass (symbol read after : Text) : Prop :=
  ∃ before behind, read = before ++ (symbol ++ behind) ∧ (∀ b ∈ before, isBlank b = true) ∧
    (∀ b ∈ behind, isBlank b = true) ∧ ∀ b ∈ after.head?, isBlank b = false

/-- At least three marks and blanks, before the end of the line. -/
def RuleClass (mark : UInt8) (read after : Text) : Prop :=
  ∃ n pad, 3 ≤ n ∧ read = List.replicate n mark ++ pad ∧ (∀ b ∈ pad, isBlank b = true) ∧
    (after = [] ∨ [Ascii.newline] <+: after)

/-- A backslash and a code point that ends no line, or a backslash at the end of the text. -/
def EscapeClass (read after : Text) : Prop :=
  (read = [Ascii.backslash] ∧ after = []) ∨
    ∃ r : CodePoint, CodePoint.first? (r.bytes ++ after) = some r ∧
      read = Ascii.backslash :: r.bytes ∧ r.bytes ≠ [Ascii.newline] ∧
      ¬ (r.bytes = [Ascii.carriageReturn] ∧ [Ascii.newline] <+: after)

/-- The text `read` before `after` has the form of the tokens of a class. -/
def HasForm : Kind → Text → Text → Prop
  | .eof, read, after => read = [] ∧ after = []
  | .name, read, after => NameClass read after
  | .number, read, after => read ≠ [] ∧ (∀ b ∈ read, isDigit b = true) ∧
      ∀ b ∈ after.head?, isDigit b = false
  | .white, read, after => read ≠ [] ∧ (∀ b ∈ read, isBlank b = true) ∧
      (∀ b ∈ after.head?, isBlank b = false) ∧ ¬ StartsOperator after ∧ ¬ commentMark <+: after
  | .newline, read, _ => read = [Ascii.newline]
  | .binding op, read, after => OperatorClass op.symbol read after
  | .pipe, read, after => OperatorClass [Ascii.bar] read after
  | .opening b, read, _ => read = [b.opener]
  | .closing b, read, _ => read = [b.closer]
  | .escape, read, after => EscapeClass read after
  | .rule, read, after => RuleClass Ascii.dash read after
  | .doubleRule, read, after => RuleClass Ascii.equals read after
  | .unknown _, _, _ => False

/-! ## Every lexeme with a token has the form of its class -/

theorem NameForm.nameClass (h : NameForm read after) : NameClass read after := by
  obtain ⟨hover, hstops⟩ := nameTail_append_iff.1 h.tail
  refine
    { ne_nil := h.ne_nil, first := h.first, last := h.last, plain := ?_, nul := ?_, operator := ?_
      mark := ?_, stops := ?_ }
  · intro b hb
    obtain ⟨x, y, hcat⟩ := List.append_of_mem hb
    have hinner := h.inner x b y hcat
    exact ⟨hinner.newline, bracketKind_eq_none_iff.1 hinner.bracket, hinner.backslash⟩
  · rintro b hb rfl
    obtain ⟨x, y, hcat⟩ := List.append_of_mem hb
    -- behind the first byte a name would have been over in front of the NUL
    have hgoes : nameOver (Ascii.nul :: (y ++ after)) = false := hover x _ y hcat
    cases hgoes
  · intro x y hcat hy
    obtain ⟨b, y, rfl⟩ := List.exists_cons_of_ne_nil hy
    rw [List.cons_append, ← operatorAt_eq_none_iff]
    exact (h.inner x b y hcat).operator
  · rintro x gap y hcat hgap hblank ⟨u, hu⟩
    obtain ⟨b, gap, rfl⟩ := List.exists_cons_of_ne_nil hgap
    obtain ⟨hb, hblank⟩ := List.forall_mem_cons.1 hblank
    apply (h.inner x b (gap ++ y) hcat).mark hb
    rw [List.append_assoc, List.dropWhile_append_of_pos hblank, ← hu]
    exact ⟨u, rfl⟩
  · refine ⟨after.takeWhile isBlank, after.dropWhile isBlank,
      List.takeWhile_append_dropWhile.symm, List.all_eq_true.1 List.all_takeWhile, ?_⟩
    rcases Bool.or_eq_true_iff.1 hstops with hends | hmark
    · exact Or.inl (stopsName_of_endsName hends)
    · obtain ⟨hpos, hmark⟩ := Bool.and_eq_true_iff.1 hmark
      exact Or.inr ⟨List.length_pos_iff.1 (of_decide_eq_true hpos),
        List.isPrefixOf_iff_prefix.1 hmark⟩

/-- An escape stands where no continued line starts, so what it escapes ends no line. -/
theorem escapeClass_of_formed {c : Context} (h : Formed .escape read after)
    (hcontinuation : continuation c (read ++ after) = none) : EscapeClass read after := by
  rw [continuation_eq_none_iff] at hcontinuation
  cases h with
  | @escape r _ hr =>
      cases hfirst : CodePoint.first? (r ++ after) with
      | none =>
          obtain ⟨rfl, rfl⟩ : r = [] ∧ after = [] := by
            rw [← List.append_eq_nil_iff]
            cases hcat : r ++ after with
            | nil => rfl
            | cons a u => rw [hcat] at hfirst; cases hfirst
          exact Or.inl ⟨rfl, rfl⟩
      | some p =>
          rw [hfirst] at hr
          obtain rfl : r = p.bytes := hr
          refine Or.inr ⟨p, hfirst, rfl, ?_, ?_⟩
          · intro hnewline
            apply hcontinuation _ (Or.inl rfl)
            rw [hnewline]
            exact ⟨after, rfl⟩
          · rintro ⟨hreturn, u, rfl⟩
            apply hcontinuation _ (Or.inr rfl)
            rw [hreturn]
            exact ⟨u, rfl⟩

theorem Formed.hasForm {c : Context} {k : Kind} (h : Formed k read after)
    (hcontinuation : continuation c (read ++ after) = none) : HasForm k read after := by
  cases h with
  | pipe hbefore hafter hrest =>
      exact ⟨_, _, rfl, hbefore, hafter, Text.blanks_eq_zero_iff.1 hrest⟩
  | binding hbefore hafter hrest =>
      exact ⟨_, _, rfl, hbefore, hafter, Text.blanks_eq_zero_iff.1 hrest⟩
  | opening => exact rfl
  | closing => exact rfl
  | escape hr => exact escapeClass_of_formed (.escape hr) hcontinuation
  | white hne hread hrest hoperator hmark =>
      exact ⟨hne, hread, Text.blanks_eq_zero_iff.1 hrest, operatorAt_eq_none_iff.1 hoperator, hmark⟩
  | number hne hread hrest => exact ⟨hne, hread, hrest⟩
  | name h => exact h.nameClass

theorem ruleClass_of_ruleOf {m : UInt8} {k k' : Kind}
    (h : ruleOf m k (read ++ after) = some ⟨some k', read.length⟩)
    (hend : atLineEnd after = true) : k' = k ∧ RuleClass m read after := by
  obtain ⟨hkind, marks, pad, rfl, hmarks, hlength, hpad⟩ := exists_of_ruleOf h
  refine ⟨Option.some.inj hkind, marks.length, pad, hlength, ?_, hpad, ?_⟩
  · have hreplicate : marks = List.replicate marks.length m :=
      List.eq_replicate_of_mem fun b hb => eq_of_beq (hmarks b hb)
    rw [← hreplicate]
  · cases after with
    | nil => exact Or.inl rfl
    | cons b u =>
        obtain rfl := eq_of_beq hend
        exact Or.inr ⟨u, rfl⟩

theorem hasForm_of_rule {c : Context} {k : Kind}
    (h : rule c (read ++ after) = some ⟨some k, read.length⟩) (hend : atLineEnd after = true) :
    HasForm k read after := by
  unfold rule at h
  split at h
  case isTrue =>
    rcases Option.or_eq_some_iff.1 h with h | ⟨-, h⟩
    · obtain ⟨rfl, hclass⟩ := ruleClass_of_ruleOf h hend
      exact hclass
    · obtain ⟨rfl, hclass⟩ := ruleClass_of_ruleOf h hend
      exact hclass
  case isFalse => cases h

theorem hasForm_of_lexeme {c : Context} {k : Kind}
    (h : lexeme c (read ++ after) = some ⟨some k, read.length⟩) : HasForm k read after := by
  cases spelled_of_lexeme h with
  | rule hk _ hend => exact hasForm_of_rule (rule_of_lexeme h hk) hend
  | newline => exact rfl
  | inside hk =>
      exact (formed_of_lexeme h hk).hasForm (continuation_rule_of_lexeme h hk).1

/-- Scanning from any place, each token has the form of its class where it stands. -/
theorem hasForm_of_mem_scanFrom (c : Context) (p : Nat) (text : Text) :
    ∀ t ∈ scanFrom c p text, ∃ before after, text = before ++ (t.text ++ after) ∧
      t.offset = (p + before.length : Nat) ∧ HasForm t.kind t.text after := by
  induction c, p, text using scan_induction with
  | nil c p =>
      intro t ht
      rw [scanFrom_nil, List.mem_singleton] at ht
      subst ht
      exact ⟨[], [], rfl, rfl, rfl, rfl⟩
  | step c p k read rest hread hl hsp ih =>
      intro t ht
      rw [scanFrom_append hl] at ht
      rcases List.mem_append.1 ht with ht | ht
      · cases k with
        | none => cases ht
        | some k =>
            obtain rfl := List.mem_singleton.1 ht
            exact ⟨[], rest, rfl, rfl, hasForm_of_lexeme hl⟩
      · obtain ⟨before, after, rfl, hoffset, hform⟩ := ih t ht
        refine ⟨read ++ before, after, (List.append_assoc ..).symm, ?_, hform⟩
        rw [hoffset, List.length_append, Nat.add_assoc]

/-! ## The form leaves no choice -/

theorem NameClass.not_longer {w : Text} (h : NameClass read (w ++ after))
    (h' : NameClass (read ++ w) after) : w = [] := by
  by_contra hne
  have hblank : ¬ ∀ b ∈ w, isBlank b = true := by
    intro hall
    obtain ⟨x, b, rfl⟩ := List.eq_nil_or_concat w |>.resolve_left hne
    have hb := h'.last b (by rw [List.concat_eq_append, ← List.append_assoc]; simp)
    rw [hall b (by simp)] at hb
    cases hb
  -- the longer name would end in the blanks behind the shorter one, or have in it what stops that
  obtain ⟨gap, rest, hcat, hgap, hover⟩ := h.stops
  rcases List.append_eq_append_iff.1 hcat with ⟨z, rfl, -⟩ | ⟨z, rfl, rfl⟩
  · exact hblank fun b hb => hgap b (List.mem_append_left z hb)
  · rcases hover with hstops | ⟨hne', hmark⟩
    · generalize hrest : z ++ after = rest at hstops
      cases z with
      | nil =>
          rw [List.append_nil] at hblank
          exact hblank hgap
      | cons b z =>
          have hplain := h'.plain b (by simp)
          cases hstops with
          | nil => cases hrest
          | byte hb =>
              obtain rfl := (List.cons.inj hrest).1
              rcases hb with hb | rfl | hb | hb
              · exact hplain.1 hb
              · obtain ⟨a, read, rfl⟩ := List.exists_cons_of_ne_nil h.ne_nil
                exact h'.nul _ (by simp) rfl
              · exact hplain.2.1 hb
              · exact hplain.2.2 hb
          | operator hoperator =>
              apply h'.operator (read ++ gap) (b :: z) (by simp) (by simp)
              rwa [hrest]
    · exact h'.mark read gap z rfl hne' hgap hmark

theorem NameClass.unique (h : NameClass read after) (h' : NameClass read' after')
    (hcat : read ++ after = read' ++ after') : read = read' := by
  rcases List.append_eq_append_iff.1 hcat with ⟨w, rfl, rfl⟩ | ⟨w, rfl, rfl⟩
  · rw [h.not_longer h', List.append_nil]
  · rw [h'.not_longer h, List.append_nil]

theorem OperatorClass.unique {symbol : Text} (hsymbol : symbol ≠ [])
    (hinked : ∀ b ∈ symbol.head?, isBlank b = false) (h : OperatorClass symbol read after)
    (h' : OperatorClass symbol read' after') (hcat : read ++ after = read' ++ after') :
    read = read' := by
  obtain ⟨before, behind, rfl, hbefore, hbehind, hafter⟩ := h
  obtain ⟨before', behind', rfl, hbefore', hbehind', hafter'⟩ := h'
  obtain ⟨a, symbol, rfl⟩ := List.exists_cons_of_ne_nil hsymbol
  have hhead : ∀ u : Text, ∀ b ∈ (a :: symbol ++ u).head?, isBlank b = false :=
    fun _ b hb => hinked b hb
  simp only [List.append_assoc] at hcat
  obtain ⟨rfl, hrest⟩ := Text.split_unique hbefore hbefore' (hhead _) (hhead _) hcat
  obtain ⟨rfl, -⟩ := Text.split_unique hbehind hbehind' hafter hafter'
    (List.append_cancel_left hrest)
  rfl

theorem RuleClass.unique {mark : UInt8} (hmark : isBlank mark = false ∧ mark ≠ Ascii.newline)
    (h : RuleClass mark read after) (h' : RuleClass mark read' after')
    (hcat : read ++ after = read' ++ after') : read = read' := by
  -- behind the marks no other mark follows, and behind the blanks the line is over
  have hmarks : ∀ n, ∀ b ∈ List.replicate n mark, (b == mark) = true := by
    intro n b hb
    rw [List.eq_of_mem_replicate hb, beq_self_eq_true]
  have hend : ∀ u : Text, u = [] ∨ [Ascii.newline] <+: u →
      ∀ b ∈ u.head?, isBlank b = false ∧ (b == mark) = false := by
    rintro u (rfl | ⟨v, rfl⟩) b hb
    · cases hb
    · obtain rfl := Option.some.inj hb
      exact ⟨rfl, beq_false_of_ne hmark.2.symm⟩
  have hpads : ∀ pad u : Text, (∀ b ∈ pad, isBlank b = true) →
      (u = [] ∨ [Ascii.newline] <+: u) → ∀ b ∈ (pad ++ u).head?, (b == mark) = false := by
    intro pad u hpad hu b hb
    cases pad with
    | nil => exact (hend u hu b hb).2
    | cons a pad =>
        obtain rfl := Option.some.inj hb
        rw [beq_eq_false_iff_ne]
        rintro rfl
        rw [hpad a (by simp)] at hmark
        cases hmark.1
  obtain ⟨n, pad, -, rfl, hpad, hafter⟩ := h
  obtain ⟨n', pad', -, rfl, hpad', hafter'⟩ := h'
  rw [List.append_assoc, List.append_assoc] at hcat
  obtain ⟨hsame, hrest⟩ := Text.split_unique (hmarks n) (hmarks n') (hpads pad after hpad hafter)
    (hpads pad' after' hpad' hafter') hcat
  obtain ⟨rfl, -⟩ := Text.split_unique hpad hpad' (fun b hb => (hend _ hafter b hb).1)
    (fun b hb => (hend _ hafter' b hb).1) hrest
  rw [hsame]

theorem EscapeClass.unique (h : EscapeClass read after) (h' : EscapeClass read' after')
    (hcat : read ++ after = read' ++ after') : read = read' := by
  rcases h with ⟨rfl, rfl⟩ | ⟨r, hr, rfl, -⟩ <;> rcases h' with ⟨rfl, rfl⟩ | ⟨r', hr', rfl, -⟩
  · rfl
  · have hrest : [] = r'.bytes ++ after' := (List.cons.inj hcat).2
    rw [← hrest] at hr'
    cases hr'
  · have hrest : r.bytes ++ after = [] := (List.cons.inj hcat).2
    rw [hrest] at hr
    cases hr
  · have hrest : r.bytes ++ after = r'.bytes ++ after' := (List.cons.inj hcat).2
    rw [hrest, hr'] at hr
    rw [Option.some.inj hr]

theorem HasForm.unique {k : Kind} (h : HasForm k read after) (h' : HasForm k read' after')
    (hcat : read ++ after = read' ++ after') : read = read' := by
  cases k with
  | eof => exact h.1.trans h'.1.symm
  | name => exact NameClass.unique h h' hcat
  | number =>
      obtain ⟨-, hread, hafter⟩ := h
      obtain ⟨-, hread', hafter'⟩ := h'
      exact (Text.split_unique hread hread' hafter hafter' hcat).1
  | white =>
      obtain ⟨-, hread, hafter, -⟩ := h
      obtain ⟨-, hread', hafter', -⟩ := h'
      exact (Text.split_unique hread hread' hafter hafter' hcat).1
  | newline => exact Eq.trans h (Eq.symm h')
  | binding op =>
      refine OperatorClass.unique ?_ ?_ h h' hcat
      · cases op <;> exact List.cons_ne_nil _ _
      · have hhead := op.symbol_head (s := [])
        rwa [List.append_nil] at hhead
  | pipe =>
      refine OperatorClass.unique (List.cons_ne_nil _ _) ?_ h h' hcat
      intro b hb
      obtain rfl := Option.some.inj hb
      rfl
  | opening b => exact Eq.trans h (Eq.symm h')
  | closing b => exact Eq.trans h (Eq.symm h')
  | escape => exact EscapeClass.unique h h' hcat
  | rule => exact RuleClass.unique ⟨rfl, by decide⟩ h h' hcat
  | doubleRule => exact RuleClass.unique ⟨rfl, by decide⟩ h h' hcat
  | unknown code => exact absurd h id

end Token

/-- Every token of a document has the form of its class where it stands, before what follows it in
the document, and nothing else that starts in its place has that form. -/
theorem tokenize_classes (text : Text) :
    ∀ t ∈ tokenize text, ∃ before after, text = before ++ (t.text ++ after) ∧
      t.offset = before.length ∧ Token.HasForm t.kind t.text after ∧
      ∀ read rest, read ++ rest = t.text ++ after → Token.HasForm t.kind read rest →
        read = t.text := by
  intro t ht
  obtain ⟨before, after, hcat, hoffset, hform⟩ :=
    Token.hasForm_of_mem_scanFrom ⟨true, false⟩ 0 text t ht
  rw [Nat.zero_add] at hoffset
  exact ⟨before, after, hcat, hoffset, hform, fun read rest hread h => h.unique hform hread⟩

/-- A name with a NUL in front, a single blank and two dashes inside, which ends before blanks and a
comment. -/
theorem tokenize_classes_name :
    ⟨.name, 0 :: utf8 "a b--c", 1⟩ ∈ tokenize (0x7C :: 0 :: utf8 "a b--c  -- d\n7") ∧
      Token.HasForm .name (0 :: utf8 "a b--c") (utf8 "  -- d\n7") ∧
      ¬ Token.HasForm .name (0 :: utf8 "a") (utf8 " b--c  -- d\n7") := by
  have hmem : ⟨.name, 0 :: utf8 "a b--c", 1⟩ ∈
      tokenize (0x7C :: 0 :: utf8 "a b--c  -- d\n7") := by decide +kernel
  obtain ⟨before, after, hcat, hoffset, hform, hunique⟩ := tokenize_classes _ _ hmem
  obtain ⟨b, rfl⟩ : ∃ b, before = [b] :=
    List.length_eq_one_iff.1 (Int.ofNat.inj hoffset.symm)
  obtain rfl : utf8 "  -- d\n7" = after := by
    have hrest : (0 :: utf8 "a b--c") ++ utf8 "  -- d\n7" = (0 :: utf8 "a b--c") ++ after :=
      (List.cons.inj hcat).2
    exact List.append_cancel_left hrest
  refine ⟨hmem, hform, ?_⟩
  intro hshort
  have heq : 0 :: utf8 "a" = 0 :: utf8 "a b--c" := hunique _ _ (by decide +kernel) hshort
  exact absurd heq (by decide +kernel)

end PoolProse
