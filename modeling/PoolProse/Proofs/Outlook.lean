import PoolProse.Proofs.Lookahead
import PoolProse.Proofs.Rereading

/-!
# What a lexeme sees of the text behind it

The text behind a token may be replaced by another one if the token cannot tell the two apart, and
step by step to the left so may the text behind any number of lexemes. A scan therefore comes to a
place by the same tokens whatever follows there, as long as it looks the same from before.
-/
namespace PoolProse

namespace Text

def insertAt (t w : Text) (k : Int) : Text := t.take k.toNat ++ (w ++ t.drop k.toNat)

theorem insertAt_append (x y w : Text) : insertAt (x ++ y) w x.length = x ++ (w ++ y) := by
  rw [insertAt, Int.toNat_natCast, List.take_left' rfl, List.drop_left' rfl]

end Text

namespace Token

open Text (isBlank isDigit blanks atLineEnd)

/-! ## Texts that may take each other's place -/

open CodePoint (isHigh)

/-- The text `s'` may stand in the place of `s` behind a token, if it starts with no blank. -/
structure Replaces (s s' : Text) : Prop where
  digit : (∀ b ∈ s.head?, isDigit b = false) → ∀ b ∈ s'.head?, isDigit b = false
  newline : s'.head? = some Ascii.newline → s.head? = some Ascii.newline
  operator : operatorAt s = none → operatorAt s' = none
  mark : ¬ commentMark <+: s → ¬ commentMark <+: s'
  edge : ∀ a, operatorAt (a :: s) = none → operatorAt (a :: s') = none
  bytes : ∀ a x, (CodePoint.ofLead a (x ++ s)).bytes = a :: x →
    (CodePoint.ofLead a (x ++ s')).bytes = a :: x
  stops : nameOver s = true → nameOver s' = true
  lineEnd : atLineEnd (s'.dropWhile isBlank) = true → atLineEnd (s.dropWhile isBlank) = true

/-- No lexeme before `s` can tell it from `s'`. -/
structure Alike (s s' : Text) : Prop where
  head : s'.head? = s.head?
  operator : operatorAt s' = operatorAt s
  mark : commentMark.isPrefixOf s' = commentMark.isPrefixOf s
  high : s'.takeWhile isHigh = s.takeWhile isHigh
  stops : nameOver s = true → nameOver s' = true
  lineEnd : atLineEnd (s'.dropWhile isBlank) = true → atLineEnd (s.dropWhile isBlank) = true

section

variable {c : Context} {read s s' : Text}

theorem SameEdge.of_head (h : s'.head? = s.head?) (a : UInt8) : SameEdge a s s' := by
  cases s with
  | nil =>
      obtain rfl : s' = [] := List.head?_eq_none_iff.1 h
      exact ⟨rfl, rfl⟩
  | cons b s =>
      cases s' with
      | nil => cases h
      | cons b' s' =>
          obtain rfl := Option.some.inj h
          exact ⟨rfl, rfl⟩

theorem operatorAt_blank {a : UInt8} (ha : isBlank a = true) (t : Text) :
    operatorAt (a :: t) = none := by
  rcases Text.isBlank_iff.1 ha with rfl | rfl | rfl <;> rfl

theorem SameEdge.of_blank {a : UInt8} (ha : isBlank a = true) (s s' : Text) : SameEdge a s s' := by
  refine ⟨by rw [operatorAt_blank ha, operatorAt_blank ha], ?_⟩
  rcases Text.isBlank_iff.1 ha with rfl | rfl | rfl <;> rfl

theorem SameEdge.of_operator {a : UInt8} (hoperator : operatorAt (a :: s) = none)
    (hoperator' : operatorAt (a :: s') = none) (hs : nameOver s = true) (hs' : nameOver s' = true) :
    SameEdge a s s' := by
  have hmark : ∀ u, nameOver u = true → commentMark.isPrefixOf (a :: u) = false := by
    intro u hu
    rw [← Bool.not_eq_true, List.isPrefixOf_iff_prefix]
    rintro ⟨v, hv⟩
    rw [← (List.cons.inj hv).2] at hu
    cases hu
  exact ⟨by rw [hoperator, hoperator'], by rw [hmark s hs, hmark s' hs']⟩

theorem Alike.replaces (h : Alike s s') : Replaces s s' where
  digit hs := by rwa [h.head]
  newline hs := by rwa [h.head] at hs
  operator hs := by rw [h.operator, hs]
  mark hs := by
    rwa [← List.isPrefixOf_iff_prefix, h.mark, List.isPrefixOf_iff_prefix]
  edge a ha := by rw [(SameEdge.of_head h.head a).operator, ha]
  bytes a x hx := by rw [CodePoint.ofLead_congr h.high, hx]
  stops := h.stops
  lineEnd := h.lineEnd

theorem continuation_append_congr (hread : 2 ≤ read.length)
    (h : s'.head? = some Ascii.newline → s.head? = some Ascii.newline)
    (hnone : continuation c (read ++ s) = none) : continuation c (read ++ s') = none := by
  match read, hread with
  | [a, b], _ =>
      rw [continuation_eq_none_iff] at hnone ⊢
      rintro line (rfl | rfl) ⟨u, hu⟩
      · simp only [List.cons_append, List.nil_append, List.cons.injEq] at hu
        apply hnone _ (Or.inl rfl)
        rw [← hu.1, ← hu.2.1]
        exact ⟨s, rfl⟩
      · simp only [List.cons_append, List.nil_append, List.cons.injEq] at hu
        obtain ⟨v, rfl⟩ := List.head?_eq_some_iff.1 (h (by rw [← hu.2.2]; rfl))
        apply hnone _ (Or.inr rfl)
        rw [← hu.1, ← hu.2.1]
        exact ⟨v, rfl⟩
  | a :: b :: d :: read, _ => exact hnone

/-- A token of a line is scanned as the same token before a text that may replace the one that
follows. -/
theorem Replaces.lexeme_eq {k : Kind} (h : Replaces s s')
    (hl : lexeme c (read ++ s) = some ⟨some k, read.length⟩) (hk : k.isInside = true)
    (hne : s ≠ []) (hblank : k = .white ∨ k = .pipe ∨ (∃ op, k = .binding op) →
      blanks s = 0 → blanks s' = 0) :
    lexeme c (read ++ s') = some ⟨some k, read.length⟩ := by
  obtain ⟨hcontinuation, -⟩ := continuation_rule_of_lexeme hl hk
  cases formed_of_lexeme hl hk with
  | pipe hbefore hafter hrest =>
      have hzero := hblank (Or.inr (Or.inl rfl)) hrest
      exact (Formed.pipe hbefore hafter hzero).lexeme_eq (by simp) (by simp)
  | binding hbefore hafter hrest =>
      have hzero := hblank (Or.inr (Or.inr ⟨_, rfl⟩)) hrest
      exact (Formed.binding hbefore hafter hzero).lexeme_eq (by simp) (by simp)
  | opening => exact Formed.opening.lexeme_eq (by simp) (by simp)
  | closing => exact Formed.closing.lexeme_eq (by simp) (by simp)
  | @escape r _ hr =>
      obtain ⟨a, x, rfl⟩ := List.exists_cons_of_ne_nil (escaped_ne_nil hne hr)
      have hbytes : a :: x = (CodePoint.ofLead a (x ++ s)).bytes := hr
      apply Formed.lexeme_eq (.escape (h.bytes a x hbytes.symm).symm)
      · exact fun _ => continuation_append_congr (by simp) h.newline hcontinuation
      · simp
  | white hne hread hrest hoperator hmark =>
      have hzero := hblank (Or.inl rfl) hrest
      exact lexeme_white hne hread hzero (h.operator hoperator) (h.mark hmark)
  | number hne hread hrest => exact lexeme_number hne hread (h.digit hrest)
  | name hname =>
      have hstops := (nameTail_append_iff.1 hname.tail).2
      apply lexeme_name_congr hl (h.stops hstops) ?_ h.lineEnd
      intro a ha
      obtain ⟨x, rfl⟩ := List.getLast?_eq_some_iff.1 ha
      have hoperator := (hname.inner x a [] rfl).operator
      exact SameEdge.of_operator hoperator (h.edge a hoperator) hstops (h.stops hstops)

/-- Any lexeme is found again before a text that no lexeme can tell from the one that follows. -/
theorem Alike.lexeme_eq {k : Option Kind} (h : Alike s s')
    (hl : lexeme c (read ++ s) = some ⟨k, read.length⟩) :
    lexeme c (read ++ s') = some ⟨k, read.length⟩ := by
  cases hend : atLineEnd s with
  | true =>
      cases s with
      | nil =>
          obtain rfl : s' = [] := List.head?_eq_none_iff.1 h.head
          exact hl
      | cons b u =>
          obtain rfl := eq_of_beq hend
          obtain ⟨u', rfl⟩ := List.head?_eq_some_iff.1 h.head
          have hmem : Ascii.newline ∈ read ++ [Ascii.newline] := by simp
          rw [List.append_cons, lexeme_append c hmem] at hl ⊢
          exact hl
  | false =>
      cases spelled_of_lexeme hl with
      | continuation hline => exact lexeme_continuation hline
      | comment _ hline =>
          rw [hline] at hend
          cases hend
      | rule _ _ hline =>
          rw [hline] at hend
          cases hend
      | newline => exact lexeme_newline c s'
      | inside hk =>
          have hne : s ≠ [] := by
            rintro rfl
            cases hend
          apply h.replaces.lexeme_eq hl hk hne
          intro _ hzero
          rwa [Text.blanks_eq_zero_iff, h.head, ← Text.blanks_eq_zero_iff]

theorem nameOver_append_blank (hread : ∀ b ∈ read, isBlank b = true) (h : nameOver s = true) :
    nameOver (read ++ s) = true := by
  induction read with
  | nil => exact h
  | cons b read ih =>
      exact nameOver_blank (hread b (by simp)) (ih fun a ha => hread a (by simp [ha]))

theorem Alike.of_edge (hne : read ≠ [])
    (hedge : ∀ a, read.dropWhile isBlank = [a] → SameEdge a s s')
    (hhigh : (∀ b ∈ read, isHigh b = true) → s'.takeWhile isHigh = s.takeWhile isHigh)
    (hstops : (∀ b ∈ read, isBlank b = true) → nameOver (read ++ s) = true →
      nameOver (read ++ s') = true)
    (hend : (∀ b ∈ read, isBlank b = true) → atLineEnd (s'.dropWhile isBlank) = true →
      atLineEnd (s.dropWhile isBlank) = true) :
    Alike (read ++ s) (read ++ s') := by
  have hsame : ∀ a, read = [a] → SameEdge a s s' := by
    rintro a rfl
    cases ha : isBlank a with
    | true => exact SameEdge.of_blank ha s s'
    | false => exact hedge a (by simp [ha])
  refine ⟨?_, operatorAt_append_congr hne hsame, commentMark_append_congr hne hsame, ?_, ?_, ?_⟩
  · rw [List.head?_append_of_ne_nil _ hne, List.head?_append_of_ne_nil _ hne]
  · rw [List.takeWhile_append, List.takeWhile_append]
    split
    case isTrue hall =>
      have hread : read.takeWhile isHigh = read :=
        (List.takeWhile_prefix isHigh).eq_of_length hall
      rw [hhigh (List.takeWhile_eq_self_iff.1 hread)]
    case isFalse => rfl
  · by_cases hblank : ∀ b ∈ read, isBlank b = true
    · exact hstops hblank
    · rw [nameOver_append_congr (by simpa using hblank) hedge]
      exact id
  · by_cases hblank : ∀ b ∈ read, isBlank b = true
    · rw [List.dropWhile_append_of_pos hblank, List.dropWhile_append_of_pos hblank]
      exact hend hblank
    · have hinked : ∃ b ∈ read, isBlank b = false := by simpa using hblank
      obtain ⟨b, v, hv⟩ := List.exists_cons_of_ne_nil (dropWhile_ne_nil_of_inked hinked)
      rw [(Text.dropWhile_append_of_inked hinked).1, (Text.dropWhile_append_of_inked hinked).1, hv]
      exact id

theorem formed_of_blank {k : Option Kind} (hl : lexeme c (read ++ s) = some ⟨k, read.length⟩)
    (hblank : ∀ b ∈ read, isBlank b = true) : Formed .white read s ∨ atLineEnd s = true := by
  have hnot : ∀ b, b ∈ read → isBlank b = false → False := by
    intro b hb hink
    rw [hblank b hb] at hink
    cases hink
  cases spelled_of_lexeme hl with
  | continuation hline =>
      exfalso
      apply hnot Ascii.backslash ?_ rfl
      rcases hline with hline | hline <;> simp [hline]
  | comment _ hend => exact Or.inr hend
  | rule _ _ hend => exact Or.inr hend
  | newline => exact (hnot _ (List.mem_singleton_self _) rfl).elim
  | inside hk =>
      left
      have hform := formed_of_lexeme hl hk
      obtain ⟨b, u, rfl⟩ := List.exists_cons_of_ne_nil (List.length_pos_iff.1 (lexeme_pos hl))
      rcases hform.white_of_first rfl (hblank b (by simp)) with rfl | rfl | ⟨op, rfl⟩
      · exact hform
      · obtain ⟨before, after, hread, -, -, -⟩ := hform.eq_pipe
        exact (hnot Ascii.bar (by simp [hread]) rfl).elim
      · obtain ⟨before, after, hread, -, -, -⟩ := hform.eq_binding
        obtain ⟨a, x, hsymbol⟩ : ∃ a x, op.symbol = a :: x := by
          cases op <;> exact ⟨_, _, rfl⟩
        exact (hnot a (by simp [hread, hsymbol])
          (op.symbol_head (s := after) a (by simp [hsymbol]))).elim

theorem nameOver_of_atLineEnd (h : atLineEnd s = true) : nameOver s = true := by
  cases s with
  | nil => rfl
  | cons b s =>
      obtain rfl := eq_of_beq h
      rfl

theorem Alike.append {k : Option Kind} (h : Alike s s')
    (hl : lexeme c (read ++ s) = some ⟨k, read.length⟩) : Alike (read ++ s) (read ++ s') := by
  have hread : read ≠ [] := List.length_pos_iff.1 (lexeme_pos hl)
  apply Alike.of_edge hread (fun a _ => SameEdge.of_head h.head a) (fun _ => h.high) ?_
    (fun _ => h.lineEnd)
  intro hblank hover
  apply nameOver_append_blank hblank
  apply h.stops
  rcases formed_of_blank hl hblank with hform | hend
  · cases hform with
    | white _ _ hrest _ hmark =>
        have hnone : commentMark.isPrefixOf s = false := by
          rw [← Bool.not_eq_true, List.isPrefixOf_iff_prefix]
          exact hmark
        rw [nameOver, List.dropWhile_append_of_pos hblank, Text.dropWhile_of_blanks hrest, hnone,
          Bool.and_false, Bool.or_false] at hover
        rw [nameOver, Text.dropWhile_of_blanks hrest, hover, Bool.true_or]
  · exact nameOver_of_atLineEnd hend

end

/-! ## Texts that start with a byte of no operator -/

/-- A byte that is the second one of no operator and no comment mark, and no later one of a code
point. -/
structure Plain (d : UInt8) : Prop where
  colon : d ≠ Ascii.colon
  bang : d ≠ Ascii.bang
  dash : d ≠ Ascii.dash
  low : isHigh d = false

section

variable {c : Context} {k : Kind} {read s y : Text} {d : UInt8}

theorem operatorAt_of_first {a : UInt8} (hbar : a ≠ Ascii.bar) (hcolon : a ≠ Ascii.colon)
    (hless : a ≠ Ascii.less) (t : Text) : operatorAt (a :: t) = none := by
  simp [operatorAt, hbar, hcolon, hless]

theorem Plain.operatorAt_eq (hd : Plain d) {a : UInt8} (ha : a ≠ Ascii.bar) (y : Text) :
    operatorAt (a :: d :: y) = none := by
  simp [operatorAt, ha, hd.colon, hd.bang, hd.dash]

theorem Plain.mark_eq (hd : Plain d) (a : UInt8) (y : Text) :
    commentMark.isPrefixOf (a :: d :: y) = false := by
  simp [commentMark, List.isPrefixOf, hd.dash.symm]

theorem SameEdge.of_plain {a : UInt8} (hd : Plain d)
    (hoperator : a = Ascii.bar ∨ operatorAt (a :: s) = none)
    (hmark : commentMark.isPrefixOf (a :: s) = false) : SameEdge a s (d :: y) := by
  refine ⟨?_, by rw [hd.mark_eq, hmark]⟩
  by_cases ha : a = Ascii.bar
  · rw [ha]
    rfl
  · rw [hd.operatorAt_eq ha, hoperator.resolve_left ha]

theorem plain_backslash : Plain Ascii.backslash := ⟨by decide, by decide, by decide, rfl⟩

theorem plain_newline : Plain Ascii.newline := ⟨by decide, by decide, by decide, rfl⟩

theorem plain_blank (hd : isBlank d = true) : Plain d := by
  rcases Text.isBlank_iff.1 hd with rfl | rfl | rfl <;> exact ⟨by decide, by decide, by decide, rfl⟩

/-- A token ends so that no operator and no comment mark is made of its last byte and what follows,
the pipe apart. -/
theorem Formed.last_edge (h : Formed k read s) (hs : s ≠ []) {a : UInt8}
    (ha : read.dropWhile isBlank = [a]) :
    (a = Ascii.bar ∨ operatorAt (a :: s) = none) ∧ commentMark.isPrefixOf (a :: s) = false := by
  have hmark : ∀ b u, b ≠ Ascii.dash → commentMark.isPrefixOf (b :: u) = false := by
    intro b u hb
    simp [commentMark, List.isPrefixOf, hb.symm]
  cases h with
  | pipe hbefore =>
      rw [List.dropWhile_append_of_pos hbefore] at ha
      obtain ⟨rfl, -⟩ := List.cons.inj ha
      exact ⟨Or.inl rfl, hmark _ _ (by decide)⟩
  | @binding op before after _ hbefore =>
      rw [List.dropWhile_append_of_pos hbefore] at ha
      cases op <;> cases (List.cons.inj ha).2
  | @opening b =>
      rw [List.dropWhile_cons_of_neg (by simp [b.isBlank_opener])] at ha
      obtain ⟨rfl, -⟩ := List.cons.inj ha
      cases b <;> exact ⟨Or.inr rfl, rfl⟩
  | @closing b =>
      rw [List.dropWhile_cons_of_neg (by simp [b.isBlank_closer])] at ha
      obtain ⟨rfl, -⟩ := List.cons.inj ha
      cases b <;> exact ⟨Or.inr rfl, rfl⟩
  | escape hr => exact absurd (List.cons.inj ha).2 (escaped_ne_nil hs hr)
  | white _ hread =>
      rw [List.dropWhile_eq_nil_iff.2 hread] at ha
      cases ha
  | number _ hread =>
      have hdigit : isDigit a = true := by
        apply hread
        apply List.dropWhile_subset isBlank
        rw [ha]
        exact List.mem_singleton_self a
      have hother : ∀ b, isDigit b = false → a ≠ b := by
        rintro b hb rfl
        rw [hdigit] at hb
        cases hb
      exact ⟨Or.inr (operatorAt_of_first (hother _ rfl) (hother _ rfl) (hother _ rfl) s),
        hmark a s (hother _ rfl)⟩
  | name h =>
      obtain ⟨x, hx⟩ : ∃ x, read = x ++ [a] :=
        ⟨_, by rw [← ha, List.takeWhile_append_dropWhile]⟩
      have hstops := (nameTail_append_iff.1 h.tail).2
      refine ⟨Or.inr (h.inner x a [] hx).operator, ?_⟩
      rw [← Bool.not_eq_true, List.isPrefixOf_iff_prefix]
      rintro ⟨v, hv⟩
      rw [← (List.cons.inj hv).2] at hstops
      cases hstops

theorem isHigh_digit {b : UInt8} (h : isDigit b = true) : isHigh b = false := by
  have hle : b ≤ Ascii.nine := by simpa using (Bool.and_eq_true_iff.1 h).2
  have hlt : b < 0x80 := UInt8.lt_of_le_of_lt hle (by decide)
  simpa [isHigh] using hlt

theorem takeWhile_isHigh_of_nameOver (h : nameOver s = true) : s.takeWhile isHigh = [] := by
  cases s with
  | nil => rfl
  | cons b s =>
      cases hb : isHigh b with
      | false => simp [hb]
      | true =>
          have hother : ∀ a, isHigh a = false → b ≠ a := by
            rintro a ha rfl
            rw [hb] at ha
            cases ha
          have hblank : isBlank b = false := by
            simp [isBlank, hother Ascii.space rfl, hother Ascii.tab rfl,
              hother Ascii.carriageReturn rfl]
          have hends : endsName (b :: s) = false := by
            simp [endsName, bracketKind, hother Ascii.nul rfl, hother Ascii.newline rfl,
              hother Ascii.backslash rfl, hother Ascii.parenOpen rfl, hother Ascii.parenClose rfl,
              hother Ascii.braceOpen rfl, hother Ascii.braceClose rfl,
              operatorAt_of_first (hother Ascii.bar rfl) (hother Ascii.colon rfl)
                (hother Ascii.less rfl)]
          simp [nameOver, blanks, hblank, hends] at h

theorem Formed.takeWhile_isHigh (h : Formed k read s) (hread : ∀ b ∈ read, isHigh b = true) :
    s.takeWhile isHigh = [] := by
  have hlow : ∀ b, b ∈ read → isHigh b = false → s.takeWhile isHigh = [] := by
    intro b hb hlow
    rw [hread b hb] at hlow
    cases hlow
  cases h with
  | pipe => exact hlow Ascii.bar (by simp) rfl
  | @binding op =>
      cases op
      · exact hlow Ascii.colon (by simp [Binding.symbol]) rfl
      · exact hlow Ascii.colon (by simp [Binding.symbol]) rfl
      · exact hlow Ascii.less (by simp [Binding.symbol]) rfl
      · exact hlow Ascii.less (by simp [Binding.symbol]) rfl
  | @opening b => exact hlow _ (List.mem_singleton_self _) (by cases b <;> rfl)
  | @closing b => exact hlow _ (List.mem_singleton_self _) (by cases b <;> rfl)
  | escape => exact hlow Ascii.backslash (by simp) rfl
  | white hne hblank =>
      obtain ⟨b, u, rfl⟩ := List.exists_cons_of_ne_nil hne
      exact hlow b (by simp) (plain_blank (hblank b (by simp))).low
  | number hne hdigit =>
      obtain ⟨b, u, rfl⟩ := List.exists_cons_of_ne_nil hne
      exact hlow b (by simp) (isHigh_digit (hdigit b (by simp)))
  | name h => exact takeWhile_isHigh_of_nameOver (nameTail_append_iff.1 h.tail).2

theorem Replaces.of_plain (hd : Plain d) (hdigit : isDigit d = false) (hnewline : d ≠ Ascii.newline)
    (hoperator : operatorAt (d :: y) = none)
    (hstops : nameOver s = true → nameOver (d :: y) = true)
    (hend : atLineEnd ((d :: y).dropWhile isBlank) = true →
      atLineEnd (s.dropWhile isBlank) = true) : Replaces s (d :: y) where
  digit _ b hb := by rwa [← Option.some.inj hb]
  newline h := absurd (Option.some.inj h) hnewline
  operator _ := hoperator
  mark _ h := by
    obtain ⟨u, hu⟩ := h
    exact hd.dash (List.cons.inj hu).1.symm
  edge a ha := by
    by_cases hbar : a = Ascii.bar
    · rw [hbar] at ha
      cases ha
    · exact hd.operatorAt_eq hbar y
  bytes a x hx := by
    apply CodePoint.bytes_ofLead_append hx
    intro b hb
    rw [← Option.some.inj hb]
    exact hd.low
  stops := hstops
  lineEnd := hend

theorem eq_newline_of_lexeme (hl : lexeme c (read ++ s) = some ⟨some .newline, read.length⟩) :
    read = [Ascii.newline] := by
  cases spelled_of_lexeme hl with
  | rule hk => rcases hk with hk | hk <;> cases hk
  | newline => rfl
  | inside hk => cases hk

theorem kind_of_lexeme (hl : lexeme c (read ++ s) = some ⟨some k, read.length⟩) :
    k.isInside = true ∨ (k = .rule ∨ k = .doubleRule) ∨ k = .newline := by
  cases spelled_of_lexeme hl with
  | rule hk => exact Or.inr (Or.inl hk)
  | newline => exact Or.inr (Or.inr rfl)
  | inside hk => exact Or.inl hk

theorem replaces_backslash (s y : Text) : Replaces s (Ascii.backslash :: y) :=
  .of_plain plain_backslash rfl (by decide) rfl (fun _ => rfl) nofun

theorem alike_backslash (hl : lexeme c (read ++ s) = some ⟨some k, read.length⟩)
    (hk : k.isInside = true ∨ k = .newline) (hs : s ≠ []) (y : Text) :
    Alike (read ++ s) (read ++ Ascii.backslash :: y) := by
  have hedge : (∀ a, read.dropWhile isBlank = [a] →
      (a = Ascii.bar ∨ operatorAt (a :: s) = none) ∧ commentMark.isPrefixOf (a :: s) = false) ∧
      ((∀ b ∈ read, isHigh b = true) → s.takeWhile isHigh = []) := by
    rcases hk with hk | rfl
    · have hform := formed_of_lexeme hl hk
      exact ⟨fun a ha => hform.last_edge hs ha, hform.takeWhile_isHigh⟩
    · obtain rfl := eq_newline_of_lexeme hl
      refine ⟨?_, fun hhigh => by cases hhigh Ascii.newline (List.mem_singleton_self _)⟩
      intro a ha
      obtain ⟨rfl, -⟩ := List.cons.inj ha
      exact ⟨Or.inr rfl, rfl⟩
  apply Alike.of_edge (List.length_pos_iff.1 (lexeme_pos hl))
  · intro a ha
    exact SameEdge.of_plain plain_backslash (hedge.1 a ha).1 (hedge.1 a ha).2
  · intro hhigh
    rw [hedge.2 hhigh]
    rfl
  · exact fun hblank _ => nameOver_append_blank hblank rfl
  · exact fun _ => nofun

theorem replaces_blank (hd : isBlank d = true) (hstops : nameOver (d :: y) = true) (u : Text) :
    Replaces (Ascii.newline :: u) (d :: y) := by
  apply Replaces.of_plain (plain_blank hd) ?_ ?_ (operatorAt_blank hd y) (fun _ => hstops)
    (fun _ => rfl)
  · rcases Text.isBlank_iff.1 hd with rfl | rfl | rfl <;> rfl
  · rintro rfl
    cases hd

theorem alike_blank (hread : read ≠ []) (hd : isBlank d = true) (hstops : nameOver (d :: y) = true)
    (u : Text) : Alike (read ++ Ascii.newline :: u) (read ++ d :: y) := by
  apply Alike.of_edge hread
  · intro a _
    apply SameEdge.of_plain (plain_blank hd) ?_ (plain_newline.mark_eq a u)
    exact or_iff_not_imp_left.2 fun ha => plain_newline.operatorAt_eq ha u
  · intro _
    rw [List.takeWhile_cons_of_neg (by simp [(plain_blank hd).low]),
      List.takeWhile_cons_of_neg (by simp [plain_newline.low])]
  · exact fun hblank _ => nameOver_append_blank hblank hstops
  · exact fun _ _ => rfl

end

/-! ## The way to a place in a text -/

/-- Scanning `x ++ r` from the offset `p` reads `x` as the tokens `ts` and comes to `r` in the
context `c'`. -/
inductive Passes (c : Context) (p : Nat) : Text → List Token → Context → Text → Prop where
  | nil {r : Text} : Passes c p [] [] c r
  | snoc {x read r : Text} {ts : List Token} {c' : Context} {k : Option Kind}
      (h : Passes c p x ts c' (read ++ r)) (hl : lexeme c' (read ++ r) = some ⟨k, read.length⟩) :
      Passes c p (x ++ read) (ts ++ Lexeme.token ⟨k, read.length⟩ read (p + x.length))
        (c'.after ⟨k, read.length⟩ read) r

namespace Passes

variable {c c' : Context} {p : Nat} {x r r' : Text} {ts : List Token}

theorem scanFrom_eq (h : Passes c p x ts c' r) :
    scanFrom c p (x ++ r) = ts ++ scanFrom c' (p + x.length) r := by
  induction h with
  | nil => rfl
  | snoc h hl ih =>
      rw [List.append_assoc, ih, scanFrom_append hl, List.append_assoc, List.length_append,
        Nat.add_assoc]

theorem alike (h : Passes c p x ts c' r) (hr : Alike r r') : Passes c p x ts c' r' := by
  induction h generalizing r' with
  | nil => exact .nil
  | snoc h hl ih => exact .snoc (ih (hr.append hl)) (hr.lexeme_eq hl)

theorem cons {read : Text} {k : Option Kind}
    (hl : lexeme c (read ++ (x ++ r)) = some ⟨k, read.length⟩)
    (h : Passes (c.after ⟨k, read.length⟩ read) (p + read.length) x ts c' r) :
    Passes c p (read ++ x) (Lexeme.token ⟨k, read.length⟩ read p ++ ts) c' r := by
  induction h with
  | nil =>
      rw [List.append_nil, List.append_nil]
      exact .snoc .nil hl
  | @snoc x read' r ts c' k' h hl' ih =>
      have hstep := Passes.snoc (ih (by rwa [List.append_assoc] at hl)) hl'
      rwa [List.append_assoc, List.append_assoc, List.length_append, ← Nat.add_assoc] at hstep

theorem stop_le (h : Passes c p x ts c' r) : ∀ u ∈ ts, u.stop ≤ (p + x.length : Nat) := by
  induction h with
  | nil => simp
  | @snoc x read r ts c' k h hl ih =>
      intro u hu
      rw [List.length_append]
      rcases List.mem_append.1 hu with hu | hu
      · have hle := ih u hu
        omega
      · cases k with
        | none => cases hu
        | some k =>
            obtain rfl := List.mem_singleton.1 hu
            simp only [stop]
            omega

end Passes

/-- A token of a text is reached by passing the tokens before it. -/
theorem exists_passes {c : Context} {p : Nat} {t : Text} {ts vs : List Token} {v : Token}
    (h : scanFrom c p t = ts ++ v :: vs) (hv : v.kind ≠ .eof) :
    ∃ x read rest c', t = x ++ (read ++ rest) ∧ Passes c p x ts c' (read ++ rest) ∧
      lexeme c' (read ++ rest) = some ⟨some v.kind, read.length⟩ ∧
      v = ⟨v.kind, read, (p + x.length : Nat)⟩ := by
  induction c, p, t using scan_induction generalizing ts with
  | nil c p =>
      rw [scanFrom_nil] at h
      have hmem : v ∈ [(⟨.eof, [], p⟩ : Token)] := by simp [h]
      rw [List.mem_singleton.1 hmem] at hv
      exact absurd rfl hv
  | step c p k read rest hread hl hsp ih =>
      rw [scanFrom_append hl] at h
      have hlater : ∀ us, scanFrom (c.after ⟨k, read.length⟩ read) (p + read.length) rest =
          us ++ v :: vs → ts = Lexeme.token ⟨k, read.length⟩ read p ++ us →
          ∃ x read' rest' c', read ++ rest = x ++ (read' ++ rest') ∧
            Passes c p x ts c' (read' ++ rest') ∧
            lexeme c' (read' ++ rest') = some ⟨some v.kind, read'.length⟩ ∧
            v = ⟨v.kind, read', (p + x.length : Nat)⟩ := by
        rintro us hus rfl
        obtain ⟨x, read', rest', c', rfl, hpass, hl', hv'⟩ := ih hus
        refine ⟨read ++ x, read', rest', c', by rw [List.append_assoc], hpass.cons hl, hl', ?_⟩
        rwa [List.length_append, ← Nat.add_assoc]
      cases k with
      | none => exact hlater ts h rfl
      | some k =>
          cases ts with
          | nil =>
              obtain ⟨rfl, -⟩ := List.cons.inj h
              exact ⟨[], read, rest, c, rfl, .nil, hl, rfl⟩
          | cons u ts =>
              obtain ⟨rfl, hrest⟩ := List.cons.inj h
              exact hlater ts hrest rfl

end Token

end PoolProse
