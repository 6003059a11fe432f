import PoolProse.Proofs.Gapless
import PoolProse.Proofs.LineReading

/-!
# Tokens that spell a rendering

An expression is written as the texts of its segments one after the other. A line is canonical if
each of its tokens is written as the expression that it stands for would be. A canonical line that
spells the source of an expression is read as that expression.
-/
namespace PoolProse

open Text (isBlank blanks Trimmed)

theorem Text.dropWhile_of_blanks {t : Text} (h : blanks t = 0) : t.dropWhile isBlank = t := by
  rw [← drop_takeWhile_length, ← blanks, h, List.drop_zero]

namespace Expr

/-! ## The source of a row of segments -/

/-- Segments in a row: literals with the property `P`, none empty and none next to another, and
groups around pool names that are again such rows. -/
inductive Row (P : Text → Prop) : List Expr → Prop where
  | nil : Row P []
  | lit {s : Text} {es : List Expr} (hne : s ≠ []) (hs : P s) (hes : ∀ t fs, es ≠ .lit t :: fs)
      (h : Row P es) : Row P (.lit s :: es)
  | group {b : Bracket} {name es : List Expr} (hname : Row P name) (h : Row P es) :
      Row P (.group b (.mixAll name) :: es)

/-- One segment of a row. -/
def IsSegment (P : Text → Prop) (e : Expr) : Prop :=
  (∃ s, s ≠ [] ∧ P s ∧ e = .lit s) ∨ ∃ b name, Row P name ∧ e = .group b (.mixAll name)

theorem Row.isSegment {P : Text → Prop} {es : List Expr} (h : Row P es) {e : Expr} (he : e ∈ es) :
    IsSegment P e := by
  induction h with
  | nil => simp at he
  | @lit s es hne hs _ _ ih =>
      rcases List.mem_cons.1 he with rfl | he
      · exact Or.inl ⟨s, hne, hs, rfl⟩
      · exact ih he
  | @group b name es hname _ _ ih =>
      rcases List.mem_cons.1 he with rfl | he
      · exact Or.inr ⟨b, name, hname, rfl⟩
      · exact ih he

theorem escapeText_append (s t : Text) : escapeText (s ++ t) = escapeText s ++ escapeText t :=
  List.flatMap_append

theorem spells_render : Spells (· ++ ·) render where
  assoc := List.append_assoc
  empty_op _ := by rw [render]; rfl
  op_empty _ := by rw [render]; exact List.append_nil _
  lit s t := by rw [render, render, render, escapeText_append]
  mix l r := by rw [render]

theorem render_mixAll (es : List Expr) : render (mixAll es) = es.flatMap render := by
  rw [spells_render.mixAll, row_append_eq_flatMap (by rw [render]; rfl)]

theorem render_concat (es : List Expr) : render (concat es) = es.flatMap render := by
  rw [spells_render.concat, row_append_eq_flatMap (by rw [render]; rfl)]

theorem render_group (b : Bracket) (e : Expr) :
    render (group b e) = b.opener :: (render e ++ [b.closer]) := by
  cases b <;> rw [group, render] <;> rfl

theorem Row.cases_group {P : Text → Prop} {es : List Expr} (h : Row P es)
    (hes : ∀ t fs, es ≠ .lit t :: fs) :
    es = [] ∨ ∃ b u, ∀ rest, es.flatMap render ++ rest = Bracket.opener b :: (u ++ rest) := by
  cases h with
  | nil => exact Or.inl rfl
  | lit => exact absurd rfl (hes _ _)
  | @group b name es hname h =>
      refine Or.inr ⟨b, render (mixAll name) ++ [b.closer] ++ es.flatMap render, ?_⟩
      intro rest
      rw [List.flatMap_cons, render_group]
      simp

theorem renderMore_cons (e : Expr) (es : List Expr) : renderMore (e :: es) =
    Ascii.space :: Ascii.bar :: Ascii.space :: (render e ++ renderMore es) := by
  rw [renderMore]

theorem joinFront_lit {s : Text} {es : List Expr} (h : ∀ t fs, es ≠ .lit t :: fs) :
    joinFront (.lit s) es = .lit s :: es := by
  unfold joinFront
  split
  case h_1 => exact absurd rfl (h _ _)
  case h_2 => rfl

theorem joinFront_group (b : Bracket) (e : Expr) (es : List Expr) :
    joinFront (group b e) es = group b e :: es := by
  cases b <;> rfl

theorem escapeText_cons (b : UInt8) (s : Text) :
    escapeText (b :: s) = escapeByte b ++ escapeText s :=
  List.flatMap_cons

theorem escapeText_ne_nil {s : Text} (h : s ≠ []) : escapeText s ≠ [] := by
  cases s with
  | nil => exact absurd rfl h
  | cons b s =>
      rw [escapeText_cons]
      rcases escapeByte_cases b with ⟨hb, -⟩ | ⟨x, -, hb, -⟩ <;> simp [hb]

theorem escapeText_plain {s : Text} (h : ∀ b ∈ s, escapeByte b = [b]) : escapeText s = s := by
  induction s with
  | nil => rfl
  | cons b s ih =>
      obtain ⟨hb, hs⟩ := List.forall_mem_cons.1 h
      rw [escapeText_cons, hb, ih hs, List.singleton_append]

theorem tab_not_mem_escapeText (s : Text) : Ascii.tab ∉ escapeText s := by
  induction s with
  | nil => simp [escapeText]
  | cons b s ih =>
      rw [escapeText_cons, List.mem_append, not_or]
      refine ⟨?_, ih⟩
      rcases escapeByte_cases b with ⟨hb, -, htab, -⟩ | ⟨x, hx, hb, -⟩
      · rw [hb, List.mem_singleton]
        exact Ne.symm htab
      · rw [hb]
        intro hmem
        rcases List.mem_cons.1 hmem with hmem | hmem
        · exact absurd hmem (by decide)
        · have hblank := (escapeLetters_plain hx).2.2.1
          rw [← List.mem_singleton.1 hmem] at hblank
          cases hblank

theorem Row.sealed {P : Text → Prop} {es : List Expr} (h : Row P es) :
    Sealed (es.flatMap render) ∧ Ascii.tab ∉ es.flatMap render := by
  induction h with
  | nil => exact ⟨.nil, by simp⟩
  | @lit s es _ _ _ _ ih =>
      rw [List.flatMap_cons, render]
      exact ⟨(sealed_escapeText s).append ih.1, by
        rw [List.mem_append, not_or]
        exact ⟨tab_not_mem_escapeText s, ih.2⟩⟩
  | @group b name es _ _ ihname ih =>
      rw [List.flatMap_cons, render_group, render_mixAll]
      have hbrackets : Sealed [b.opener] ∧ Sealed [b.closer] ∧ Ascii.tab ≠ b.opener ∧
          Ascii.tab ≠ b.closer := by
        cases b
        all_goals
          exact ⟨.plain (by decide) (by decide) .nil, .plain (by decide) (by decide) .nil,
            by decide, by decide⟩
      obtain ⟨hopen, hclose, hopen', hclose'⟩ := hbrackets
      have hgroup := ((hopen.append ihname.1).append hclose).append ih.1
      refine ⟨by simpa using hgroup, ?_⟩
      simp [hopen', hclose', ihname.2, ih.2]

theorem escapeText_head {a b : UInt8} {s u v : Text} (h : escapeText (a :: s) ++ u = b :: v) :
    Token.bracketKind b = none ∧ b ≠ Ascii.bar := by
  rw [escapeText_cons] at h
  rcases escapeByte_cases a with ⟨ha, -, -, -, hbracket, hbar⟩ | ⟨x, -, ha, -⟩
  · rw [ha] at h
    obtain ⟨rfl, -⟩ := List.cons.inj h
    exact ⟨hbracket, hbar⟩
  · rw [ha] at h
    obtain ⟨rfl, -⟩ := List.cons.inj h
    exact ⟨rfl, by decide⟩

theorem escapeByte_append_inj {a b : UInt8} {u v : Text}
    (h : escapeByte a ++ u = escapeByte b ++ v) : a = b ∧ u = v := by
  rcases escapeByte_cases a with ⟨ha, -, -, hna, -, -⟩ | ⟨x, -, ha, hxa⟩ <;>
    rcases escapeByte_cases b with ⟨hb, -, -, hnb, -, -⟩ | ⟨y, -, hb, hyb⟩ <;>
    rw [ha, hb] at h
  · exact List.cons.inj h
  · exact absurd (List.cons.inj h).1 hna
  · exact absurd (List.cons.inj h).1.symm hnb
  · obtain ⟨-, h⟩ := List.cons.inj h
    obtain ⟨rfl, rfl⟩ := List.cons.inj h
    exact ⟨List.singleton_inj.1 (hxa.symm.trans hyb), rfl⟩

theorem escapeText_append_cases {s t u v : Text} (h : escapeText s ++ u = escapeText t ++ v) :
    (∃ w, t = s ++ w ∧ u = escapeText w ++ v) ∨
      ∃ w, w ≠ [] ∧ s = t ++ w ∧ v = escapeText w ++ u := by
  induction s generalizing t with
  | nil => exact Or.inl ⟨t, rfl, h⟩
  | cons a s ih =>
      cases t with
      | nil => exact Or.inr ⟨a :: s, by simp, rfl, h.symm⟩
      | cons b t =>
          rw [escapeText_cons, escapeText_cons, List.append_assoc, List.append_assoc] at h
          obtain ⟨rfl, htail⟩ := escapeByte_append_inj h
          rcases ih htail with ⟨w, rfl, hu⟩ | ⟨w, hw, rfl, hv⟩
          · exact Or.inl ⟨w, rfl, hu⟩
          · exact Or.inr ⟨w, hw, rfl, hv⟩

end Expr

/-! ## Canonical lines -/

/-- The token is written as the literal or bracket that it is. -/
structure Token.Exact (t : Token) : Prop where
  ne_nil : t.text ≠ []
  literal : ∀ s, t.literal? = some s → t.text = Expr.escapeText s
  opening : ∀ b, t.kind = .opening b → t.text = [b.opener]
  closing : ∀ b, t.kind = .closing b → t.text = [b.closer]
  white : t.isWhite = true → ∀ b ∈ t.text, isBlank b = true
  trimmed : t.isWhite = false → t.kind ≠ .pipe → Trimmed t.text

theorem Token.Exact.trimmed_text {t : Token} {s : Text} (h : t.Exact) (hs : t.literal? = some s)
    (hwhite : t.isWhite = false) : Trimmed t.text := by
  apply h.trimmed hwhite
  intro hk
  simp [literal?, hk] at hs

namespace Line

/-- Texts, brackets and bars, each written as the expression around it would be. No white space
stands before a bar or after it. -/
inductive Canonical : List Token → Prop where
  | nil : Canonical []
  | text {t : Token} {s : Text} {ts : List Token} (ht : t.Exact) (hs : t.literal? = some s)
      (hbar : t.isWhite = true → ∀ u, ts.flatMap Token.text ≠ Ascii.bar :: u)
      (h : Canonical ts) : Canonical (t :: ts)
  | opening {t : Token} {b : Bracket} {ts : List Token} (ht : t.Exact) (hk : t.kind = .opening b)
      (h : Canonical ts) : Canonical (t :: ts)
  | closing {t : Token} {b : Bracket} {ts : List Token} (ht : t.Exact) (hk : t.kind = .closing b)
      (h : Canonical ts) : Canonical (t :: ts)
  | pipe {t : Token} {before after : Text} {ts : List Token} (ht : t.Exact) (hk : t.kind = .pipe)
      (htext : t.text = before ++ Ascii.bar :: after)
      (hbefore : ∀ b ∈ before, isBlank b = true ∧ b ≠ Ascii.tab)
      (hafter : ∀ b ∈ after, isBlank b = true) (hrest : blanks (ts.flatMap Token.text) = 0)
      (h : Canonical ts) : Canonical (t :: ts)

theorem Canonical.exact {ts : List Token} (h : Canonical ts) : ∀ t ∈ ts, t.Exact := by
  induction h with
  | nil => simp
  | text ht _ _ _ ih => exact List.forall_mem_cons.2 ⟨ht, ih⟩
  | opening ht _ _ ih => exact List.forall_mem_cons.2 ⟨ht, ih⟩
  | closing ht _ _ ih => exact List.forall_mem_cons.2 ⟨ht, ih⟩
  | pipe ht _ _ _ _ _ _ ih => exact List.forall_mem_cons.2 ⟨ht, ih⟩

theorem Canonical.eq_nil {ts : List Token} (h : Canonical ts)
    (hts : ts.flatMap Token.text = []) : ts = [] := by
  rw [List.eq_nil_iff_forall_not_mem]
  intro t ht
  exact (h.exact t ht).ne_nil (List.flatMap_eq_nil_iff.1 hts t ht)

end Line

namespace Token

theorem NameForm.escapeText_eq {read rest : Text} (h : NameForm read rest)
    (htab : Ascii.tab ∉ read) : Expr.escapeText read = read := by
  apply Expr.escapeText_plain
  intro b hb
  obtain ⟨x, y, rfl⟩ := List.append_of_mem hb
  have hinner := h.inner x b y rfl
  apply Expr.escapeByte_plain hinner.newline _ hinner.backslash hinner.bracket
  · rintro rfl
    cases hinner.operator
  · rintro rfl
    exact htab hb

theorem escapeByte_digit {b : UInt8} (h : Text.isDigit b = true) : Expr.escapeByte b = [b] := by
  have hne : ∀ a, Text.isDigit a = false → b ≠ a := by
    rintro a ha rfl
    rw [h] at ha
    cases ha
  apply Expr.escapeByte_plain (hne _ rfl) (hne _ rfl) (hne _ rfl) _ (hne _ rfl)
  cases hb : bracketKind b with
  | none => rfl
  | some k =>
      rcases bracketKind_cases hb with ⟨br, -, rfl⟩ | ⟨br, -, rfl⟩ <;> cases br <;> cases h

theorem isBlank_digit {b : UInt8} (h : Text.isDigit b = true) : isBlank b = false := by
  rw [← Bool.not_eq_true]
  intro hb
  rcases Text.isBlank_iff.1 hb with rfl | rfl | rfl <;> cases h

theorem escapeByte_blank {b : UInt8} (h : isBlank b = true) (htab : b ≠ Ascii.tab) :
    Expr.escapeByte b = [b] := by
  rcases Text.isBlank_iff.1 h with rfl | rfl | rfl
  · rfl
  · exact absurd rfl htab
  · rfl

theorem trimmed_of_forall {t : Text} (h : ∀ b ∈ t, isBlank b = false) : Trimmed t :=
  ⟨fun b hb => h b (List.mem_of_mem_head? hb), fun b hb => h b (List.mem_of_mem_getLast? hb)⟩

theorem Formed.exact {t : Token} {rest : Text} (h : Formed t.kind t.text rest)
    (hs : Expr.Sealed (t.text ++ rest)) (htab : Ascii.tab ∉ t.text)
    (hbinding : ∀ op, t.kind ≠ .binding op) : t.Exact := by
  obtain ⟨k, read, offset⟩ := t
  simp only at h hs htab hbinding
  cases h with
  | pipe => exact ⟨by simp, by simp [literal?], by simp, by simp, by simp [isWhite], by simp⟩
  | @binding op => exact absurd rfl (hbinding op)
  | @opening b =>
      refine ⟨by simp, by simp [literal?], by simp, by simp, by simp [isWhite], ?_⟩
      intro _ _
      apply trimmed_of_forall
      simp [Bracket.isBlank_opener]
  | @closing b =>
      refine ⟨by simp, by simp [literal?], by simp, by simp, by simp [isWhite], ?_⟩
      intro _ _
      apply trimmed_of_forall
      simp [Bracket.isBlank_closer]
  | @escape r _ hr =>
      obtain ⟨x, hx, htext⟩ := (Formed.escape hr).eq_escape hs
      obtain rfl := (List.cons.inj htext).2
      refine ⟨by simp, ?_, by simp, by simp, by simp [isWhite], ?_⟩
      · intro s hlit
        obtain rfl := Option.some.inj hlit
        exact (Expr.escapeText_decodeEscape hx).symm
      · intro _ _
        apply trimmed_of_forall
        have hbackslash : isBlank Ascii.backslash = false := rfl
        simp [hbackslash, (Expr.escapeLetters_plain hx).2.2.1]
  | white hne hread =>
      refine ⟨hne, ?_, by simp, by simp, fun _ => hread, by simp [isWhite]⟩
      intro s hlit
      obtain rfl := Option.some.inj hlit
      symm
      apply Expr.escapeText_plain
      intro b hb
      exact escapeByte_blank (hread b hb) (by rintro rfl; exact htab hb)
  | number hne hread =>
      refine ⟨hne, ?_, by simp, by simp, by simp [isWhite], ?_⟩
      · intro s hlit
        obtain rfl := Option.some.inj hlit
        exact (Expr.escapeText_plain fun b hb => escapeByte_digit (hread b hb)).symm
      · intro _ _
        exact trimmed_of_forall fun b hb => isBlank_digit (hread b hb)
  | name h =>
      refine ⟨h.ne_nil, ?_, by simp, by simp, by simp [isWhite], ?_⟩
      · intro s hlit
        obtain rfl := Option.some.inj hlit
        exact (h.escapeText_eq htab).symm
      · intro _ _
        exact ⟨fun b hb => (h.first b hb).1, h.last⟩

/-- Sealed source without tabs that binds nothing is canonical if it is scanned without a gap. -/
theorem Gapless.canonical {c : Context} {ts : List Token} (h : Gapless c ts)
    (hs : Expr.Sealed (ts.flatMap text)) (htab : Ascii.tab ∉ ts.flatMap text)
    (hbinding : ∀ t ∈ ts, ∀ op, t.kind ≠ .binding op) : Line.Canonical ts := by
  induction ts generalizing c with
  | nil => exact .nil
  | cons t ts ih =>
      obtain ⟨ht, hbinding⟩ := List.forall_mem_cons.1 hbinding
      rw [List.flatMap_cons] at hs htab
      rw [List.mem_append, not_or] at htab
      have hform := h.formed
      have hexact := hform.exact hs htab.1 ht
      have hts := ih h.2.2 (h.sealed hs) htab.2 hbinding
      rcases Line.token_cases h.2.1 with ⟨s, hlit⟩ | ⟨b, hk⟩ | ⟨b, hk⟩ | hk | ⟨op, hk⟩
      · refine .text hexact hlit ?_ hts
        intro hwhite u hu
        rw [eq_of_beq hwhite] at hform
        cases hform with
        | white _ _ _ hoperator =>
            rw [hu] at hoperator
            cases hoperator
      · exact .opening hexact hk hts
      · exact .closing hexact hk hts
      · rw [hk] at hform
        obtain ⟨before, after, htext, hbefore, hafter, hrest⟩ := hform.eq_pipe
        refine .pipe hexact hk htext ?_ hafter hrest hts
        intro b hb
        refine ⟨hbefore b hb, ?_⟩
        rintro rfl
        exact htab.1 (by simp [htext, hb])
      · exact absurd hk (ht op)

end Token

namespace Line

/-! ## Reading a rendering -/

theorem Segments.append {ts us : List Token} {es fs : List Expr} (h : Segments ts es)
    (h' : Segments us fs) : Segments (ts ++ us) (es ++ fs) := by
  induction h with
  | nil => exact h'
  | text ht _ ih => exact .text ht ih
  | group ho hc hinner _ _ ih =>
      rw [List.cons_append, List.append_assoc]
      exact .group ho hc hinner ih

/-- What may follow a literal in a rendering: nothing, a bracket, or the bar before the next
item. -/
def Halts (t : Text) : Prop :=
  t = [] ∨ (∃ b u, t = b :: u ∧ Token.bracketKind b ≠ none) ∨
    ∃ u, t = Ascii.space :: Ascii.bar :: u

theorem halts_bracket {b : UInt8} {k : Token.Kind} (h : Token.bracketKind b = some k) (t : Text) :
    Halts (b :: t) :=
  Or.inr (Or.inl ⟨b, t, rfl, by simp [h]⟩)

/-- A space after the source `t` is not part of its last literal: no blank stands before it. -/
def Parted (t rest : Text) : Prop :=
  rest.head? = some Ascii.space → ∀ b ∈ t.getLast?, isBlank b = false

theorem Parted.of_append {u v rest : Text} (h : Parted (u ++ v) rest) : Parted v rest := by
  intro hspace b hb
  apply h hspace b
  rw [List.getLast?_append, hb]
  rfl

theorem parted_of_not_blank {b : UInt8} (h : isBlank b = false) (t rest : Text) :
    Parted t (b :: rest) := by
  intro hspace
  rw [Option.some.inj hspace] at h
  cases h

theorem Halts.eq_space {t u s : Text} (h : Halts t) (hs : s ≠ [])
    (hcat : t = Expr.escapeText s ++ u) :
    s = [Ascii.space] ∧ ∃ v, u = Ascii.bar :: v := by
  cases s with
  | nil => exact absurd rfl hs
  | cons a s =>
      rcases h with rfl | ⟨b, v, rfl, hb⟩ | ⟨v, rfl⟩
      · have hne := Expr.escapeText_ne_nil hs
        simp [hne] at hcat
      · exact absurd (Expr.escapeText_head hcat.symm).1 hb
      · rw [Expr.escapeText_cons, List.append_assoc] at hcat
        have hspace : Ascii.space :: Ascii.bar :: v =
            Expr.escapeByte Ascii.space ++ (Ascii.bar :: v) := rfl
        rw [hspace] at hcat
        obtain ⟨rfl, htail⟩ := Expr.escapeByte_append_inj hcat
        cases s with
        | nil => exact ⟨rfl, v, htail.symm⟩
        | cons a s => exact absurd rfl (Expr.escapeText_head htail.symm).2

theorem not_halts_bar (t : Text) : ¬ Halts (Ascii.bar :: t) := by
  rintro (h | ⟨b, u, h, hb⟩ | ⟨u, h⟩)
  · cases h
  · obtain ⟨rfl, -⟩ := List.cons.inj h
    exact hb rfl
  · exact absurd (List.cons.inj h).1 (by decide)

theorem Canonical.literal_step {t : Token} {ts : List Token} (h : Canonical (t :: ts))
    {s rest : Text} (hs : s ≠ []) (hrest : Halts rest) (hlast : Parted (Expr.escapeText s) rest)
    (htext : t.text ++ ts.flatMap Token.text = Expr.escapeText s ++ rest) :
    ∃ u v, t.literal? = some u ∧ s = u ++ v ∧ ts.flatMap Token.text = Expr.escapeText v ++ rest ∧
      Canonical ts := by
  obtain ⟨a, s, rfl⟩ := List.exists_cons_of_ne_nil hs
  cases h with
  | @text _ u _ ht hlit hbar h =>
      rw [ht.literal u hlit] at htext
      rcases Expr.escapeText_append_cases htext with ⟨w, hcat, hw⟩ | ⟨w, hw, hcat, hspace⟩
      · exact ⟨u, w, hlit, hcat, hw, h⟩
      -- The text would take the space before the bar.
      obtain ⟨rfl, v, hv⟩ := hrest.eq_space hw hspace
      have hwhite : t.isWhite = false := by
        rw [← Bool.not_eq_true]
        exact fun hwhite => hbar hwhite v hv
      have hend := (ht.trimmed_text hlit hwhite).2 Ascii.space (by
        rw [ht.literal u hlit, hcat, Expr.escapeText_append]
        exact List.getLast?_concat)
      cases hend
  | @opening _ b _ ht hk h =>
      rw [ht.opening b hk] at htext
      have hnot := (Expr.escapeText_head htext.symm).1
      rw [Token.bracketKind_opener] at hnot
      cases hnot
  | @closing _ b _ ht hk h =>
      rw [ht.closing b hk] at htext
      have hnot := (Expr.escapeText_head htext.symm).1
      rw [Token.bracketKind_closer] at hnot
      cases hnot
  | @pipe _ before after _ ht hk hbar hbefore hafter hblank h =>
      exfalso
      have hplain : ∀ b ∈ before, Expr.escapeByte b = [b] := fun b hb =>
        Token.escapeByte_blank (hbefore b hb).1 (hbefore b hb).2
      rw [hbar, List.append_assoc, ← Expr.escapeText_plain hplain] at htext
      rcases Expr.escapeText_append_cases htext with ⟨w, -, hw⟩ | ⟨w, hw, hcat, hspace⟩
      · cases w with
        | nil =>
            rw [Expr.escapeText, List.flatMap_nil, List.nil_append] at hw
            rw [← hw] at hrest
            exact not_halts_bar _ hrest
        | cons a w => exact (Expr.escapeText_head hw.symm).2 rfl
      -- The bar would take blanks from the end of the literal.
      · obtain ⟨rfl, -⟩ := hrest.eq_space hw hspace
        have hsub : ∀ b ∈ a :: s, b ∈ before := by
          intro b hb
          rw [hcat]
          exact List.mem_append_left _ hb
        have hself : Expr.escapeText (a :: s) = a :: s :=
          Expr.escapeText_plain fun b hb => hplain b (hsub b hb)
        have hend := hlast (by rw [hspace]; rfl) ((a :: s).getLast hs)
          (by rw [hself]; exact List.getLast?_eq_some_getLast hs)
        rw [(hbefore _ (hsub _ (List.getLast_mem hs))).1] at hend
        cases hend

theorem Canonical.literal {ts : List Token} (h : Canonical ts) {s rest : Text}
    (hrest : Halts rest) (hlast : Parted (Expr.escapeText s) rest)
    (htext : ts.flatMap Token.text = Expr.escapeText s ++ rest) :
    ∃ (us vs : List Token) (ss : List Text), ts = us ++ vs ∧ Segments us (ss.map .lit) ∧
      ss.flatten = s ∧ Canonical vs ∧ vs.flatMap Token.text = rest := by
  induction ts generalizing s with
  | nil =>
      obtain ⟨hs, hr⟩ := List.append_eq_nil_iff.1 htext.symm
      have hnil : s = [] := by
        by_contra hne
        exact Expr.escapeText_ne_nil hne hs
      exact ⟨[], [], [], rfl, .nil, hnil.symm, .nil, hr.symm⟩
  | cons t ts ih =>
      by_cases hs : s = []
      · subst hs
        exact ⟨[], t :: ts, [], rfl, .nil, rfl, h, htext⟩
      obtain ⟨u, v, hlit, rfl, hv, hts⟩ := h.literal_step hs hrest hlast htext
      rw [Expr.escapeText_append] at hlast
      obtain ⟨us, vs, ss, rfl, hus, rfl, hvs, hcat⟩ := ih hts hlast.of_append hv
      exact ⟨t :: us, vs, u :: ss, rfl, .text hlit hus, rfl, hvs, hcat⟩

theorem Canonical.bracket {ts : List Token} (h : Canonical ts) {b : UInt8} {k : Token.Kind}
    {rest : Text} (hb : Token.bracketKind b = some k)
    (htext : ts.flatMap Token.text = b :: rest) :
    ∃ t us, ts = t :: us ∧ t.kind = k ∧ Canonical us ∧ us.flatMap Token.text = rest := by
  cases h with
  | nil => cases htext
  | @text t s ts ht hlit hbar h =>
      rw [List.flatMap_cons, ht.literal s hlit] at htext
      cases s with
      | nil => exact absurd (ht.literal [] hlit) ht.ne_nil
      | cons a s =>
          rw [(Expr.escapeText_head htext).1] at hb
          cases hb
  | @opening t br ts ht hk h =>
      rw [List.flatMap_cons, ht.opening br hk] at htext
      obtain ⟨rfl, hrest⟩ := List.cons.inj htext
      rw [Token.bracketKind_opener] at hb
      exact ⟨t, ts, rfl, hk.trans (Option.some.inj hb), h, hrest⟩
  | @closing t br ts ht hk h =>
      rw [List.flatMap_cons, ht.closing br hk] at htext
      obtain ⟨rfl, hrest⟩ := List.cons.inj htext
      rw [Token.bracketKind_closer] at hb
      exact ⟨t, ts, rfl, hk.trans (Option.some.inj hb), h, hrest⟩
  | @pipe t before after ts ht hk hbar hbefore hafter hblank h =>
      rw [List.flatMap_cons, hbar, List.append_assoc] at htext
      cases before with
      | nil =>
          obtain ⟨rfl, -⟩ := List.cons.inj htext
          cases hb
      | cons a before =>
          obtain ⟨rfl, -⟩ := List.cons.inj htext
          rcases Text.isBlank_iff.1 (hbefore a (by simp)).1 with rfl | rfl | rfl <;> cases hb

theorem mergeLits_parts {ss : List Text} (hss : ss ≠ []) (es : List Expr) :
    Expr.mergeLits (ss.map .lit ++ es) = Expr.joinFront (.lit ss.flatten) (Expr.mergeLits es) := by
  induction ss with
  | nil => exact absurd rfl hss
  | cons s ss ih =>
      rw [List.map_cons, List.cons_append, Expr.mergeLits_cons, List.flatten_cons]
      cases ss with
      | nil => simp
      | cons t ss => rw [ih (List.cons_ne_nil t ss), Expr.joinFront_joinFront]

/-- A canonical line that spells a row of segments is read as this row. -/
theorem Canonical.segments {P : Text → Prop} {es : List Expr} (hes : Expr.Row P es)
    {ts : List Token} (h : Canonical ts) {rest : Text} (hrest : Halts rest)
    (hlast : Parted (es.flatMap Expr.render) rest)
    (htext : ts.flatMap Token.text = es.flatMap Expr.render ++ rest) :
    ∃ us vs fs, ts = us ++ vs ∧ Segments us fs ∧ Expr.mergeLits fs = es ∧ Canonical vs ∧
      vs.flatMap Token.text = rest := by
  -- The induction is on the row, so that the name in a group is a row with its own hypothesis.
  induction hes generalizing ts rest with
  | nil => exact ⟨[], ts, [], rfl, .nil, rfl, h, htext⟩
  | @lit s es hne hs hadjacent hes ih =>
      rw [List.flatMap_cons, Expr.render] at hlast htext
      rw [List.append_assoc] at htext
      obtain ⟨us, vs, ss, rfl, hus, hss, hvs, hcat⟩ :
          ∃ (us vs : List Token) (ss : List Text), ts = us ++ vs ∧ Segments us (ss.map .lit) ∧
            ss.flatten = s ∧ Canonical vs ∧
            vs.flatMap Token.text = es.flatMap Expr.render ++ rest := by
        rcases hes.cases_group hadjacent with rfl | ⟨b, u, hgroup⟩
        · rw [List.flatMap_nil, List.append_nil] at hlast
          exact h.literal hrest hlast htext
        · rw [hgroup] at htext ⊢
          exact h.literal (halts_bracket (Token.bracketKind_opener b) _)
            (parted_of_not_blank b.isBlank_opener _ _) htext
      obtain ⟨us', ws, fs, rfl, hus', hfs, hws, hcat'⟩ := ih hvs hrest hlast.of_append hcat
      refine ⟨us ++ us', ws, ss.map .lit ++ fs, by rw [List.append_assoc], hus.append hus', ?_, hws,
        hcat'⟩
      have hparts : ss ≠ [] := by
        rintro rfl
        exact hne hss.symm
      rw [mergeLits_parts hparts, hss, hfs, Expr.joinFront_lit hadjacent]
  | @group b name es hname hes ihname ih =>
      rw [List.flatMap_cons, Expr.render_group, Expr.render_mixAll, List.cons_append,
        List.cons_append, List.append_assoc, List.append_assoc, List.singleton_append] at htext
      obtain ⟨o, us, rfl, ho, hus, hinner⟩ := h.bracket (Token.bracketKind_opener b) htext
      obtain ⟨inner, vs, fs, rfl, hseg, hfs, hvs, hcat⟩ :=
        ihname hus (halts_bracket (Token.bracketKind_closer b) _)
          (parted_of_not_blank b.isBlank_closer _ _) hinner
      obtain ⟨c, ws, rfl, hc, hws, htail⟩ := hvs.bracket (Token.bracketKind_closer b) hcat
      obtain ⟨us', xs, gs, rfl, hus', hgs, hxs, hcat'⟩ := ih hws hrest hlast.of_append htail
      refine ⟨o :: (inner ++ c :: us'), xs, .group b (.concat fs) :: gs, by simp,
        .group ho hc hseg hus', ?_, hxs, hcat'⟩
      rw [Expr.mergeLits_cons, hgs, Expr.concat, hfs, Expr.joinFront_group]

/-! ## Reading the source of items -/

theorem trim_eq_self {ts : List Token} (hts : ∀ t ∈ ts, t.Exact)
    (h : Trimmed (ts.flatMap Token.text)) : trim ts = ts := by
  obtain ⟨before, after, hcat, hbefore, hafter, -, -⟩ := trim_cases ts
  have hnil : before = [] := by
    rcases before with _ | ⟨w, before⟩
    · rfl
    have hw : w.Exact := hts w (by rw [hcat]; simp)
    obtain ⟨b, u, hu⟩ := List.exists_cons_of_ne_nil hw.ne_nil
    have hfirst := h.1 b (by rw [hcat]; simp [hu])
    rw [hw.white (hbefore w (by simp)) b (by simp [hu])] at hfirst
    cases hfirst
  have hnil' : after = [] := by
    rcases List.eq_nil_or_concat after with rfl | ⟨after, w, rfl⟩
    · rfl
    have hw : w.Exact := hts w (by rw [hcat]; simp)
    have hlast := h.2 (w.text.getLast hw.ne_nil) (by
      rw [hcat]
      simp [List.getLast?_append, List.getLast?_eq_some_getLast hw.ne_nil])
    rw [hw.white (hafter w (by simp)) _ (List.getLast_mem hw.ne_nil)] at hlast
    cases hlast
  rw [hnil, hnil', List.append_nil, List.nil_append] at hcat
  exact hcat.symm

end Line

namespace Expr

/-- The expression is a row of segments, and its source has no blank at its ends. -/
def IsItem (P : Text → Prop) (e : Expr) : Prop :=
  (∃ es, Row P es ∧ e = mixAll es) ∧ Trimmed (render e)

theorem Row.eq_nil {P : Text → Prop} {es : List Expr} (h : Row P es)
    (hes : es.flatMap render = []) : es = [] := by
  cases h with
  | nil => rfl
  | lit hne =>
      rw [List.flatMap_cons, render] at hes
      exact absurd (List.append_eq_nil_iff.1 hes).1 (escapeText_ne_nil hne)
  | group =>
      rw [List.flatMap_cons, render_group] at hes
      cases hes

end Expr

namespace Line

theorem Canonical.isText {P : Text → Prop} {e : Expr} (he : e.IsItem P) {ts : List Token}
    (h : Canonical ts) {rest : Text} (hrest : Halts rest)
    (htext : ts.flatMap Token.text = e.render ++ rest) :
    ∃ us vs, ts = us ++ vs ∧ IsText us e ∧ Canonical vs ∧ vs.flatMap Token.text = rest := by
  obtain ⟨⟨es, hes, rfl⟩, htrim⟩ := he
  rw [Expr.render_mixAll] at htext htrim
  obtain ⟨us, vs, fs, rfl, hus, hfs, hvs, hcat⟩ :=
    h.segments hes hrest (fun _ b hb => htrim.2 b hb) htext
  rw [List.flatMap_append, hcat] at htext
  have hsource := List.append_cancel_right htext
  have hself : trim us = us := by
    apply trim_eq_self
    · intro t ht
      exact h.exact t (List.mem_append_left _ ht)
    · rwa [hsource]
  refine ⟨us, vs, rfl, ⟨fs, by rwa [hself], ?_⟩, hvs, hcat⟩
  rw [Expr.concat, hfs]

theorem Canonical.bar {ts : List Token} (h : Canonical ts) {w rest : Text}
    (hw : w = [] ∨ w = [Ascii.space])
    (htext : ts.flatMap Token.text = w ++ Ascii.bar :: rest) :
    ∃ p us, ts = p :: us ∧ p.kind = .pipe ∧ Canonical us ∧
      us.flatMap Token.text = rest.dropWhile isBlank := by
  cases h with
  | nil => simp at htext
  | @text t s ts ht hlit hbar h =>
      exfalso
      have hself : w = Expr.escapeText w := by rcases hw with rfl | rfl <;> rfl
      rw [List.flatMap_cons, ht.literal s hlit, hself] at htext
      rcases Expr.escapeText_append_cases htext with ⟨v, hcat, hv⟩ | ⟨v, hne, -, hv⟩
      · have hs : s ≠ [] := by
          rintro rfl
          exact ht.ne_nil (ht.literal [] hlit)
        obtain ⟨rfl, rfl⟩ : s = [Ascii.space] ∧ v = [] := by
          rcases hw with rfl | rfl
          · simp [hs] at hcat
          · simpa [hs] using List.singleton_eq_append_iff.1 hcat
        by_cases hwhite : t.isWhite = true
        · exact hbar hwhite _ hv
        · have hfirst := (ht.trimmed_text hlit (by simpa using hwhite)).1 Ascii.space (by
            rw [ht.literal _ hlit]
            rfl)
          cases hfirst
      · obtain ⟨a, v, rfl⟩ := List.exists_cons_of_ne_nil hne
        exact (Expr.escapeText_head hv.symm).2 rfl
  | @opening t b ts ht hk h =>
      rw [List.flatMap_cons, ht.opening b hk] at htext
      have hb := Token.bracketKind_opener b
      rcases hw with rfl | rfl <;> rw [(List.cons.inj htext).1] at hb <;> cases hb
  | @closing t b ts ht hk h =>
      rw [List.flatMap_cons, ht.closing b hk] at htext
      have hb := Token.bracketKind_closer b
      rcases hw with rfl | rfl <;> rw [(List.cons.inj htext).1] at hb <;> cases hb
  | @pipe t before after ts ht hk hcat hbefore hafter hblank h =>
      refine ⟨t, ts, rfl, hk, h, ?_⟩
      rw [List.flatMap_cons, hcat, List.append_assoc, List.cons_append] at htext
      have htail : after ++ ts.flatMap Token.text = rest := by
        rcases List.append_eq_append_iff.1 htext with ⟨u, hu, hrest⟩ | ⟨u, hu, hrest⟩
        · cases u with
          | nil => exact (List.cons.inj hrest).2
          | cons b u =>
              obtain ⟨rfl, -⟩ := List.cons.inj hrest
              have hmem : Ascii.bar ∈ w := by simp [hu]
              rcases hw with rfl | rfl
              · cases hmem
              · exact absurd (List.mem_singleton.1 hmem) (by decide)
        · cases u with
          | nil => exact (List.cons.inj hrest).2.symm
          | cons b u =>
              obtain ⟨rfl, -⟩ := List.cons.inj hrest
              cases (hbefore Ascii.bar (by simp [hu])).1
      rw [← htail, List.dropWhile_append_of_pos hafter, Text.dropWhile_of_blanks hblank]

/-- The tokens of the first item. If it is empty, the blank after it is gone with the one before. -/
theorem Canonical.item {P : Text → Prop} {e : Expr} (he : e.IsItem P) {ts : List Token}
    (h : Canonical ts) {rest : Text} (hrest : Halts rest)
    (htext : ts.flatMap Token.text = (e.render ++ rest).dropWhile isBlank) :
    ∃ us vs, ts = us ++ vs ∧ IsText us e ∧ Canonical vs ∧
      (vs.flatMap Token.text = rest ∨ vs.flatMap Token.text = rest.dropWhile isBlank) := by
  cases hsource : e.render with
  | nil =>
      obtain ⟨⟨es, hes, rfl⟩, -⟩ := he
      rw [Expr.render_mixAll] at hsource
      obtain rfl := hes.eq_nil hsource
      exact ⟨[], ts, rfl, ⟨[], .nil, rfl⟩, h, Or.inr htext⟩
  | cons b u =>
      have hblank : blanks (e.render ++ rest) = 0 := by
        rw [Text.blanks_eq_zero_iff]
        intro a ha
        apply he.2.1 a
        rw [hsource] at ha ⊢
        exact ha
      rw [Text.dropWhile_of_blanks hblank] at htext
      obtain ⟨us, vs, hcat, hus, hvs, hrest'⟩ := h.isText he hrest htext
      exact ⟨us, vs, hcat, hus, hvs, Or.inl hrest'⟩

/-- A canonical line that spells the source of items is read as these items. -/
theorem Canonical.isItems {P : Text → Prop} {e : Expr} {es : List Expr} (he : e.IsItem P)
    (hes : ∀ f ∈ es, f.IsItem P) {ts : List Token} (h : Canonical ts)
    (htext : ts.flatMap Token.text = (e.render ++ Expr.renderMore es).dropWhile isBlank) :
    IsItems ts (e :: es) := by
  induction es generalizing e ts with
  | nil =>
      obtain ⟨us, vs, rfl, hus, hvs, hrest⟩ := h.item he (Or.inl Expr.renderMore.eq_1) htext
      rw [Expr.renderMore, List.dropWhile_nil, or_self] at hrest
      rw [hvs.eq_nil hrest, List.append_nil]
      exact .last hus
  | cons f es ih =>
      obtain ⟨hf, hes⟩ := List.forall_mem_cons.1 hes
      have hmore := Expr.renderMore_cons f es
      obtain ⟨us, vs, rfl, hus, hvs, hrest⟩ := h.item he (Or.inr (Or.inr ⟨_, hmore⟩)) htext
      obtain ⟨w, hw, hbar⟩ : ∃ w : Text, (w = [] ∨ w = [Ascii.space]) ∧ vs.flatMap Token.text =
          w ++ Ascii.bar :: Ascii.space :: (f.render ++ Expr.renderMore es) := by
        rcases hrest with hrest | hrest
        · exact ⟨_, Or.inr rfl, by rw [hrest, hmore]; rfl⟩
        · exact ⟨_, Or.inl rfl, by rw [hrest, hmore]; rfl⟩
      obtain ⟨p, ws, rfl, hp, hws, hcat⟩ := hvs.bar hw hbar
      exact .more hus hp (ih hf hes hws hcat)

end Line

end PoolProse
