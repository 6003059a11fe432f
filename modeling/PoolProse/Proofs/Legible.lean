import PoolProse.Proofs.Lookahead
import PoolProse.Proofs.Stated

/-!
# Which expressions their source can be read back from

Escapes do not cover everything that a literal can hold: an operator, a comment mark, a rule or a
blank at an end is read as such when it is written. These are the only obstacles. If the source of
an expression is read as that expression, then nothing of it was lost, and none of them is in it.
-/
namespace PoolProse

open Text (isBlank ink Trimmed)
open Token (commentMark Gapless PoolName Formed)

/-! ## What a row of tokens was written for -/

namespace Expr

theorem renderMore_eq {es : List Expr} (h : es ≠ []) :
    renderMore es = Ascii.space :: Ascii.bar :: renderItems es := by
  obtain ⟨e, es, rfl⟩ := List.exists_cons_of_ne_nil h
  rw [renderMore_cons, renderItems]

theorem space_render_found {items : List Expr} {e : Expr} (he : e ∈ items) :
    Ascii.space :: render e <:+: renderItems items := by
  induction items with
  | nil => cases he
  | cons f items ih =>
      rw [renderItems]
      rcases List.mem_cons.1 he with rfl | he
      · exact ⟨[], renderMore items, by simp⟩
      · rw [renderMore_eq (List.ne_nil_of_mem he)]
        exact (ih he).trans ⟨Ascii.space :: (render f ++ [Ascii.space, Ascii.bar]), [], by simp⟩

end Expr

namespace Line

theorem Segments.render {ts : List Token} {es : List Expr} (h : Segments ts es)
    (hts : ∀ t ∈ ts, t.Exact) : es.flatMap Expr.render = ts.flatMap Token.text := by
  induction h with
  | nil => rfl
  | @text t s ts es ht _ ih =>
      obtain ⟨hexact, hts⟩ := List.forall_mem_cons.1 hts
      rw [List.flatMap_cons, List.flatMap_cons, ih hts, Expr.render, hexact.literal s ht]
  | @group o c b inner ts es fs ho hc _ _ ihinner ih =>
      have hopen := (hts o (by simp)).opening b ho
      have hclose := (hts c (by simp)).closing b hc
      rw [List.flatMap_cons, Expr.render_group, Expr.render_concat,
        ihinner fun t ht => hts t (by simp [ht]), ih fun t ht => hts t (by simp [ht])]
      simp [hopen, hclose]

theorem Segments.kinds {ts : List Token} {es : List Expr} (h : Segments ts es) :
    ∀ t ∈ ts, t.kind ≠ .pipe ∧ ∀ op, t.kind ≠ .binding op := by
  induction h with
  | nil => simp
  | @text t s ts es ht _ ih =>
      refine List.forall_mem_cons.2 ⟨?_, ih⟩
      unfold Token.literal? at ht
      cases hk : t.kind <;> simp [hk] at ht ⊢
  | @group o c b inner ts es fs ho hc _ _ ihinner ih =>
      intro t ht
      rcases List.mem_cons.1 ht with rfl | ht
      · simp [ho]
      rcases List.mem_append.1 ht with ht | ht
      · exact ihinner t ht
      rcases List.mem_cons.1 ht with rfl | ht
      · simp [hc]
      · exact ih t ht

theorem IsText.kinds {ts : List Token} {e : Expr} (h : IsText ts e) :
    ∀ t ∈ ts, t.kind ≠ .pipe ∧ ∀ op, t.kind ≠ .binding op := by
  obtain ⟨es, hes, -⟩ := h
  obtain ⟨before, after, hcat, hbefore, hafter, -⟩ := trim_cases ts
  have hwhite : ∀ w : Token, w.isWhite = true → w.kind ≠ .pipe ∧ ∀ op, w.kind ≠ .binding op := by
    intro w hw
    rw [eq_of_beq hw]
    simp
  intro t ht
  rw [hcat] at ht
  rcases List.mem_append.1 ht with ht | ht
  · exact hwhite t (hbefore t ht)
  rcases List.mem_append.1 ht with ht | ht
  · exact hes.kinds t ht
  · exact hwhite t (hafter t ht)

theorem trimmed_flatMap {ts : List Token} (hts : ∀ t ∈ ts, t.Exact)
    (hpipe : ∀ t ∈ ts, t.kind ≠ .pipe) (hfirst : ∀ t ∈ ts.head?, ¬ t.isWhite = true)
    (hlast : ∀ t ∈ ts.getLast?, ¬ t.isWhite = true) : Trimmed (ts.flatMap Token.text) := by
  have htrim : ∀ t ∈ ts, ¬ t.isWhite = true → Trimmed t.text := fun t ht hw =>
    (hts t ht).trimmed (Bool.eq_false_iff.2 hw) (hpipe t ht)
  constructor
  · cases ts with
    | nil => simp
    | cons t ts =>
        rw [List.flatMap_cons, List.head?_append_of_ne_nil _ (hts t (by simp)).ne_nil]
        exact (htrim t (by simp) (hfirst t rfl)).1
  · rcases List.eq_nil_or_concat' ts with rfl | ⟨ts, t, rfl⟩
    · simp
    · rw [List.flatMap_append, List.flatMap_singleton,
        List.getLast?_append_of_ne_nil _ (hts t (by simp)).ne_nil]
      exact (htrim t (by simp) (hlast t (by simp))).2

theorem ink_white {ts : List Token} (h : ∀ t ∈ ts, ∀ b ∈ t.text, isBlank b = true) :
    ink (ts.flatMap Token.text) = [] := by
  apply Text.ink_blanks
  intro b hb
  obtain ⟨t, ht, hb⟩ := List.mem_flatMap.1 hb
  exact h t ht b hb

/-- The source of a text is what its tokens spell, less the white space around them. -/
theorem IsText.render {ts : List Token} {e : Expr} (h : IsText ts e) (hts : ∀ t ∈ ts, t.Exact) :
    Trimmed (Expr.render e) ∧ Expr.render e <:+: ts.flatMap Token.text ∧
      ink (ts.flatMap Token.text) = ink (Expr.render e) := by
  have hpipe := h.kinds
  obtain ⟨es, hes, rfl⟩ := h
  obtain ⟨before, after, hcat, hbefore, hafter, hfirst, hlast⟩ := trim_cases ts
  have hmem : ∀ t, t ∈ before ∨ t ∈ trim ts ∨ t ∈ after → t ∈ ts := by
    intro t ht
    rw [hcat]
    simpa using ht
  have htrim : ∀ t ∈ trim ts, t.Exact := fun t ht => hts t (hmem t (Or.inr (Or.inl ht)))
  rw [Expr.render_concat, hes.render htrim]
  have htext : ts.flatMap Token.text = before.flatMap Token.text ++
      ((trim ts).flatMap Token.text ++ after.flatMap Token.text) := by
    conv_lhs => rw [hcat]
    simp
  refine ⟨trimmed_flatMap htrim ?_ hfirst hlast, ?_, ?_⟩
  · exact fun t ht => (hpipe t (hmem t (Or.inr (Or.inl ht)))).1
  · rw [htext]
    exact ⟨_, _, List.append_assoc ..⟩
  · have hwhite : ∀ t ∈ ts, t.isWhite = true → ∀ b ∈ t.text, isBlank b = true :=
      fun t ht => (hts t ht).white
    rw [htext, Text.ink_append, Text.ink_append,
      ink_white fun t ht => hwhite t (hmem t (Or.inl ht)) (hbefore t ht),
      ink_white fun t ht => hwhite t (hmem t (Or.inr (Or.inr ht))) (hafter t ht),
      List.nil_append, List.append_nil]

theorem IsItems.kinds {ts : List Token} {items : List Expr} (h : IsItems ts items) :
    ∀ t ∈ ts, ∀ op, t.kind ≠ .binding op := by
  induction h with
  | last h => exact fun t ht => (h.kinds t ht).2
  | @more ts us p e es h hp _ ih =>
      refine List.forall_mem_append.2 ⟨fun t ht => (h.kinds t ht).2, ?_⟩
      exact List.forall_mem_cons.2 ⟨by simp [hp], ih⟩

theorem IsItems.render {ts : List Token} {items : List Expr} (h : IsItems ts items)
    (hts : ∀ t ∈ ts, t.Exact) :
    ∀ e ∈ items, Trimmed (Expr.render e) ∧ Expr.render e <:+: ts.flatMap Token.text := by
  induction h with
  | last h =>
      obtain ⟨htrim, hfound, -⟩ := h.render hts
      simpa using ⟨htrim, hfound⟩
  | @more ts us p e es h hp _ ih =>
      rw [List.flatMap_append, List.flatMap_cons]
      refine List.forall_mem_cons.2 ⟨?_, ?_⟩
      · obtain ⟨htrim, hfound, -⟩ := h.render fun t ht => hts t (by simp [ht])
        exact ⟨htrim, List.infix_append_of_infix_left hfound⟩
      · intro f hf
        obtain ⟨htrim, hfound⟩ := ih (fun t ht => hts t (by simp [ht])) f hf
        exact ⟨htrim, List.infix_append_of_infix_right
          (List.infix_append_of_infix_right hfound)⟩

theorem IsItems.ink_render {ts : List Token} {items : List Expr} (h : IsItems ts items)
    (hts : ∀ t ∈ ts, t.Exact) (hbar : ∀ t ∈ ts, t.kind = .pipe → ink t.text = [Ascii.bar]) :
    ink (ts.flatMap Token.text) = ink (Expr.renderItems items) := by
  have hfirst : ∀ e es, ink (Expr.renderItems (e :: es)) =
      ink (Expr.render e) ++ ink (Expr.renderMore es) := by
    intro e es
    rw [Expr.renderItems, ← Text.ink_append]
    rfl
  induction h with
  | last h =>
      rw [hfirst, Expr.renderMore, (h.render hts).2.2]
      exact (List.append_nil _).symm
  | @more ts us p e es h hp hrest ih =>
      rw [hfirst, List.flatMap_append, List.flatMap_cons, Text.ink_append, Text.ink_append,
        (h.render fun t ht => hts t (by simp [ht])).2.2, hbar p (by simp) hp,
        ih (fun t ht => hts t (by simp [ht])) fun t ht => hbar t (by simp [ht])]
      have hne : es ≠ [] := by cases hrest <;> simp
      rw [Expr.renderMore_eq hne]
      rfl

end Line

/-! ## A line that was read as one expression -/

namespace Token

theorem Gapless.of_append {c : Context} {us vs : List Token} (h : Gapless c (us ++ vs))
    (hs : Expr.Sealed ((us ++ vs).flatMap text)) :
    ∃ c', Gapless c' vs ∧ Expr.Sealed (vs.flatMap text) := by
  induction us generalizing c with
  | nil => exact ⟨c, h, hs⟩
  | cons u us ih =>
      rw [List.cons_append] at h hs
      exact ih h.2.2 (h.sealed hs)

theorem lexeme_doubleRule {c : Context} {t : Text} (h : t.IsDoubleRule) (hc : c.lineStart = true) :
    lexeme c t = some ⟨some .doubleRule, t.length⟩ := by
  obtain ⟨hlength, hall⟩ := h
  have hnewline : Ascii.newline ∉ t := fun hmem => absurd (hall _ hmem) (by decide)
  have hequals : t.takeWhile (· == Ascii.equals) = t := by
    rw [List.takeWhile_eq_self_iff]
    intro b hb
    simp [hall b hb]
  have hdash : t.takeWhile (· == Ascii.dash) = [] := by
    rw [List.takeWhile_eq_nil_iff]
    intro hpos
    rw [hall _ (List.get_mem t ⟨0, hpos⟩)]
    decide
  rw [lexeme_eq_or, continuation_eq_none hnewline, Option.none_or, rule, if_pos hc]
  simp [ruleOf, hequals, hdash, hlength, Text.atLineEnd, Text.blanks]

end Token

/-! ## Expressions that can be read back -/

namespace Expr

/-- Nothing in the source of the expression is read as an operator, a comment or a rule, and no
blank is lost from it, other than those that the expression put there. -/
def Legible : Expr → Prop
  | .bind _ name items =>
    Text.Unmarked name ∧ ¬ commentMark <+: name ∧ ∀ e ∈ items, Text.Plain (render e)
  | e => Text.Plain (render e) ∧ ¬ Text.IsDoubleRule (render e)

theorem legible_mixAll {es : List Expr} (h : FreeRow es) : Legible (mixAll es) ↔
    Text.Plain (render (mixAll es)) ∧ ¬ Text.IsDoubleRule (render (mixAll es)) := by
  have hbind : ∀ op name items, mixAll es ≠ .bind op name items := by
    intro op name items
    rcases List.eq_nil_or_concat' es with rfl | ⟨fs, f, rfl⟩
    · simp [mixAll]
    · cases fs with
      | nil =>
          rcases h.isSegment (List.mem_append_right [] List.mem_cons_self) with
            ⟨s, -, -, rfl⟩ | ⟨b, name, -, rfl⟩
          · simp [mixAll]
          · cases b <;> simp [mixAll, group]
      | cons e fs => simp [mixAll]
  unfold Legible
  split
  case h_1 op name items heq => exact absurd heq (hbind op name items)
  case h_2 => rfl

end Expr

/-! ## The tokens of one line of source -/

structure Line.ReadFrom (ts : Line) (t : Text) : Prop where
  source : Expr.Sealed t
  scan : ∃ o, tokenize t = ts ++ [o]
  inside : ∀ u ∈ ts, u.kind.isInside = true

theorem Statement.exists_reads {t : Text} {e : Expr} (hs : Expr.Sealed t)
    (h : ofTokens (tokenize t) = [.ok e]) :
    ∃ ts : Line, ts.ReadFrom t ∧ Line.Reads ts.content (.ok e) := by
  obtain ⟨ts, hscan, hother⟩ := (Token.scanFrom_covers ⟨true, false⟩ 0 t).last
  have hline : Line.split (tokenize t) = [ts] := by
    rw [tokenize, hscan]
    apply Line.split_line _ rfl
    intro u hu
    refine ⟨(hother u hu).1, ?_⟩
    intro hk
    apply hs.newline_not_mem
    exact Token.newline_mem_of_token (by rw [hscan]; exact List.mem_append_left _ hu) hk
  have hscanned : Line.Scanned ts := Line.scanned_of_mem_split (by rw [hline]; simp)
  have huntitled : Line.Untitled [] := trivial
  rw [ofTokens, hline, ofLines, next_untitled huntitled, ofLines, List.append_nil] at h
  unfold Line.statement next at h
  cases hshape : Line.shape ts [] with
  | blank => simp [hshape] at h
  | rule junk => simp [hshape] at h
  | doubleRule u => simp [hshape] at h
  | title u name junk body =>
      obtain ⟨v, hnil, -⟩ := Line.shape_title_below hshape
      cases hnil
  | text content =>
      obtain ⟨rfl, -⟩ := Line.shape_text_content hshape
      obtain ⟨hin, htext, hmem, -⟩ := hscanned.content hshape
      refine ⟨ts, ⟨hs, ⟨_, hscan⟩, hin⟩, ?_⟩
      rw [Line.reads_iff (fun u hu => hin u (hmem u hu)) fun u hu => htext u (hmem u hu)]
      simpa [hshape] using h

namespace Line

section

variable {ts : Line} {t : Text} (h : ts.ReadFrom t)

include h

theorem ReadFrom.formed {u : Token} (hu : u ∈ ts) :
    ∃ rest, Formed u.kind u.text rest ∧ Expr.Sealed (u.text ++ rest) := by
  obtain ⟨o, hscan⟩ := h.scan
  have hmem : u ∈ tokenize t := by
    rw [hscan]
    exact List.mem_append_left _ hu
  obtain ⟨rest, hform, hsealed⟩ :=
    Token.formed_of_mem_scanFrom ⟨true, false⟩ 0 t u hmem (h.inside u hu)
  exact ⟨rest, hform, hsealed h.source⟩

theorem ReadFrom.text_ne_nil {u : Token} (hu : u ∈ ts) : u.text ≠ [] := by
  obtain ⟨rest, hform, -⟩ := h.formed hu
  exact hform.ne_nil

theorem ReadFrom.exact {u : Token} (hu : u ∈ ts) (htab : Ascii.tab ∉ u.text)
    (hbinding : ∀ op, u.kind ≠ .binding op) : u.Exact := by
  obtain ⟨rest, hform, hsealed⟩ := h.formed hu
  exact hform.exact hsealed htab hbinding

theorem ReadFrom.sublist : (ts.flatMap Token.text).Sublist t := by
  obtain ⟨o, hscan⟩ := h.scan
  have hall := (Token.scanFrom_covers ⟨true, false⟩ 0 t).sublist
  rw [← tokenize, hscan, List.flatMap_append] at hall
  exact (List.sublist_append_left _ _).trans hall

theorem ReadFrom.gapless (hink : ink (ts.flatMap Token.text) = ink t) :
    Gapless ⟨true, false⟩ ts ∧ ts.flatMap Token.text = t := by
  obtain ⟨o, hscan⟩ := h.scan
  exact Token.gapless_of_ink _ _ t h.source.newline_not_mem hscan h.inside hink

/-- Source that was read as the text it was written for is plain. -/
theorem ReadFrom.plain (htab : Ascii.tab ∉ t) {e : Expr} (htext : IsText ts e)
    (he : Expr.render e = t) : Text.Plain t ∧ ¬ Text.IsDoubleRule t := by
  have hkinds := htext.kinds
  have hexact : ∀ u ∈ ts, u.Exact := by
    intro u hu
    refine h.exact hu ?_ (hkinds u hu).2
    exact fun hmem => htab (h.sublist.subset (List.mem_flatMap.2 ⟨u, hu, hmem⟩))
  obtain ⟨htrim, -, hink⟩ := htext.render hexact
  rw [he] at htrim hink
  obtain ⟨hgapless, rfl⟩ := h.gapless hink
  constructor
  · exact {
      trimmed := htrim
      operator := hgapless.not_symbol h.source fun u hu => (hkinds u hu).2
      unmarked := fun _ => hgapless.not_blank_mark h.source
      start := hgapless.not_mark (Or.inl rfl) }
  · intro hrule
    cases ts with
    | nil => simp [Text.IsDoubleRule] at hrule
    | cons u us =>
        have hlexeme := hgapless.1
        rw [← List.flatMap_cons, Token.lexeme_doubleRule hrule rfl] at hlexeme
        have hk : Token.Kind.doubleRule = u.kind := by
          simpa using congrArg (Option.map Token.Lexeme.kind) hlexeme
        have hinside := h.inside u (by simp)
        rw [← hk] at hinside
        cases hinside

end

/-! ## The tokens of a binding -/

theorem IsPoolName.flatMap_text {head : List Token} {name : Text} (h : IsPoolName head name) :
    head.flatMap Token.text = name := by
  cases h with
  | name => simp
  | number => simp
  | both => simp

theorem Binds.cases {ts : Line} {name : Text} {op : Binding} {rest : List Token}
    (h : Binds ts.content name op rest) :
    ∃ ws head b, ts = ws ++ (head ++ b :: rest) ∧ (∀ w ∈ ws, w.kind = .white) ∧
      head.flatMap Token.text = name ∧ b.kind = .binding op := by
  obtain ⟨head, b, hline, hhead, hb⟩ := h
  refine ⟨ts.takeWhile Token.isWhite, head, b, ?_, ?_, hhead.flatMap_text, hb⟩
  · rw [← hline, Line.content, List.takeWhile_append_dropWhile]
  · intro w hw
    exact eq_of_beq (List.all_eq_true.1 List.all_takeWhile w hw)

section

variable {ts rest : Line} {op : Binding} {name : Text} {items : List Expr}
  (h : ts.ReadFrom (Expr.render (.bind op name items))) (hbinds : Binds ts.content name op rest)
  (hitems : IsItems rest items)

include h hbinds hitems

theorem ReadFrom.exact_items (htab : Ascii.tab ∉ Expr.renderItems items) : ∀ u ∈ rest, u.Exact := by
  obtain ⟨ws, head, b, hcat, -, hname, -⟩ := hbinds.cases
  have hcount : Ascii.tab ∉ rest.flatMap Token.text := by
    have hsymbol : List.count Ascii.tab (Ascii.space :: op.symbol) = 0 := by
      rw [List.count_eq_zero, List.mem_cons, not_or]
      exact ⟨by decide, op.not_mem_symbol rfl⟩
    have hle := h.sublist.count_le Ascii.tab
    rw [hcat, Expr.render, List.flatMap_append, List.flatMap_append, List.flatMap_cons,
      hname] at hle
    simp only [List.count_append, hsymbol, List.count_eq_zero.2 htab] at hle
    rw [← List.count_eq_zero]
    omega
  intro u hu
  refine h.exact (by rw [hcat]; simp [hu]) ?_ (hitems.kinds u hu)
  exact fun hmem => hcount (List.mem_flatMap.2 ⟨u, hu, hmem⟩)

theorem ReadFrom.ink_binding (hexact : ∀ u ∈ rest, u.Exact) :
    ink (ts.flatMap Token.text) = ink (Expr.render (.bind op name items)) := by
  obtain ⟨ws, head, b, hcat, hws, hname, hb⟩ := hbinds.cases
  have hform : ∀ u ∈ ws ++ (head ++ b :: rest), ∃ r, Formed u.kind u.text r := by
    intro u hu
    rw [← hcat] at hu
    obtain ⟨r, hform, -⟩ := h.formed hu
    exact ⟨r, hform⟩
  have hblank : ∀ w ∈ ws, ∀ a ∈ w.text, isBlank a = true := by
    intro w hw
    obtain ⟨r, hform⟩ := hform w (List.mem_append_left _ hw)
    rw [hws w hw] at hform
    exact hform.blanks
  have hoperator : ink b.text = ink op.symbol := by
    obtain ⟨r, hform⟩ := hform b (by simp)
    rw [hb] at hform
    obtain ⟨before, after, hcat, hbefore, hafter, -⟩ := hform.eq_binding
    rw [hcat, Text.ink_append, Text.ink_append, Text.ink_blanks hbefore, Text.ink_blanks hafter,
      List.nil_append, List.append_nil]
  have hbars : ∀ u ∈ rest, u.kind = .pipe → ink u.text = [Ascii.bar] := by
    intro u hu hk
    obtain ⟨r, hform⟩ := hform u (by simp [hu])
    rw [hk] at hform
    obtain ⟨before, after, hcat, hbefore, hafter, -⟩ := hform.eq_pipe
    rw [hcat, ← List.singleton_append, Text.ink_append, Text.ink_append, Text.ink_blanks hbefore,
      Text.ink_blanks hafter]
    rfl
  rw [hcat, Expr.render]
  simp only [List.flatMap_append, List.flatMap_cons, Text.ink_append]
  rw [ink_white hblank, hname, hoperator, hitems.ink_render hexact hbars, List.nil_append,
    List.append_assoc]
  rfl

theorem ReadFrom.legible_bind (htab : Ascii.tab ∉ Expr.renderItems items) :
    Expr.Legible (.bind op name items) := by
  have hexact := h.exact_items hbinds hitems htab
  obtain ⟨hgapless, hspell⟩ := h.gapless (h.ink_binding hbinds hitems hexact)
  have hsealed := h.source
  rw [← hspell] at hsealed
  obtain ⟨c, hgapless', hsealed'⟩ :
      ∃ c, Gapless c rest ∧ Expr.Sealed (rest.flatMap Token.text) := by
    obtain ⟨ws, head, b, hcat, -⟩ := hbinds.cases
    have hcut : ts = (ws ++ (head ++ [b])) ++ rest := by simp [hcat]
    rw [hcut] at hgapless hsealed
    exact hgapless.of_append hsealed
  have hmark : Text.Unmarked (ts.flatMap Token.text) := fun a ha =>
    hgapless.not_blank_mark hsealed ha
  have hstart := hgapless.not_mark (Or.inl rfl)
  rw [hspell, Expr.render] at hmark hstart
  refine ⟨?_, ?_, ?_⟩
  · intro a ha hfound
    exact hmark a ha (List.infix_append_of_infix_left (List.infix_append_of_infix_left hfound))
  · rintro ⟨v, rfl⟩
    exact hstart ⟨v ++ (Ascii.space :: op.symbol ++ Expr.renderItems items), by simp⟩
  · intro e he
    obtain ⟨htrim, hfound⟩ := hitems.render hexact e he
    have hspace : Ascii.space :: Expr.render e <:+:
        name ++ Ascii.space :: op.symbol ++ Expr.renderItems items :=
      List.infix_append_of_infix_right (Expr.space_render_found he)
    refine ⟨htrim, fun op' hop => hgapless'.not_symbol hsealed' hitems.kinds op' (hop.trans hfound),
      ?_, ?_⟩
    · intro a ha hfound'
      exact hmark a ha (hfound'.trans ((List.suffix_cons _ _).isInfix.trans hspace))
    · rintro ⟨v, hv⟩
      apply hmark Ascii.space rfl
      refine List.IsInfix.trans ?_ hspace
      exact ⟨[], v, by rw [← hv]; rfl⟩

end

/-- An expression that was read back from its source is legible. -/
theorem ReadFrom.legible {ts : Line} {e : Expr} (h : ts.ReadFrom (Expr.render e))
    (hreads : Reads ts.content (.ok e)) : e.Legible := by
  have hne : ∀ u ∈ ts.content, u.text ≠ [] := fun u hu => h.text_ne_nil (mem_of_mem_content hu)
  cases hreads with
  | @binding name op rest items hbinds hitems =>
      apply h.legible_bind hbinds hitems
      obtain ⟨hitem, hrows⟩ := hitems.freeRow fun u hu => hne u (hbinds.mem hu)
      obtain ⟨e, es, rfl⟩ := List.exists_cons_of_ne_nil hitem
      rw [Expr.renderItems, List.mem_cons, not_or]
      exact ⟨by decide, (Expr.sealed_items hrows).2⟩
  | text _ htext =>
      obtain ⟨es, hes, rfl⟩ := htext.freeRow hne
      have htab := hes.sealed.2
      rw [← Expr.render_mixAll] at htab
      have hwhole : IsText ts (.mixAll es) := by
        rwa [IsText, trim, content, List.dropWhile_idempotent, ← trim, ← IsText] at htext
      rw [Expr.legible_mixAll hes]
      exact h.plain htab hwhole rfl

end Line

/-! ## Reading back what was read -/

theorem Expr.Stated.sealed {e : Expr} (h : e.Stated) : Sealed (render e) := by
  cases h with
  | text hes =>
      rw [render_mixAll]
      exact hes.sealed.1
  | @binding op name items hname hne hitems =>
      obtain ⟨e, es, rfl⟩ := List.exists_cons_of_ne_nil hne
      rw [render_bind]
      exact sealed_bind op hname.sealed (sealed_items hitems).1

theorem Expr.Stated.ofTokens_render {e : Expr} (h : e.Stated) (hlegible : e.Legible) :
    Statement.ofTokens (tokenize (render e)) = [.ok e] := by
  cases h with
  | text hes hne =>
      obtain ⟨hplain, hrule⟩ := (legible_mixAll hes).1 hlegible
      exact hes.ofTokens_render hne hplain hrule
  | @binding op name items hname hne hitems =>
      obtain ⟨e, es, rfl⟩ := List.exists_cons_of_ne_nil hne
      obtain ⟨hmark, hstart, hplain⟩ := hlegible
      exact ofTokens_render_bind op hname hmark hstart hitems hplain

namespace Document

/-- An expression of a document is read back from its source, as one statement and as the same tree,
exactly if it is legible. -/
theorem parse_render_iff_legible [Locator] {file text : Text} {d : Document}
    (hd : parse file text = .ok d) {e : Expr} (he : .ok e ∈ d) (file' : Text) :
    (∃ e', parse file' e.render = .ok [.ok e'] ∧ e.same e' = true) ↔ e.Legible := by
  have hstated := stated_of_mem hd he
  constructor
  · rintro ⟨e', hparse, hsame⟩
    obtain rfl := (Expr.same_iff e e').1 hsame
    obtain ⟨ts, hts, hreads⟩ :=
      Statement.exists_reads hstated.sealed (parse_eq_singleton_iff.1 hparse)
    exact hts.legible hreads
  · intro hlegible
    have hparse : parse file' e.render = .ok [.ok e] :=
      parse_eq_singleton_iff.2 (hstated.ofTokens_render hlegible)
    exact ⟨e, hparse, (Expr.same_iff e e).2 rfl⟩

/-- A definition is read back, and a literal with an escaped comment mark is not. -/
theorem parse_render_iff_legible_pet :
    parse [] (utf8 "pet :: cat|{dog}\na \\-- b") =
        .ok [.ok (.bind .define (utf8 "pet") [.lit (utf8 "cat"), .draw (.lit (utf8 "dog"))]),
          .ok (.lit (utf8 "a -- b"))] ∧
      Expr.Legible (.bind .define (utf8 "pet") [.lit (utf8 "cat"), .draw (.lit (utf8 "dog"))]) ∧
      ¬ Expr.Legible (.lit (utf8 "a -- b")) := by
  have hparse : parse [] (utf8 "pet :: cat|{dog}\na \\-- b") =
      .ok [.ok (.bind .define (utf8 "pet") [.lit (utf8 "cat"), .draw (.lit (utf8 "dog"))]),
        .ok (.lit (utf8 "a -- b"))] := by
    decide +kernel
  refine ⟨hparse, ?_, ?_⟩
  · exact (parse_render_iff_legible hparse (by simp) []).1
      ⟨_, by decide +kernel, (Expr.same_iff _ _).2 rfl⟩
  · rw [← parse_render_iff_legible hparse (by simp) []]
    rintro ⟨e, h, hsame⟩
    obtain rfl := (Expr.same_iff _ e).1 hsame
    revert h
    decide +kernel

/-- An operator behind an escape is part of a literal, but the literal is written as the source of a
definition. -/
theorem parse_render_escaped_operator :
    parse [] (utf8 "a\\::b") = .ok [.ok (.lit (utf8 "a::b"))] ∧
      ¬ ∃ e, parse [] (Expr.lit (utf8 "a::b")).render = .ok [.ok e] ∧
        (Expr.lit (utf8 "a::b")).same e = true := by
  refine ⟨by decide +kernel, ?_⟩
  rintro ⟨e, h, hsame⟩
  obtain rfl := (Expr.same_iff _ e).1 hsame
  revert h
  decide +kernel

end Document

end PoolProse
