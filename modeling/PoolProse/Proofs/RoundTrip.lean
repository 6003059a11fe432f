import PoolProse.Proofs.LineStatements
import PoolProse.Proofs.PoolNames

/-!
# Reading what was written

The source of an expression is read as that expression, and as nothing else, if no operator, comment
or rule is found in it that the expression did not put there, and no blank at its ends is lost.
-/
namespace PoolProse

open Text (isBlank isDigit blanks Trimmed)
open Token (commentMark Gapless PoolName)

theorem Binding.not_mem_symbol (op : Binding) {x : UInt8}
    (hx : (x == Ascii.colon || x == Ascii.less || x == Ascii.bang || x == Ascii.dash) = false) :
    x ∉ op.symbol := by
  intro hmem
  rcases Binding.symbol_mem hmem with rfl | rfl | rfl | rfl <;> cases hx

namespace Text

/-! ## Patterns in a text -/

theorem infix_cases_of_not_mem {p u v : Text} {x : UInt8} (hx : x ∉ p) (h : p <:+: u ++ x :: v) :
    p <:+: u ∨ p <:+: v := by
  rcases List.infix_append_iff.1 h with h | h | ⟨l, r, rfl, hl, hr⟩
  · exact Or.inl h
  · rcases List.infix_cons_iff.1 h with h | h
    · cases p with
      | nil => exact Or.inl List.nil_infix
      | cons a p =>
          obtain ⟨s, hs⟩ := h
          obtain ⟨rfl, -⟩ := List.cons.inj hs
          exact absurd (by simp) hx
    · exact Or.inr h
  · cases r with
    | nil =>
        rw [List.append_nil]
        exact Or.inl hl.isInfix
    | cons a r =>
        obtain ⟨s, hs⟩ := hr
        obtain ⟨rfl, -⟩ := List.cons.inj hs
        exact absurd (by simp) hx

/-- No comment mark follows a blank. -/
def Unmarked (t : Text) : Prop := ∀ b, isBlank b = true → ¬ b :: commentMark <:+: t

theorem not_mem_mark {x b : UInt8} (hx : isBlank x = false) (hdash : x ≠ Ascii.dash)
    (hb : isBlank b = true) : x ∉ b :: commentMark := by
  have hne : x ≠ b := by
    rintro rfl
    rw [hx] at hb
    cases hb
  simp [commentMark, hne, hdash]

theorem Unmarked.append {u v : Text} {x : UInt8} (hu : Unmarked u) (hv : Unmarked v)
    (hx : isBlank x = false) (hdash : x ≠ Ascii.dash) : Unmarked (u ++ x :: v) := by
  intro b hb hfound
  rcases infix_cases_of_not_mem (not_mem_mark hx hdash hb) hfound with h | h
  · exact hu b hb h
  · exact hv b hb h

theorem Unmarked.cons {v : Text} {x : UInt8} (hv : Unmarked v) (hx : isBlank x = false) :
    Unmarked (x :: v) := by
  intro b hb hfound
  rcases List.infix_cons_iff.1 hfound with ⟨s, hs⟩ | h
  · obtain ⟨rfl, -⟩ := List.cons.inj hs
    rw [hx] at hb
    cases hb
  · exact hv b hb h

theorem Unmarked.blank {v : Text} (hv : Unmarked v) (hstart : ¬ commentMark <+: v) (x : UInt8) :
    Unmarked (x :: v) := by
  intro b hb hfound
  rcases List.infix_cons_iff.1 hfound with ⟨s, hs⟩ | h
  · exact hstart ⟨s, (List.cons.inj hs).2⟩
  · exact hv b hb h

theorem Unmarked.concat {u : Text} (hu : Unmarked u) {x : UInt8} (hx : x ≠ Ascii.dash) :
    Unmarked (u ++ [x]) := by
  intro b hb hfound
  rcases List.infix_concat_iff.1 hfound with ⟨s, hs⟩ | h
  · have hlast := congrArg List.getLast? hs
    rw [List.getLast?_append, List.getLast?_concat] at hlast
    exact hx (Option.some.inj hlast).symm
  · exact hu b hb h

/-- Source in which no operator or comment is found, and that loses no blank at its ends. -/
structure Plain (t : Text) : Prop where
  trimmed : Trimmed t
  operator : ∀ op : Binding, ¬ op.symbol <:+: t
  unmarked : Unmarked t
  start : ¬ commentMark <+: t

/-- A text that is a double rule where it is alone on a line. -/
def IsDoubleRule (t : Text) : Prop := 3 ≤ t.length ∧ ∀ b ∈ t, b = Ascii.equals

end Text

/-! ## Rules -/

namespace Token

theorem ruleOf_eq_some {m : UInt8} {k : Kind} {t : Text} {l : Lexeme} (h : ruleOf m k t = some l)
    (hnewline : Ascii.newline ∉ t) :
    ∃ u v, t = u ++ v ∧ 3 ≤ u.length ∧ (∀ b ∈ u, b = m) ∧ ∀ b ∈ v, isBlank b = true := by
  simp only [ruleOf, Option.ite_none_right_eq_some, Bool.and_eq_true, decide_eq_true_eq] at h
  obtain ⟨⟨hlength, hend⟩, -⟩ := h
  have hcat := @List.takeWhile_append_dropWhile _ (· == m) t
  refine ⟨t.takeWhile (· == m), t.dropWhile (· == m), hcat.symm, hlength, ?_, ?_⟩
  · intro b hb
    exact eq_of_beq (List.all_eq_true.1 List.all_takeWhile b hb)
  · rw [← List.drop_drop, Text.drop_takeWhile_length, blanks, Text.drop_takeWhile_length] at hend
    have hnil : (t.dropWhile (· == m)).dropWhile isBlank = [] := by
      cases hrest : (t.dropWhile (· == m)).dropWhile isBlank with
      | nil => rfl
      | cons b s =>
          rw [hrest] at hend
          obtain rfl := eq_of_beq hend
          exfalso
          apply hnewline
          apply (List.dropWhile_sublist (· == m)).subset
          apply (List.dropWhile_sublist isBlank).subset
          rw [hrest]
          exact List.mem_cons_self
    exact List.dropWhile_eq_nil_iff.1 hnil

/-- A line is a rule only if it is made of one mark and blanks. -/
theorem rule_eq_none {c : Context} {t : Text} (hnewline : Ascii.newline ∉ t)
    (h : ∀ u v, t = u ++ v → 3 ≤ u.length → (∀ b ∈ v, isBlank b = true) →
      ¬ (∀ b ∈ u, b = Ascii.dash) ∧ ¬ ∀ b ∈ u, b = Ascii.equals) : rule c t = none := by
  unfold rule
  split
  · rw [Option.or_eq_none_iff]
    constructor
    · rw [Option.eq_none_iff_forall_ne_some]
      intro l hl
      obtain ⟨u, v, hcat, hlength, hu, hv⟩ := ruleOf_eq_some hl hnewline
      exact (h u v hcat hlength hv).1 hu
    · rw [Option.eq_none_iff_forall_ne_some]
      intro l hl
      obtain ⟨u, v, hcat, hlength, hu, hv⟩ := ruleOf_eq_some hl hnewline
      exact (h u v hcat hlength hv).2 hu
  · rfl

theorem mark_of_dashes {u : Text} (hlength : 3 ≤ u.length) (hu : ∀ b ∈ u, b = Ascii.dash) :
    commentMark <+: u := by
  match u, hlength with
  | a :: b :: u, _ =>
      rw [hu a (by simp), hu b (by simp)]
      exact ⟨u, rfl⟩

theorem rule_eq_none_of_plain {c : Context} {t : Text} (hnewline : Ascii.newline ∉ t)
    (hstart : ¬ commentMark <+: t) (htrim : Trimmed t) (hrule : ¬ t.IsDoubleRule) :
    rule c t = none := by
  apply rule_eq_none hnewline
  rintro u v rfl hlength hv
  have hnil : v = [] := by
    rcases List.eq_nil_or_concat v with rfl | ⟨v, b, rfl⟩
    · rfl
    · have hlast := htrim.2 b (by simp [List.getLast?_append])
      rw [hv b (by simp)] at hlast
      cases hlast
  rw [hnil, List.append_nil] at hstart hrule
  exact ⟨fun hu => hstart (mark_of_dashes hlength hu), fun hu => hrule ⟨hlength, hu⟩⟩

end Token

/-! ## One line as a document -/

theorem Line.split_line {ts : List Token} {e : Token}
    (h : ∀ t ∈ ts, t.kind ≠ .eof ∧ t.kind ≠ .newline) (he : e.kind = .eof) :
    split (ts ++ [e]) = [ts] := by
  induction ts with
  | nil => simp only [List.nil_append, split, he]
  | cons t ts ih =>
      obtain ⟨⟨heof, hnewline⟩, hts⟩ := List.forall_mem_cons.1 h
      exact split_cons_inside heof hnewline (ih hts)

theorem Statement.ofTokens_line {ts : List Token} {e : Token}
    (hin : ∀ t ∈ ts, t.kind.isInside = true) (he : e.kind = .eof) :
    ofTokens (ts ++ [e]) = if Line.content ts = [] then [] else [Line.expr (Line.content ts)] := by
  have hother : ∀ t ∈ ts, ∀ k : Token.Kind, k.isInside = false → t.kind ≠ k := by
    rintro t ht k hk rfl
    rw [hin t ht] at hk
    cases hk
  have hrule : ∀ t ∈ ts, t.kind ≠ .doubleRule := fun t ht => hother t ht _ rfl
  have hsplit := Line.split_line (fun t ht => ⟨hother t ht _ rfl, hother t ht _ rfl⟩) he
  have huntitled : Line.Untitled [] := trivial
  rw [ofTokens, hsplit, ofLines, next_untitled huntitled, ofLines, Line.statement_eq hrule,
    List.append_nil]
  rcases hcontent : Line.content ts with _ | ⟨t, us⟩
  · simp [Line.speaks, hcontent]
  · have ht := hin t (Line.mem_of_mem_content (by rw [hcontent]; exact List.mem_cons_self))
    have hspeaks : Line.speaks ts = true := by
      simp only [Line.speaks, hcontent, bne_iff_ne]
      intro hk
      simp [hk, Token.Kind.isInside] at ht
    simp [hspeaks]

namespace Document

/-- A text that is a single statement without an error needs no place in the source. -/
theorem parse_eq_singleton_iff [Locator] {file text : Text} {e : Expr} :
    parse file text = .ok [.ok e] ↔ Statement.ofTokens (tokenize text) = [.ok e] := by
  constructor
  · intro h
    exact (statements_of_locateAll h).symm
  · intro h
    rw [parse, h]
    rfl

end Document

/-! ## Writing and reading one expression -/

namespace Token

theorem Gapless.not_binding {c : Context} {ts : List Token} (h : Gapless c ts)
    (hsymbol : ∀ op : Binding, ¬ op.symbol <:+: ts.flatMap text) :
    ∀ t ∈ ts, ∀ op, t.kind ≠ .binding op := by
  induction ts generalizing c with
  | nil => simp
  | cons t ts ih =>
      rw [List.flatMap_cons] at hsymbol
      refine List.forall_mem_cons.2 ⟨?_, ih h.2.2 ?_⟩
      · intro op hk
        have hform := h.formed
        rw [hk] at hform
        obtain ⟨before, after, htext, -, -, -⟩ := hform.eq_binding
        exact hsymbol op ⟨before, after ++ ts.flatMap text, by rw [htext]; simp⟩
      · intro op hfound
        exact hsymbol op (List.infix_append_of_infix_right hfound)

theorem Gapless.inside {c : Context} {ts : List Token} (h : Gapless c ts) :
    ∀ t ∈ ts, t.kind.isInside = true := by
  induction ts generalizing c with
  | nil => simp
  | cons t ts ih => exact List.forall_mem_cons.2 ⟨h.2.1, ih h.2.2⟩

end Token

namespace Line

theorem content_eq_self {ts : List Token} (hts : ∀ t ∈ ts, t.Exact)
    (h : Trimmed (ts.flatMap Token.text)) : content ts = ts := by
  have htrim := trim_eq_self hts h
  have hlength : ts.length ≤ (content ts).length := by
    have hle := (List.rdropWhile_prefix Token.isWhite (ts.dropWhile Token.isWhite)).length_le
    rw [← trim, htrim] at hle
    exact hle
  exact (List.dropWhile_suffix Token.isWhite).eq_of_length_le hlength

theorem Binds.content {line : Line} {name : Text} {op : Binding} {rest : List Token}
    (h : Binds line name op rest) : content line = line := by
  obtain ⟨head, t, rfl, hhead, -⟩ := h
  cases hhead with
  | name hk => simp [Line.content, Token.isWhite, hk]
  | number hk => simp [Line.content, Token.isWhite, hk]
  | both hk => simp [Line.content, Token.isWhite, hk]

end Line

namespace Expr

/-- The source of a row of segments is read as the row. -/
theorem Row.ofTokens_render {P : Text → Prop} {es : List Expr} (h : Row P es) (hne : es ≠ [])
    (hplain : Text.Plain (render (mixAll es))) (hrule : ¬ Text.IsDoubleRule (render (mixAll es))) :
    Statement.ofTokens (tokenize (render (mixAll es))) = [.ok (mixAll es)] := by
  have hitem : IsItem P (mixAll es) := ⟨⟨es, h, rfl⟩, hplain.trimmed⟩
  obtain ⟨hsealed, htab⟩ := h.sealed
  rw [← render_mixAll] at hsealed htab
  have hnewline := hsealed.newline_not_mem
  obtain ⟨ts, hts, hcat, hscan⟩ := Token.exists_gapless ⟨true, false⟩ 0 (render (mixAll es))
    hnewline (Token.rule_eq_none_of_plain hnewline hplain.start hplain.trimmed hrule)
    (fun _ => hplain.start) hplain.unmarked
  have hbinding := hts.not_binding (by rw [hcat]; exact hplain.operator)
  have hcanonical := hts.canonical (by rwa [hcat]) (by rwa [hcat]) hbinding
  obtain ⟨us, vs, rfl, htext, hvs, hnil⟩ := hcanonical.isText hitem (Or.inl rfl)
    (by rw [hcat, List.append_nil])
  obtain rfl := hvs.eq_nil hnil
  rw [List.append_nil] at hts hcat hscan hbinding hcanonical
  have hcontent := Line.content_eq_self hcanonical.exact (by rw [hcat]; exact hplain.trimmed)
  have hspeaks : us ≠ [] := by
    rintro rfl
    apply hne
    apply h.eq_nil
    rw [← render_mixAll, ← hcat]
    rfl
  have hfree : ∀ name op rest, ¬ Line.Binds us name op rest := by
    rintro name op rest ⟨head, t, rfl, -, hk⟩
    exact hbinding t (by simp) op hk
  rw [tokenize, hscan, Statement.ofTokens_line hts.inside rfl, hcontent, if_neg hspeaks,
    Line.expr_of_not_binds hfree,
    Line.freeText_of_isText htext fun t ht => (hcanonical.exact t ht).ne_nil]

/-! ## Writing and reading a binding -/

theorem not_mark_append_space {u v : Text} (h : ¬ commentMark <+: u) :
    ¬ commentMark <+: u ++ Ascii.space :: v := by
  by_cases hu : u = []
  · subst hu
    rw [← List.isPrefixOf_iff_prefix]
    exact Bool.false_ne_true
  · rwa [← List.isPrefixOf_iff_prefix,
      Token.commentMark_append_congr hu fun a _ => Token.sameEdge_space a v, List.append_nil,
      List.isPrefixOf_iff_prefix]

theorem plain_items {e : Expr} {es : List Expr} (he : Text.Plain (render e))
    (hes : ∀ f ∈ es, Text.Plain (render f)) :
    Text.Unmarked (render e ++ renderMore es) ∧ ¬ commentMark <+: render e ++ renderMore es ∧
      ∀ op : Binding, ¬ op.symbol <:+: render e ++ renderMore es := by
  induction es generalizing e with
  | nil =>
      rw [renderMore, List.append_nil]
      exact ⟨he.unmarked, he.start, he.operator⟩
  | cons f es ih =>
      obtain ⟨hf, hes⟩ := List.forall_mem_cons.1 hes
      obtain ⟨hmark, hstart, hoperator⟩ := ih hf hes
      rw [renderMore_cons]
      refine ⟨?_, not_mark_append_space he.start, ?_⟩
      · have hbar := (he.unmarked.concat (x := Ascii.space) (by decide)).append
          (hmark.blank hstart Ascii.space) (x := Ascii.bar) rfl (by decide)
        rwa [List.append_assoc, List.singleton_append] at hbar
      · intro op hfound
        have hnil : ¬ op.symbol <:+: [] := by
          rw [List.infix_nil]
          cases op <;> simp [Binding.symbol]
        rcases Text.infix_cases_of_not_mem (op.not_mem_symbol rfl) hfound with h | h
        · exact he.operator op h
        rcases Text.infix_cases_of_not_mem (u := []) (op.not_mem_symbol rfl) h with h | h
        · exact hnil h
        rcases Text.infix_cases_of_not_mem (u := []) (op.not_mem_symbol rfl) h with h | h
        · exact hnil h
        · exact hoperator op h

end Expr

namespace Token

theorem PoolName.not_mem {n : Text} (h : PoolName n) {a : UInt8} (hinner : ∀ t, ¬ Inner a t)
    (hdigit : isDigit a = false) (hblank : isBlank a = false) : a ∉ n := by
  have hname : ∀ {m : Text}, NameForm m [] → a ∉ m := by
    intro m hm hmem
    obtain ⟨x, y, rfl⟩ := List.append_of_mem hmem
    exact hinner _ (hm.inner x a y rfl)
  have hnumber : ∀ {d : Text}, (∀ b ∈ d, isDigit b = true) → a ∉ d := by
    intro d hd hmem
    rw [hd a hmem] at hdigit
    cases hdigit
  cases h with
  | name hn => exact hname hn
  | number _ hd => exact hnumber hd
  | @both d w m _ hd hw hn =>
      have hwhite : a ∉ w := by
        intro hmem
        rw [hw a hmem] at hblank
        cases hblank
      simp [hname hn, hnumber hd, hwhite]

theorem PoolName.sealed {n : Text} (h : PoolName n) : Expr.Sealed n :=
  Expr.sealed_of_plain (h.not_mem (fun _ hi => hi.backslash rfl) rfl rfl)
    (h.not_mem (fun _ hi => hi.newline rfl) rfl rfl)

end Token

namespace Expr

theorem render_bind (op : Binding) (name : Text) (e : Expr) (es : List Expr) :
    render (.bind op name (e :: es)) =
      name ++ Ascii.space :: (op.symbol ++ Ascii.space :: (render e ++ renderMore es)) := by
  rw [render, renderItems]
  simp

theorem sealed_items {P : Text → Prop} {e : Expr} {es : List Expr}
    (h : ∀ f ∈ e :: es, ∃ fs, Row P fs ∧ f = mixAll fs) :
    Sealed (render e ++ renderMore es) ∧ Ascii.tab ∉ render e ++ renderMore es := by
  induction es generalizing e with
  | nil =>
      obtain ⟨fs, hfs, rfl⟩ := h e (by simp)
      rw [renderMore, List.append_nil, render_mixAll]
      exact hfs.sealed
  | cons f es ih =>
      obtain ⟨⟨fs, hfs, rfl⟩, hes⟩ := List.forall_mem_cons.1 h
      obtain ⟨hsealed, htab⟩ := hfs.sealed
      obtain ⟨hsealed', htab'⟩ := ih hes
      have hbar : Sealed [Ascii.space, Ascii.bar, Ascii.space] :=
        sealed_of_plain (by decide) (by decide)
      rw [renderMore_cons, render_mixAll]
      refine ⟨hsealed.append (hbar.append hsealed'), ?_⟩
      have hspace : Ascii.tab ≠ Ascii.space ∧ Ascii.tab ≠ Ascii.bar := by decide
      rw [List.mem_append, List.mem_cons, List.mem_cons, List.mem_cons]
      simp [htab, htab', hspace]

theorem Sealed.dropBlanks {t : Text} (h : Sealed t) : Sealed (t.dropWhile isBlank) := by
  rw [← @List.takeWhile_append_dropWhile _ isBlank t] at h
  apply h.of_append
  intro hmem
  cases List.all_eq_true.1 List.all_takeWhile _ hmem

theorem symbol_eq (op : Binding) : ∃ a z, op.symbol = [a, z] ∧ isBlank a = false ∧
    a ≠ Ascii.dash ∧ a ≠ Ascii.equals ∧ isBlank z = false := by
  cases op <;> exact ⟨_, _, rfl, by decide⟩

section

variable {name items : Text} (op : Binding)

theorem sealed_bind (hname : Sealed name) (hitems : Sealed items) :
    Sealed (name ++ Ascii.space :: (op.symbol ++ Ascii.space :: items)) := by
  have hsymbol : Sealed op.symbol :=
    sealed_of_plain (op.not_mem_symbol rfl) (op.not_mem_symbol rfl)
  exact hname.append (.plain (by decide) (by decide) (hsymbol.append
    (.plain (by decide) (by decide) hitems)))

theorem unmarked_bind (hname : Text.Unmarked name) (hitems : Text.Unmarked items)
    (hstart : ¬ commentMark <+: items) :
    Text.Unmarked (name ++ Ascii.space :: (op.symbol ++ Ascii.space :: items)) := by
  obtain ⟨a, z, hsymbol, ha, hdash, -, hz⟩ := symbol_eq op
  have hafter := (hitems.blank hstart Ascii.space).cons hz
  have hwhole := (hname.concat (x := Ascii.space) (by decide)).append hafter ha hdash
  rwa [hsymbol, List.cons_append, List.singleton_append, ← List.singleton_append (x := Ascii.space),
    ← List.append_assoc]

theorem rule_bind (c : Token.Context)
    (hnewline : Ascii.newline ∉ name ++ Ascii.space :: (op.symbol ++ Ascii.space :: items)) :
    Token.rule c (name ++ Ascii.space :: (op.symbol ++ Ascii.space :: items)) = none := by
  obtain ⟨a, z, hsymbol, ha, hdash, hequals, -⟩ := symbol_eq op
  apply Token.rule_eq_none hnewline
  intro u v hcat _ hv
  have hmem : a ∈ u ++ v := by
    rw [← hcat, hsymbol]
    simp
  have hu : a ∈ u := by
    rcases List.mem_append.1 hmem with hmem | hmem
    · exact hmem
    · rw [hv a hmem] at ha
      cases ha
  exact ⟨fun h => hdash (h a hu), fun h => hequals (h a hu)⟩

end

/-- The source of a binding is read as that binding, if its name and its items are plain. -/
theorem ofTokens_render_bind {P : Text → Prop} {name : Text} (op : Binding) {e : Expr}
    {es : List Expr} (hname : PoolName name) (hmark : Text.Unmarked name)
    (hstart : ¬ commentMark <+: name)
    (hrow : ∀ f ∈ e :: es, ∃ fs, Row P fs ∧ f = mixAll fs)
    (hplain : ∀ f ∈ e :: es, Text.Plain (render f)) :
    Statement.ofTokens (tokenize (render (.bind op name (e :: es)))) =
      [.ok (.bind op name (e :: es))] := by
  obtain ⟨he, hes⟩ := List.forall_mem_cons.1 hplain
  obtain ⟨hmark', hstart', hsymbol⟩ := plain_items he hes
  obtain ⟨hsealed, htab⟩ := sealed_items hrow
  have hnewline := (sealed_bind op hname.sealed hsealed).newline_not_mem
  obtain ⟨ts, hts, hcat, hscan⟩ := Token.exists_gapless ⟨true, false⟩ 0 _ hnewline
    (rule_bind op _ hnewline) (fun _ => not_mark_append_space hstart)
    (unmarked_bind op hmark hmark' hstart')
  obtain ⟨c, rest, hbinds, hrest, hitems⟩ := hts.binds hname hcat
  rw [List.dropWhile_cons_of_pos rfl] at hitems
  have hcanonical : Line.Canonical rest := by
    apply hrest.canonical
    · rw [hitems]
      exact hsealed.dropBlanks
    · rw [hitems]
      exact fun hmem => htab ((List.dropWhile_sublist isBlank).subset hmem)
    · apply hrest.not_binding
      intro op' hfound
      rw [hitems] at hfound
      exact hsymbol op' (hfound.trans (List.dropWhile_suffix isBlank).isInfix)
  have hread : Line.IsItems rest (e :: es) :=
    hcanonical.isItems (P := P) ⟨hrow e (by simp), he.trimmed⟩
      (fun f hf => ⟨hrow f (by simp [hf]), (hes f hf).trimmed⟩) hitems
  have hline : ts ≠ [] := by
    rintro rfl
    obtain ⟨head, t, hnil, -, -⟩ := hbinds
    simp at hnil
  rw [render_bind, tokenize, hscan, Statement.ofTokens_line hts.inside rfl, hbinds.content,
    if_neg hline, Line.expr_of_binds hbinds,
    Line.itemList_of_isItems hread fun t ht => (hcanonical.exact t ht).ne_nil]
  rfl

end Expr

end PoolProse
