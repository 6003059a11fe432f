import Mathlib.Data.List.Infix
import PoolProse.Proofs.LineGrammar
import PoolProse.Proofs.Lossless
import PoolProse.Proofs.TokenForms

/-!
# Source that is scanned without a gap

A line of source has no gap between its tokens unless it holds a comment or a continued line. Where
there is none, a comment mark stands at no place at which a comment could start. If each backslash
stands before a letter of an escape, then every token is written as the literal that it stands for
would be.
-/
namespace PoolProse

namespace Text

theorem infix_append_cases {a : UInt8} {p u v : Text} (h : a :: p <:+: u ++ v) :
    a :: p <:+: v ∨ ∃ x y, u = x ++ a :: y ∧ p <+: y ++ v := by
  obtain ⟨s, r, hcat⟩ := h
  rw [List.append_assoc] at hcat
  rcases List.append_eq_append_iff.1 hcat with ⟨y, rfl, hy⟩ | ⟨y, rfl, hy⟩
  · cases y with
    | nil => exact Or.inl ⟨[], r, hy⟩
    | cons b y =>
        obtain ⟨rfl, htail⟩ := List.cons.inj hy
        exact Or.inr ⟨s, y, rfl, r, htail⟩
  · exact Or.inl ⟨y, r, by rw [List.append_assoc, hy]⟩

/-- The bytes of a text that are not blank. -/
def ink (t : Text) : Text := t.filter fun b => !isBlank b

theorem ink_append (u v : Text) : ink (u ++ v) = ink u ++ ink v :=
  List.filter_append u v

theorem ink_blanks {t : Text} (h : ∀ b ∈ t, isBlank b = true) : ink t = [] := by
  rw [ink, List.filter_eq_nil_iff]
  intro b hb
  simp [h b hb]

/-- The text neither starts nor ends with a blank. -/
def Trimmed (t : Text) : Prop :=
  (∀ b ∈ t.head?, isBlank b = false) ∧ ∀ b ∈ t.getLast?, isBlank b = false

end Text

theorem Binding.symbol_mem {op : Binding} {b : UInt8} (h : b ∈ op.symbol) :
    b = Ascii.colon ∨ b = Ascii.less ∨ b = Ascii.bang ∨ b = Ascii.dash := by
  cases op <;> simp [Binding.symbol] at h <;> tauto

/-! ## Escapes -/

namespace Expr

/-- The letters that follow a backslash in what is written for a literal. -/
def escapeLetters : List UInt8 :=
  [Ascii.letterN, Ascii.letterT, Ascii.backslash, Ascii.parenOpen, Ascii.parenClose,
    Ascii.braceOpen, Ascii.braceClose, Ascii.bar]

theorem escapeByte_cases (b : UInt8) :
    (escapeByte b = [b] ∧ b ≠ Ascii.newline ∧ b ≠ Ascii.tab ∧ b ≠ Ascii.backslash ∧
      Token.bracketKind b = none ∧ b ≠ Ascii.bar) ∨
    ∃ x ∈ escapeLetters, escapeByte b = [Ascii.backslash, x] ∧
      Token.decodeEscape [Ascii.backslash, x] = [b] := by
  by_cases hnewline : b = Ascii.newline
  · subst hnewline
    exact Or.inr ⟨Ascii.letterN, by simp [escapeLetters], rfl, rfl⟩
  by_cases htab : b = Ascii.tab
  · subst htab
    exact Or.inr ⟨Ascii.letterT, by simp [escapeLetters], rfl, rfl⟩
  by_cases hspecial : b = Ascii.backslash ∨ b = Ascii.parenOpen ∨ b = Ascii.parenClose ∨
      b = Ascii.braceOpen ∨ b = Ascii.braceClose ∨ b = Ascii.bar
  · right
    rcases hspecial with rfl | rfl | rfl | rfl | rfl | rfl
    all_goals exact ⟨_, by simp [escapeLetters], rfl, rfl⟩
  · left
    simp only [not_or] at hspecial
    simp [escapeByte, Token.bracketKind, hnewline, htab, hspecial]

theorem escapeByte_plain {b : UInt8} (hnewline : b ≠ Ascii.newline) (htab : b ≠ Ascii.tab)
    (hbackslash : b ≠ Ascii.backslash) (hbracket : Token.bracketKind b = none)
    (hbar : b ≠ Ascii.bar) : escapeByte b = [b] := by
  have hparens : b ≠ Ascii.parenOpen ∧ b ≠ Ascii.parenClose := by
    constructor <;> (rintro rfl; cases hbracket)
  have hbraces : b ≠ Ascii.braceOpen ∧ b ≠ Ascii.braceClose := by
    constructor <;> (rintro rfl; cases hbracket)
  simp [escapeByte, hnewline, htab, hbackslash, hbar, hparens, hbraces]

theorem escapeText_decodeEscape {x : UInt8} (hx : x ∈ escapeLetters) :
    escapeText (Token.decodeEscape [Ascii.backslash, x]) = [Ascii.backslash, x] := by
  simp only [escapeLetters, List.mem_cons, List.not_mem_nil, or_false] at hx
  rcases hx with rfl | rfl | rfl | rfl | rfl | rfl | rfl | rfl <;> rfl

theorem escapeLetters_plain {x : UInt8} (hx : x ∈ escapeLetters) :
    x < 0x80 ∧ x ≠ Ascii.newline ∧ Text.isBlank x = false ∧ x ≠ Ascii.colon ∧ x ≠ Ascii.less ∧
      x ≠ Ascii.dash := by
  simp only [escapeLetters, List.mem_cons, List.not_mem_nil, or_false] at hx
  rcases hx with rfl | rfl | rfl | rfl | rfl | rfl | rfl | rfl <;> decide

/-- Source without a newline in which each backslash starts an escape that writes a byte. -/
inductive Sealed : Text → Prop where
  | nil : Sealed []
  | plain {b : UInt8} {t : Text} (hbackslash : b ≠ Ascii.backslash) (hnewline : b ≠ Ascii.newline)
      (h : Sealed t) : Sealed (b :: t)
  | escape {x : UInt8} {t : Text} (hx : x ∈ escapeLetters) (h : Sealed t) :
      Sealed (Ascii.backslash :: x :: t)

theorem Sealed.append {u v : Text} (hu : Sealed u) (hv : Sealed v) : Sealed (u ++ v) := by
  induction hu with
  | nil => exact hv
  | plain hbackslash hnewline _ ih => exact .plain hbackslash hnewline ih
  | escape hx _ ih => exact .escape hx ih

theorem Sealed.newline_not_mem {t : Text} (h : Sealed t) : Ascii.newline ∉ t := by
  induction h with
  | nil => simp
  | plain _ hnewline _ ih => simp [Ne.symm hnewline, ih]
  | escape hx _ ih =>
      have hne := (escapeLetters_plain hx).2.1
      have hbackslash : Ascii.newline ≠ Ascii.backslash := by decide
      simp [hbackslash, Ne.symm hne, ih]

theorem Sealed.of_escape {t : Text} (h : Sealed (Ascii.backslash :: t)) :
    ∃ x u, t = x :: u ∧ x ∈ escapeLetters ∧ Sealed u := by
  cases h with
  | plain hbackslash => exact absurd rfl hbackslash
  | escape hx h => exact ⟨_, _, rfl, hx, h⟩

theorem Sealed.of_append {u v : Text} (hu : Ascii.backslash ∉ u) (h : Sealed (u ++ v)) :
    Sealed v := by
  induction u with
  | nil => exact h
  | cons b u ih =>
      rw [List.mem_cons, not_or] at hu
      rw [List.cons_append] at h
      generalize hw : u ++ v = w at h
      cases h with
      | plain _ _ h => exact ih hu.2 (by rwa [hw])
      | escape => exact absurd rfl hu.1

theorem sealed_of_plain {t : Text} (hbackslash : Ascii.backslash ∉ t)
    (hnewline : Ascii.newline ∉ t) : Sealed t := by
  induction t with
  | nil => exact .nil
  | cons b t ih =>
      rw [List.mem_cons, not_or] at hbackslash hnewline
      exact .plain (Ne.symm hbackslash.1) (Ne.symm hnewline.1) (ih hbackslash.2 hnewline.2)

theorem sealed_escapeText (s : Text) : Sealed (escapeText s) := by
  induction s with
  | nil => exact .nil
  | cons b s ih =>
      rw [escapeText, List.flatMap_cons, ← escapeText]
      rcases escapeByte_cases b with ⟨hb, hnewline, -, hbackslash, -, -⟩ | ⟨x, hx, hb, -⟩
      · rw [hb]
        exact .plain hbackslash hnewline ih
      · rw [hb]
        exact .escape hx ih

end Expr

namespace Token

open Text (isBlank isDigit blanks ink Trimmed)

/-! ## Lines without a gap -/

/-- The tokens of a line are those that a scan of their own text finds, with nothing between. -/
def Gapless (c : Context) : List Token → Prop
  | [] => True
  | t :: ts =>
    lexeme c (t.text ++ ts.flatMap text) = some ⟨some t.kind, t.text.length⟩ ∧
      t.kind.isInside = true ∧ Gapless (c.after ⟨some t.kind, t.text.length⟩ t.text) ts

section

variable {c : Context} {t : Token} {ts : List Token}

theorem Gapless.formed (h : Gapless c (t :: ts)) : Formed t.kind t.text (ts.flatMap text) := by
  have hform := (lexeme_formed h.1 h.2.1).1
  rwa [List.take_left' rfl, List.drop_left' rfl] at hform

theorem Gapless.text_ne_nil (h : Gapless c (t :: ts)) : t.text ≠ [] :=
  List.length_pos_iff.1 (lexeme_pos h.1)

theorem Gapless.not_mark (h : Gapless c ts) (hc : c.lineStart = true ∨ c.afterBlank = true) :
    ¬ commentMark <+: ts.flatMap text := by
  cases ts with
  | nil => simp [commentMark]
  | cons t ts =>
      rw [List.flatMap_cons]
      rintro ⟨u, hu⟩
      have hcomment := comment_eq_none_iff.1 (lexeme_formed h.1 h.2.1).2
      have hzero : blanks (t.text ++ ts.flatMap text) = 0 := by
        rw [← hu, Text.blanks_eq_zero_iff]
        rintro b hb
        obtain rfl : Ascii.dash = b := by simpa [commentMark] using hb
        rfl
      rw [hzero, List.drop_zero] at hcomment
      exact hcomment (Or.inr hc) ⟨u, hu⟩

end

theorem continuation_eq_none {c : Context} {t : Text} (h : Ascii.newline ∉ t) :
    continuation c t = none := by
  have hstarts : ∀ u : Text, Ascii.newline ∈ u → u.isPrefixOf t = false := by
    intro u hu
    rw [← Bool.not_eq_true, List.isPrefixOf_iff_prefix]
    exact fun hut => h (hut.subset hu)
  simp only [continuation]
  rw [hstarts _ (by simp), hstarts _ (by simp)]
  rfl

theorem comment_eq_none {c : Context} {t : Text}
    (hstart : c.lineStart = true ∨ c.afterBlank = true → ¬ commentMark <+: t)
    (hmark : ∀ b, isBlank b = true → ¬ b :: commentMark <:+: t) : comment c t = none := by
  obtain ⟨u, v, rfl, hu, hcount, -⟩ := Text.exists_blanks t
  rw [comment_eq_none_iff, hcount, List.drop_left' rfl]
  intro hfresh hv
  rcases List.eq_nil_or_concat u with rfl | ⟨u, b, rfl⟩
  · exact hstart (hfresh.resolve_left (by simp)) hv
  · obtain ⟨w, rfl⟩ := hv
    exact hmark b (hu b (by simp)) ⟨u, w, by simp⟩

theorem Context.after_inside {c : Context} {k : Kind} {n : Nat} {read : Text}
    (hk : k.isInside = true) (hread : read ≠ []) :
    (c.after ⟨some k, n⟩ read).lineStart = false ∧
      ((c.after ⟨some k, n⟩ read).afterBlank = true ↔
        ∃ u b, read = u ++ [b] ∧ isBlank b = true) := by
  have hnewline : (k == Kind.newline) = false := by
    cases k <;> first | rfl | cases hk
  refine ⟨hnewline, ?_⟩
  rcases List.eq_nil_or_concat read with rfl | ⟨u, b, rfl⟩
  · exact absurd rfl hread
  · simp [Context.after]

/-- A line in which no comment can start is scanned without a gap. -/
theorem exists_gapless (c : Context) (p : Nat) (t : Text) (hnewline : Ascii.newline ∉ t)
    (hrule : rule c t = none) (hstart : c.lineStart = true ∨ c.afterBlank = true →
      ¬ commentMark <+: t) (hmark : ∀ b, isBlank b = true → ¬ b :: commentMark <:+: t) :
    ∃ ts, Gapless c ts ∧ ts.flatMap text = t ∧
      scanFrom c p t = ts ++ [⟨.eof, [], (p + t.length : Nat)⟩] := by
  induction c, p, t using scan_induction with
  | nil c p => exact ⟨[], trivial, rfl, scanFrom_nil c p⟩
  | step c p k read rest hread hl hsp ih =>
      have hcomment := comment_eq_none hstart hmark
      rcases lexeme_inside (continuation_eq_none hnewline) hrule hcomment hl with ⟨k, rfl, hk⟩ | hn
      · obtain ⟨hline, hblank⟩ := Context.after_inside (c := c) (n := read.length) hk hread
        obtain ⟨ts, hts, hcat, hscan⟩ := ih
          (fun hmem => hnewline (List.mem_append_right _ hmem)) (by simp [rule, hline])
          (by
            rintro (hfresh | hfresh)
            · rw [hline] at hfresh
              cases hfresh
            · obtain ⟨u, b, rfl, hb⟩ := hblank.1 hfresh
              rintro ⟨v, rfl⟩
              exact hmark b hb ⟨u, v, by simp⟩)
          (fun b hb hfound => hmark b hb (List.infix_append_of_infix_right hfound))
        refine ⟨⟨k, read, p⟩ :: ts, ⟨?_, hk, hts⟩, ?_, ?_⟩
        · rw [hcat]
          exact hl
        · rw [List.flatMap_cons, hcat]
        · rw [scanFrom_append hl, hscan, List.length_append, Nat.add_assoc]
          rfl
      · exact absurd (hn.subset List.mem_cons_self) hnewline

theorem Covers.sublist {p : Nat} {t : Text} {ts : List Token} (h : Covers p t ts) :
    (ts.flatMap text).Sublist t := by
  induction h with
  | eof => exact List.nil_sublist _
  | @token p k gap read rest ts _ _ _ _ ih =>
      rw [List.flatMap_cons]
      exact (ih.append_left read).trans (List.sublist_append_right gap _)

/-- A line that loses no more than blanks when it is scanned loses nothing. -/
theorem gapless_of_ink (c : Context) (p : Nat) (t : Text) (hnewline : Ascii.newline ∉ t)
    {ts : List Token} {e : Token} (hscan : scanFrom c p t = ts ++ [e])
    (hin : ∀ u ∈ ts, u.kind.isInside = true) (hink : ink (ts.flatMap text) = ink t) :
    Gapless c ts ∧ ts.flatMap text = t := by
  induction c, p, t using scan_induction generalizing ts with
  | nil c p =>
      rw [scanFrom_nil] at hscan
      obtain ⟨rfl, -⟩ := List.append_eq_singleton_iff.1 hscan.symm |>.resolve_right (by simp)
      exact ⟨trivial, rfl⟩
  | step c p k read rest hread hl hsp ih =>
      have hrest : Ascii.newline ∉ rest := fun hmem => hnewline (List.mem_append_right _ hmem)
      rw [scanFrom_append hl] at hscan
      rw [Text.ink_append] at hink
      cases k with
      -- A gap has ink, and the tokens behind it cannot make up for it.
      | none =>
          have hlost : ink read ≠ [] := by
            cases hsp with
            | continuation h =>
                rcases h with rfl | rfl
                all_goals exact absurd (by simp) hnewline
            | comment h =>
                obtain ⟨before, after, rfl, -, -⟩ := h
                have hdash : Ascii.dash ∈ ink (before ++ commentMark ++ after) := by
                  rw [ink, List.mem_filter]
                  exact ⟨by simp [commentMark], rfl⟩
                exact List.ne_nil_of_mem hdash
          have hcovers := scanFrom_covers (c.after ⟨none, read.length⟩ read) (p + read.length) rest
          rw [show scanFrom _ _ rest = ts ++ [e] from hscan] at hcovers
          have hsub : (ink (ts.flatMap text)).Sublist (ink rest) := by
            have hall := hcovers.sublist
            rw [List.flatMap_append] at hall
            exact ((List.sublist_append_left _ _).trans hall).filter _
          have hlength := hsub.length_le
          have hpos := List.length_pos_iff.2 hlost
          rw [hink, List.length_append] at hlength
          omega
      | some k =>
          have hcons : (⟨k, read, p⟩ : Token) ::
              scanFrom (c.after ⟨some k, read.length⟩ read) (p + read.length) rest = ts ++ [e] :=
            hscan
          rcases List.cons_eq_append_iff.1 hcons with ⟨rfl, he⟩ | ⟨us, rfl, hus⟩
          · obtain ⟨-, hnil⟩ := List.cons.inj he
            obtain ⟨us, hus, -⟩ := (scanFrom_covers (c.after ⟨some k, read.length⟩ read)
              (p + read.length) rest).last
            rw [← hnil] at hus
            simp at hus
          · obtain ⟨hk, hin⟩ := List.forall_mem_cons.1 hin
            rw [List.flatMap_cons, Text.ink_append] at hink
            obtain ⟨hgapless, hcat⟩ := ih hrest hus hin (List.append_cancel_left hink)
            refine ⟨⟨?_, hk, hgapless⟩, ?_⟩
            · rw [hcat]
              exact hl
            · rw [List.flatMap_cons, hcat]

/-! ## The tokens of sealed source -/

theorem Formed.kind_of_mem {k : Kind} {read rest : Text} {b : UInt8} (h : Formed k read rest)
    (hb : b ∈ read) (hblank : isBlank b = false) (hdigit : isDigit b = false)
    (hbracket : bracketKind b = none) (hbar : b ≠ Ascii.bar) :
    k = .name ∨ k = .escape ∨ ∃ op, k = .binding op := by
  cases h with
  | pipe hbefore hafter =>
      have hall : isBlank b = true ∨ b = Ascii.bar ∨ isBlank b = true := by
        simpa using (List.mem_append.1 hb).imp (hbefore b) fun hb =>
          (List.mem_cons.1 hb).imp_right (hafter b)
      simp [hblank, hbar] at hall
  | @binding op => exact Or.inr (Or.inr ⟨op, rfl⟩)
  | @opening br =>
      obtain rfl := List.mem_singleton.1 hb
      cases br <;> cases hbracket
  | @closing br =>
      obtain rfl := List.mem_singleton.1 hb
      cases br <;> cases hbracket
  | escape => exact Or.inr (Or.inl rfl)
  | white _ hread =>
      rw [hread b hb] at hblank
      cases hblank
  | number _ hread =>
      rw [hread b hb] at hdigit
      cases hdigit
  | name => exact Or.inl rfl

theorem Formed.eq_pipe {read rest : Text} (h : Formed .pipe read rest) :
    ∃ before after, read = before ++ Ascii.bar :: after ∧ (∀ b ∈ before, isBlank b = true) ∧
      (∀ b ∈ after, isBlank b = true) ∧ blanks rest = 0 := by
  cases h with
  | pipe hbefore hafter hrest => exact ⟨_, _, rfl, hbefore, hafter, hrest⟩

theorem Formed.eq_binding {op : Binding} {read rest : Text} (h : Formed (.binding op) read rest) :
    ∃ before after, read = before ++ (op.symbol ++ after) ∧ (∀ b ∈ before, isBlank b = true) ∧
      (∀ b ∈ after, isBlank b = true) ∧ blanks rest = 0 := by
  cases h with
  | binding hbefore hafter hrest => exact ⟨_, _, rfl, hbefore, hafter, hrest⟩

theorem Formed.nameForm {read rest : Text} (h : Formed .name read rest) : NameForm read rest := by
  cases h with
  | name h => exact h

theorem Formed.eq_escape {read rest : Text} (h : Formed .escape read rest)
    (hs : Expr.Sealed (read ++ rest)) :
    ∃ x ∈ Expr.escapeLetters, read = [Ascii.backslash, x] := by
  cases h with
  | @escape r _ hr =>
      rw [List.cons_append] at hs
      obtain ⟨x, u, hcat, hx, -⟩ := hs.of_escape
      have hfirst : (CodePoint.ofLead x u).bytes = [x] := by
        simp only [CodePoint.ofLead, if_pos (Expr.escapeLetters_plain hx).1]
      rw [hcat, CodePoint.first?, Option.map_some, Option.getD_some, hfirst] at hr
      exact ⟨x, hx, by rw [hr]⟩

theorem Formed.backslash_not_mem {k : Kind} {read rest : Text} (h : Formed k read rest)
    (hk : k ≠ .escape) : Ascii.backslash ∉ read := by
  intro hmem
  rcases h.kind_of_mem hmem rfl rfl rfl (by decide) with rfl | rfl | ⟨op, rfl⟩
  · obtain ⟨x, y, rfl⟩ := List.append_of_mem hmem
    exact (h.nameForm.inner x _ y rfl).backslash rfl
  · exact hk rfl
  · obtain ⟨before, after, rfl, hbefore, hafter, -⟩ := h.eq_binding
    rcases List.mem_append.1 hmem with hmem | hmem
    · cases hbefore _ hmem
    rcases List.mem_append.1 hmem with hmem | hmem
    · rcases Binding.symbol_mem hmem with h | h | h | h <;> exact absurd h (by decide)
    · cases hafter _ hmem

theorem Formed.binding_not_dash {op : Binding} {read rest : Text} {b : UInt8}
    (h : Formed (.binding op) read rest) (hb : isBlank b = true) :
    ¬ [b, Ascii.dash] <:+: read := by
  obtain ⟨before, after, rfl, hbefore, hafter, -⟩ := h.eq_binding
  intro hfound
  rcases Text.infix_append_cases hfound with hfound | ⟨x, y, rfl, hdash⟩
  · rcases Text.infix_append_cases hfound with hfound | ⟨x, y, hsymbol, -⟩
    · cases hafter Ascii.dash (hfound.subset (by simp))
    · have hmem : b ∈ op.symbol := by simp [hsymbol]
      rcases Binding.symbol_mem hmem with rfl | rfl | rfl | rfl <;> cases hb
  · obtain ⟨u, hu⟩ := hdash
    cases y with
    | nil => cases op <;> exact absurd (List.cons.inj hu).1 (by decide)
    | cons d y =>
        obtain ⟨rfl, -⟩ := List.cons.inj hu
        cases hbefore Ascii.dash (by simp)

theorem Formed.sealed {k : Kind} {read rest : Text} (h : Formed k read rest)
    (hs : Expr.Sealed (read ++ rest)) : Expr.Sealed rest := by
  by_cases hk : k = .escape
  · rw [hk] at h
    obtain ⟨x, hx, rfl⟩ := h.eq_escape hs
    obtain ⟨y, u, hcat, -, hu⟩ := hs.of_escape
    obtain ⟨-, rfl⟩ := List.cons.inj hcat
    exact hu
  · exact hs.of_append (h.backslash_not_mem hk)

theorem Gapless.sealed {c : Context} {t : Token} {ts : List Token} (h : Gapless c (t :: ts))
    (hs : Expr.Sealed (t.text ++ ts.flatMap text)) : Expr.Sealed (ts.flatMap text) :=
  h.formed.sealed hs

theorem Gapless.not_blank_mark {c : Context} {ts : List Token} (h : Gapless c ts)
    (hs : Expr.Sealed (ts.flatMap text)) {b : UInt8} (hb : isBlank b = true) :
    ¬ b :: commentMark <:+: ts.flatMap text := by
  induction ts generalizing c with
  | nil => simp
  | cons t ts ih =>
      rw [List.flatMap_cons] at hs ⊢
      intro hfound
      rcases Text.infix_append_cases hfound with hfound | ⟨x, y, htext, hmark⟩
      · exact ih h.2.2 (h.sealed hs) hfound
      cases y with
      -- The token ends with the blank, so a comment could start right behind it.
      | nil =>
          have hfresh := (Context.after_inside (c := c) (n := t.text.length) h.2.1
            h.text_ne_nil).2.2 ⟨x, b, htext, hb⟩
          exact h.2.2.not_mark (Or.inr hfresh) hmark
      | cons d y =>
          obtain rfl : Ascii.dash = d := by
            obtain ⟨u, hu⟩ := hmark
            exact (List.cons.inj hu).1
          have hform := h.formed
          have hdash : Ascii.dash ∈ t.text := by simp [htext]
          rcases hform.kind_of_mem hdash rfl rfl rfl (by decide) with hk | hk | ⟨op, hk⟩
          · rw [hk] at hform
            apply (hform.nameForm.inner x b (Ascii.dash :: y) htext).mark hb
            rwa [List.cons_append, List.dropWhile_cons_of_neg (by decide)]
          · rw [hk] at hform
            obtain ⟨z, hz, hescape⟩ := hform.eq_escape hs
            have hne := (Expr.escapeLetters_plain hz).2.2.2.2.2
            have hmem : Ascii.dash = Ascii.backslash ∨ Ascii.dash = z := by
              simpa [hescape] using hdash
            rcases hmem with hmem | hmem
            · exact absurd hmem (by decide)
            · exact hne hmem.symm
          · rw [hk] at hform
            exact hform.binding_not_dash hb ⟨x, y, by simp [htext]⟩

theorem Gapless.not_symbol {c : Context} {ts : List Token} (h : Gapless c ts)
    (hs : Expr.Sealed (ts.flatMap text)) (hbinding : ∀ t ∈ ts, ∀ op, t.kind ≠ .binding op)
    (op : Binding) : ¬ op.symbol <:+: ts.flatMap text := by
  obtain ⟨a, z, hsymbol, ha⟩ : ∃ a z, op.symbol = [a, z] ∧ (a = Ascii.colon ∨ a = Ascii.less) := by
    cases op <;> exact ⟨_, _, rfl, by simp⟩
  induction ts generalizing c with
  | nil => simp [hsymbol]
  | cons t ts ih =>
      obtain ⟨ht, hbinding⟩ := List.forall_mem_cons.1 hbinding
      rw [List.flatMap_cons] at hs ⊢
      intro hfound
      rw [hsymbol] at hfound ih
      rcases Text.infix_append_cases hfound with hfound | ⟨x, y, htext, hz⟩
      · exact ih h.2.2 (h.sealed hs) hbinding hfound
      have hform := h.formed
      have hmem : a ∈ t.text := by simp [htext]
      have hplain : isBlank a = false ∧ isDigit a = false ∧ bracketKind a = none ∧
          a ≠ Ascii.bar ∧ a ≠ Ascii.backslash := by
        rcases ha with rfl | rfl <;> decide
      obtain ⟨hblank, hdigit, hbracket, hbar, hbackslash⟩ := hplain
      rcases hform.kind_of_mem hmem hblank hdigit hbracket hbar with hk | hk | ⟨op', hk⟩
      · rw [hk] at hform
        have hnone := (hform.nameForm.inner x a y htext).operator
        obtain ⟨u, hu⟩ := hz
        rw [← hu, ← List.cons_append, ← hsymbol, operatorAt_symbol] at hnone
        cases hnone
      · rw [hk] at hform
        obtain ⟨l, hl, hescape⟩ := hform.eq_escape hs
        obtain ⟨-, -, -, hcolon, hless, -⟩ := Expr.escapeLetters_plain hl
        have hal : a = l := by simpa [hescape, hbackslash] using hmem
        rcases ha with ha | ha
        · exact hcolon (hal.symm.trans ha)
        · exact hless (hal.symm.trans ha)
      · exact ht op' hk

end Token

end PoolProse
