import PoolProse.Proofs.RoundTrip

/-!
# Literals that need no care

Escapes keep brackets, bars, tabs and newlines of a literal apart from those of the source. A pair
of bytes that is an operator or a comment mark is written as it is. So an expression whose literals
hold no such pair is read back from its source.
-/
namespace PoolProse

open Text (isBlank Trimmed)
open Token (commentMark Gapless PoolName)

namespace Expr

/-- A literal in which no binding operator and no comment mark is found. -/
def Quiet (s : Text) : Prop := (∀ op : Binding, ¬ op.symbol <:+: s) ∧ ¬ commentMark <:+: s

/-- A row of segments that can stand by itself: no space or carriage return is lost at its ends. -/
structure Standalone (es : List Expr) : Prop where
  row : Row Quiet es
  first : ∀ s, es.head? = some (.lit s) →
    s.head? ≠ some Ascii.space ∧ s.head? ≠ some Ascii.carriageReturn
  last : ∀ s, es.getLast? = some (.lit s) →
    s.getLast? ≠ some Ascii.space ∧ s.getLast? ≠ some Ascii.carriageReturn

/-! ## Pairs of bytes in the source -/

theorem pair_escapeText {x z : UInt8} (hx : x ∉ escapeLetters) (hz : z ∉ escapeLetters) {s : Text}
    (h : [x, z] <:+: escapeText s) : [x, z] <:+: s := by
  induction s with
  | nil => exact h
  | cons b s ih =>
      rw [escapeText_cons] at h
      rcases Text.infix_append_cases h with h | ⟨u, y, hb, hnext⟩
      · exact List.infix_cons (ih h)
      rcases escapeByte_cases b with ⟨hplain, -⟩ | ⟨l, hl, hescape, -⟩
      · obtain ⟨rfl, rfl, rfl⟩ : u = [] ∧ b = x ∧ y = [] := by
          rw [hplain] at hb
          cases u with
          | nil => simpa using hb
          | cons a u => simp at hb
        rcases s with _ | ⟨c, s⟩
        · simp [escapeText] at hnext
        rw [List.nil_append, escapeText_cons] at hnext
        obtain ⟨v, hv⟩ := hnext
        rcases escapeByte_cases c with ⟨hc, -⟩ | ⟨l, -, hc, -⟩
        · rw [hc] at hv
          obtain ⟨rfl, -⟩ := List.cons.inj hv
          exact ⟨[], s, rfl⟩
        · rw [hc] at hv
          obtain ⟨rfl, -⟩ := List.cons.inj hv
          exact absurd (by simp [escapeLetters]) hz
      · have hmem : x ∈ escapeByte b := by simp [hb]
        rw [hescape] at hmem
        rcases List.mem_cons.1 hmem with rfl | hmem
        · exact absurd (by simp [escapeLetters]) hx
        · exact absurd (List.mem_singleton.1 hmem ▸ hl) hx

theorem Row.not_pair {P : Text → Prop} {es : List Expr} (h : Row P es) {x z : UInt8}
    (hx : x ∉ escapeLetters) (hz : z ∉ escapeLetters) (hP : ∀ s, P s → ¬ [x, z] <:+: s) :
    ¬ [x, z] <:+: es.flatMap render := by
  have hbracket : ∀ b : Bracket, b.opener ∈ escapeLetters ∧ b.closer ∈ escapeLetters := by
    intro b
    cases b <;> simp [escapeLetters, Bracket.opener, Bracket.closer]
  have hpair : ∀ y ∈ escapeLetters, y ∉ [x, z] := by
    intro y hy hmem
    rcases List.mem_cons.1 hmem with rfl | hmem
    · exact hx hy
    · exact hz (List.mem_singleton.1 hmem ▸ hy)
  induction h with
  | nil => simp
  | @lit s es hne hs hadjacent hes ih =>
      rw [List.flatMap_cons, render]
      intro hfound
      rcases Text.infix_append_cases hfound with hfound | ⟨u, y, hcat, hnext⟩
      · exact ih hfound
      cases y with
      | nil =>
          obtain ⟨v, hv⟩ := hnext
          rcases hes.cases_group hadjacent with rfl | ⟨b, w, hgroup⟩
          · cases hv
          · have hopen := hgroup []
            rw [List.append_nil] at hopen
            rw [List.nil_append, hopen] at hv
            exact hz ((List.cons.inj hv).1 ▸ (hbracket b).1)
      | cons a y =>
          obtain ⟨v, hv⟩ := hnext
          obtain ⟨rfl, -⟩ := List.cons.inj hv
          apply hP s hs
          apply pair_escapeText hx hz
          exact ⟨u, y, by rw [hcat]; simp⟩
  | @group b name es _ _ ihname ih =>
      rw [List.flatMap_cons, render_group, render_mixAll]
      intro hfound
      have hcat : [x, z] <:+: [] ++ b.opener ::
          (name.flatMap render ++ b.closer :: es.flatMap render) := by simpa using hfound
      rcases Text.infix_cases_of_not_mem (hpair _ (hbracket b).1) hcat with h | h
      · simp at h
      rcases Text.infix_cases_of_not_mem (hpair _ (hbracket b).2) h with h | h
      · exact ihname h
      · exact ih h

theorem Row.not_symbol {es : List Expr} (h : Row Quiet es) (op : Binding) :
    ¬ op.symbol <:+: es.flatMap render := by
  have hquiet : ∀ s, Quiet s → ¬ op.symbol <:+: s := fun s hs => hs.1 op
  cases op <;> exact h.not_pair (by decide) (by decide) hquiet

theorem Row.not_mark {es : List Expr} (h : Row Quiet es) : ¬ commentMark <:+: es.flatMap render :=
  h.not_pair (by decide) (by decide) fun _ hs => hs.2

/-! ## The ends of the source -/

theorem escapeByte_not_blank {a : UInt8} (hspace : a ≠ Ascii.space)
    (hreturn : a ≠ Ascii.carriageReturn) : ∀ b ∈ escapeByte a, isBlank b = false := by
  intro b hb
  rcases escapeByte_cases a with ⟨ha, -, htab, -⟩ | ⟨l, hl, ha, -⟩
  · rw [ha] at hb
    obtain rfl := List.mem_singleton.1 hb
    rw [← Bool.not_eq_true, Text.isBlank_iff]
    rintro (h | h | h)
    · exact hspace h
    · exact htab h
    · exact hreturn h
  · rw [ha] at hb
    rcases List.mem_cons.1 hb with rfl | hb
    · rfl
    · rw [List.mem_singleton.1 hb]
      exact (escapeLetters_plain hl).2.2.1

theorem escapeByte_ne_nil (a : UInt8) : escapeByte a ≠ [] := by
  rcases escapeByte_cases a with ⟨ha, -⟩ | ⟨l, -, ha, -⟩ <;> simp [ha]

theorem Standalone.trimmed {es : List Expr} (h : Standalone es) : Trimmed (es.flatMap render) := by
  constructor
  · cases es with
    | nil => simp
    | cons e es =>
        rcases h.row.isSegment List.mem_cons_self with ⟨s, hs, -, rfl⟩ | ⟨b, f, -, rfl⟩
        · obtain ⟨a, s, rfl⟩ := List.exists_cons_of_ne_nil hs
          obtain ⟨hspace, hreturn⟩ := h.first _ rfl
          rw [List.flatMap_cons, render, escapeText_cons, List.append_assoc,
            List.head?_append_of_ne_nil _ (escapeByte_ne_nil a)]
          intro b hb
          exact escapeByte_not_blank (by simpa using hspace) (by simpa using hreturn) b
            (List.mem_of_mem_head? hb)
        · rw [List.flatMap_cons, render_group]
          intro c hc
          obtain rfl : b.opener = c := by simpa using hc
          exact b.isBlank_opener
  · rcases List.eq_nil_or_concat' es with rfl | ⟨es, e, rfl⟩
    · simp
    · rcases h.row.isSegment (List.mem_append_right es List.mem_cons_self) with
        ⟨s, hs, -, rfl⟩ | ⟨b, f, -, rfl⟩
      · obtain ⟨hspace, hreturn⟩ := h.last s (by simp)
        rcases List.eq_nil_or_concat' s with rfl | ⟨s, a, rfl⟩
        · exact absurd rfl hs
        · have hcat : (es ++ [lit (s ++ [a])]).flatMap render =
              (es.flatMap render ++ escapeText s) ++ escapeByte a := by
            simp [render, escapeText]
          rw [hcat, List.getLast?_append_of_ne_nil _ (escapeByte_ne_nil a)]
          intro b hb
          exact escapeByte_not_blank (by simpa using hspace) (by simpa using hreturn) b
            (List.mem_of_getLast? hb)
      · have hcat : (es ++ [group b (mixAll f)]).flatMap render =
            (es.flatMap render ++ b.opener :: render (mixAll f)) ++ [b.closer] := by
          simp [render_group]
        rw [hcat, List.getLast?_concat]
        intro c hc
        obtain rfl := Option.some.inj hc
        exact b.isBlank_closer

theorem Standalone.plain {es : List Expr} (h : Standalone es) :
    Text.Plain (render (mixAll es)) := by
  rw [render_mixAll]
  refine ⟨h.trimmed, h.row.not_symbol, ?_, fun hmark => h.row.not_mark hmark.isInfix⟩
  intro b _ hmark
  exact h.row.not_mark ((List.suffix_cons b commentMark).isInfix.trans hmark)

/-- The source of a row is a double rule only if the row is a literal of equals signs. -/
theorem Row.eq_of_isDoubleRule {P : Text → Prop} {es : List Expr} (h : Row P es)
    (hrule : Text.IsDoubleRule (es.flatMap render)) :
    ∃ n, 3 ≤ n ∧ es = [.lit (List.replicate n Ascii.equals)] := by
  obtain ⟨hlength, hall⟩ := hrule
  have hbracket : ∀ b : Bracket, b.opener ≠ Ascii.equals := by
    intro b
    cases b <;> decide
  cases h with
  | nil => simp at hlength
  | @lit s es hne hs hadjacent hes =>
      rw [List.flatMap_cons, render] at hlength hall
      rcases hes.cases_group hadjacent with rfl | ⟨b, w, hgroup⟩
      · have hplain : ∀ a ∈ s, a = Ascii.equals := by
          intro a ha
          rcases escapeByte_cases a with ⟨hb, -⟩ | ⟨l, -, hb, -⟩
          · apply hall
            rw [List.flatMap_nil, List.append_nil, escapeText, List.mem_flatMap]
            exact ⟨a, ha, by simp [hb]⟩
          · have hslash := hall Ascii.backslash (by
              rw [List.flatMap_nil, List.append_nil, escapeText, List.mem_flatMap]
              exact ⟨a, ha, by simp [hb]⟩)
            exact absurd hslash (by decide)
        have hs' : s = List.replicate s.length Ascii.equals := List.eq_replicate_of_mem hplain
        refine ⟨s.length, ?_, by rw [← hs']⟩
        have hescape : escapeText s = s := by
          apply escapeText_plain
          intro a ha
          rw [hplain a ha]
          rfl
        simpa [hescape] using hlength
      · have hopen := hgroup []
        rw [List.append_nil] at hopen
        rw [hopen] at hall
        exact absurd (hall b.opener (by simp)) (hbracket b)
  | @group b name es _ _ =>
      rw [List.flatMap_cons, render_group] at hall
      exact absurd (hall b.opener (by simp)) (hbracket b)

end Expr

/-! ## Names -/

namespace Token

theorem lexeme_of_scanFrom {c : Context} {p : Nat} {n : Text} {k : Kind} {e : Token}
    (h : scanFrom c p n = [⟨k, n, p⟩, e]) : lexeme c n = some ⟨some k, n.length⟩ := by
  induction c, p, n using scan_induction with
  | nil c p =>
      rw [scanFrom_nil] at h
      cases h
  | step c p k' read rest hread hl _ _ =>
      rw [scanFrom_append hl] at h
      cases k' with
      | none =>
          have hle := (scanFrom_covers _ (p + read.length) rest).offset_le ⟨k, read ++ rest, p⟩
            (by rw [show scanFrom _ _ rest = _ from h]; exact List.mem_cons_self)
          have hpos := List.length_pos_iff.2 hread
          push_cast at hle
          omega
      | some k' =>
          obtain ⟨htoken, -⟩ := List.cons.inj h
          simp only [Token.mk.injEq] at htoken
          obtain ⟨rfl, hrest, -⟩ := htoken
          rw [hl, ← hrest]

/-- A text that is one name token is a pool name, and no comment can start in it. -/
theorem poolName_of_tokenize {n : Text} (h : tokenize n = [⟨.name, n, 0⟩, ⟨.eof, [], n.length⟩]) :
    PoolName n ∧ Text.Unmarked n ∧ ¬ commentMark <+: n := by
  have hline : Gapless ⟨true, false⟩ [⟨.name, n, 0⟩] := by
    refine ⟨?_, rfl, trivial⟩
    rw [List.flatMap_nil, List.append_nil]
    exact lexeme_of_scanFrom h
  have hcat : [(⟨.name, n, 0⟩ : Token)].flatMap text = n := by simp
  have hname : PoolName n := .name hline.formed.nameForm
  have hsealed := hname.sealed
  rw [← hcat] at hsealed
  refine ⟨hname, ?_, ?_⟩
  · intro b hb
    have hmark := hline.not_blank_mark hsealed hb
    rwa [hcat] at hmark
  · have hmark := hline.not_mark (Or.inl rfl)
    rwa [hcat] at hmark

end Token

/-! ## Parsing undoes rendering -/

namespace Document

/-- A row of quiet literals and groups is read back from its source, and so is every binding of such
rows to a name. The exception is a single literal that is a rule. -/
theorem parse_render_quiet [Locator] (file : Text) :
    (∀ es, Expr.Standalone es → es ≠ [] →
      (∀ n, 3 ≤ n → es ≠ [.lit (List.replicate n Ascii.equals)]) →
      parse file (Expr.render (.mixAll es)) = .ok [.ok (.mixAll es)]) ∧
    ∀ name op items, tokenize name = [⟨.name, name, 0⟩, ⟨.eof, [], name.length⟩] → items ≠ [] →
      (∀ e ∈ items, ∃ es, Expr.Standalone es ∧ e = .mixAll es) →
      parse file (Expr.render (.bind op name items)) = .ok [.ok (.bind op name items)] := by
  constructor
  · intro es hes hne hrule
    rw [parse_eq_singleton_iff]
    apply hes.row.ofTokens_render hne hes.plain
    intro hequals
    rw [Expr.render_mixAll] at hequals
    obtain ⟨n, hn, heq⟩ := hes.row.eq_of_isDoubleRule hequals
    exact hrule n hn heq
  · intro name op items htokens hne hitems
    obtain ⟨hname, hmark, hstart⟩ := Token.poolName_of_tokenize htokens
    obtain ⟨e, es, rfl⟩ := List.exists_cons_of_ne_nil hne
    rw [parse_eq_singleton_iff]
    apply Expr.ofTokens_render_bind op hname hmark hstart
    · intro f hf
      obtain ⟨fs, hfs, rfl⟩ := hitems f hf
      exact ⟨fs, hfs.row, rfl⟩
    · intro f hf
      obtain ⟨fs, hfs, rfl⟩ := hitems f hf
      exact hfs.plain

/-- A tab is escaped, a name is grouped, and a pool may have an empty item. -/
theorem parse_render_quiet_pet :
    ∃ es, es = [.lit (utf8 "a\t"), .ref (.lit (utf8 "pet"))] ∧ Expr.Standalone es ∧
      parse [] (Expr.render (.mixAll es)) = .ok [.ok (.mixAll es)] ∧
      parse [] (Expr.render (.bind .define (utf8 "pet") [.mixAll es, .mixAll []])) =
        .ok [.ok (.bind .define (utf8 "pet") [.mixAll es, .mixAll []])] := by
  have hquiet : ∀ s ∈ [utf8 "a\t", utf8 "pet"], Expr.Quiet s := by
    intro s hs
    rcases List.mem_pair.1 hs with rfl | rfl
    all_goals exact ⟨fun op => by cases op <;> decide +kernel, by decide +kernel⟩
  have hname : Expr.Row Expr.Quiet [.lit (utf8 "pet")] :=
    .lit (by decide) (hquiet _ (by simp)) (by simp) .nil
  have hes : Expr.Standalone [.lit (utf8 "a\t"), .ref (.lit (utf8 "pet"))] := by
    have hgroup : Expr.Row Expr.Quiet [.group .paren (.mixAll [.lit (utf8 "pet")])] :=
      .group hname .nil
    refine ⟨.lit (by decide) (hquiet _ (by simp)) (by simp) hgroup, ?_, ?_⟩
    · intro s hs
      obtain rfl : utf8 "a\t" = s := by simpa using hs
      decide
    · intro s hs
      simp at hs
  have hnil : Expr.Standalone [] := ⟨.nil, by simp, by simp⟩
  refine ⟨_, rfl, hes, (parse_render_quiet []).1 _ hes (by simp) (by simp), ?_⟩
  refine (parse_render_quiet []).2 _ _ _ (by decide +kernel) (by simp) ?_
  intro e he
  rcases List.mem_pair.1 he with rfl | rfl
  · exact ⟨_, hes, rfl⟩
  · exact ⟨_, hnil, rfl⟩

end Document

end PoolProse
