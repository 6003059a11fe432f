import PoolProse.Proofs.Legible
import PoolProse.Proofs.LineLikeness
import PoolProse.Proofs.Outlook
import PoolProse.Proofs.Positions
import PoolProse.Proofs.QuietLiterals

/-!
# Continued bindings

A binding may be continued on the next line right behind its name. The operator takes the blanks
before it only up to a continued line, so blanks that stand before the break are white space of
their own. With them the name is not followed by its operator at once, and the line is refused.
-/
namespace PoolProse

namespace Token

open Text (isBlank)

/-! ## The tokens of a binding -/

section

variable {c : Context} {name w s : Text}

theorem lexeme_name_before (hname : lexeme c name = some ⟨some .name, name.length⟩)
    (hstops : nameOver s = true) (hedge : ∀ a ∈ name.getLast?, SameEdge a [] s) :
    lexeme c (name ++ s) = some ⟨some .name, name.length⟩ := by
  have hname' : lexeme c (name ++ []) = some ⟨some .name, name.length⟩ := by
    rwa [List.append_nil]
  exact lexeme_name_congr hname' hstops hedge fun _ => rfl

theorem operatorAt_singleton (a : UInt8) : a = Ascii.bar ∨ operatorAt [a] = none := by
  by_cases hbar : a = Ascii.bar
  · exact Or.inl hbar
  · right
    simp [operatorAt, hbar]

theorem sameEdge_plain {d : UInt8} (hd : Plain d) (a : UInt8) (y : Text) :
    SameEdge a [] (d :: y) :=
  .of_plain hd (operatorAt_singleton a) (by simp [commentMark, List.isPrefixOf])

theorem sameEdge_symbol {a : UInt8} (op : Binding) (y : Text)
    (h : a = Ascii.colon → op.symbol.head? ≠ some Ascii.colon) :
    SameEdge a [] (op.symbol ++ y) := by
  constructor
  · by_cases hbar : a = Ascii.bar
    · rw [hbar]
      rfl
    by_cases hcolon : a = Ascii.colon
    · have hhead := h hcolon
      rw [hcolon]
      cases op with
      | define => exact absurd rfl hhead
      | defineEval => exact absurd rfl hhead
      | select => rfl
      | selectEval => rfl
    by_cases hless : a = Ascii.less
    · rw [hless]
      cases op <;> rfl
    rw [operatorAt_of_first hbar hcolon hless, operatorAt_of_first hbar hcolon hless]
  · cases op <;> simp [commentMark, List.isPrefixOf, Binding.symbol, Ascii.dash, Ascii.colon,
      Ascii.less]

theorem nameOver_binding (op : Binding) (hw : ∀ b ∈ w, isBlank b = true) (y : Text) :
    nameOver (w ++ (op.symbol ++ y)) = true := by
  apply nameOver_append_blank hw
  cases op <;> rfl

/-- Behind a binding operator `text` is read on from `rest` in the context `c'`, whatever blanks
stand before the operator. -/
def ReadsOn (op : Binding) (text : Text) (c' : Context) (rest : Text) : Prop :=
  ∀ c p w, (∀ b ∈ w, isBlank b = true) → ∃ t q, t.kind = .binding op ∧
    scanFrom c p (w ++ (op.symbol ++ text)) = t :: scanFrom c' q rest

theorem exists_readsOn (op : Binding) (text : Text) : ∃ c' rest, ReadsOn op text c' rest := by
  obtain ⟨after, rest, rfl, hafter, -, hrest⟩ := Text.exists_blanks text
  have hne : op.symbol ++ after ≠ [] := by
    cases op <;> exact List.cons_ne_nil _ _
  have hlast := List.getLast?_eq_some_getLast hne
  refine ⟨⟨false, isBlank ((op.symbol ++ after).getLast hne)⟩, rest, ?_⟩
  intro c p w hw
  have hform : Formed (.binding op) (w ++ (op.symbol ++ after)) rest := .binding hw hafter hrest
  have hl := hform.lexeme_eq (c := c) nofun nofun
  refine ⟨⟨.binding op, w ++ (op.symbol ++ after), p⟩, p + (w ++ (op.symbol ++ after)).length,
    rfl, ?_⟩
  rw [← List.append_assoc op.symbol, ← List.append_assoc, scanFrom_append hl]
  rw [Context.after, List.getLast?_append_of_ne_nil _ hne, hlast]
  rfl

variable {op : Binding} {c' : Context} {text rest line : Text}

theorem ReadsOn.tokenize_joined (h : ReadsOn op text c' rest)
    (hname : lexeme ⟨true, false⟩ name = some ⟨some .name, name.length⟩)
    (hw : ∀ b ∈ w, isBlank b = true)
    (hedge : w = [] → name.getLast? = some Ascii.colon → op.symbol.head? ≠ some Ascii.colon) :
    ∃ t q, t.kind = .binding op ∧
      tokenize (name ++ (w ++ (op.symbol ++ text))) =
        ⟨.name, name, 0⟩ :: t :: scanFrom c' q rest := by
  have hsame : ∀ a ∈ name.getLast?, SameEdge a [] (w ++ (op.symbol ++ text)) := by
    intro a ha
    cases w with
    | nil => exact sameEdge_symbol op text fun hcolon => hedge rfl (hcolon ▸ ha)
    | cons b w => exact sameEdge_plain (plain_blank (hw b List.mem_cons_self)) a _
  have hl := lexeme_name_before hname (nameOver_binding op hw text) hsame
  obtain ⟨t, q, ht, hscan⟩ := h (Context.after ⟨true, false⟩ ⟨some .name, name.length⟩ name)
    (0 + name.length) w hw
  refine ⟨t, q, ht, ?_⟩
  rw [tokenize, scanFrom_append hl, hscan]
  rfl

theorem scanFrom_blanks_continued (c : Context) (p : Nat) (hw : ∀ b ∈ w, isBlank b = true)
    (hline : IsContinuation line) (y : Text) :
    ∃ pad c' q, (∀ u ∈ pad, u.isWhite = true) ∧ (pad = [] ↔ w = []) ∧
      scanFrom c p (w ++ (line ++ y)) = pad ++ scanFrom c' q y := by
  have hbreak : ∀ c p, ∃ c' q, scanFrom c p (line ++ y) = scanFrom c' q y :=
    fun c p => ⟨_, _, scanFrom_append (lexeme_continuation hline)⟩
  by_cases hne : w = []
  · obtain ⟨c', q, hscan⟩ := hbreak c p
    exact ⟨[], c', q, by simp, by simp [hne], by rw [hne, List.nil_append, hscan, List.nil_append]⟩
  · obtain ⟨z, hz⟩ := hline.exists_backslash y
    have hl : lexeme c (w ++ (line ++ y)) = some ⟨some .white, w.length⟩ := by
      rw [hz]
      exact lexeme_white hne hw rfl rfl (by simp [commentMark, Ascii.dash, Ascii.backslash])
    obtain ⟨c', q, hscan⟩ := hbreak (c.after ⟨some .white, w.length⟩ w) (p + w.length)
    refine ⟨[⟨.white, w, p⟩], c', q, by simp [isWhite], by simp [hne], ?_⟩
    rw [scanFrom_append hl, hscan]
    rfl

theorem ReadsOn.tokenize_continued {w' : Text} (h : ReadsOn op text c' rest)
    (hname : lexeme ⟨true, false⟩ name = some ⟨some .name, name.length⟩)
    (hw : ∀ b ∈ w, isBlank b = true) (hw' : ∀ b ∈ w', isBlank b = true)
    (hline : IsContinuation line) :
    ∃ pad t q, (∀ u ∈ pad, u.isWhite = true) ∧ (pad = [] ↔ w = []) ∧ t.kind = .binding op ∧
      tokenize (name ++ (w ++ (line ++ (w' ++ (op.symbol ++ text))))) =
        ⟨.name, name, 0⟩ :: (pad ++ t :: scanFrom c' q rest) := by
  obtain ⟨z, hz⟩ := hline.exists_backslash (w' ++ (op.symbol ++ text))
  have hsame : ∀ a ∈ name.getLast?, SameEdge a [] (w ++ (line ++ (w' ++ (op.symbol ++ text)))) := by
    intro a _
    rw [hz]
    cases w with
    | nil => exact sameEdge_plain plain_backslash a z
    | cons b w => exact sameEdge_plain (plain_blank (hw b List.mem_cons_self)) a _
  have hover : nameOver (w ++ (line ++ (w' ++ (op.symbol ++ text)))) = true := by
    rw [hz]
    exact nameOver_append_blank hw rfl
  have hl := lexeme_name_before hname hover hsame
  obtain ⟨pad, d, p, hpad, hnil, hbreak⟩ := scanFrom_blanks_continued
    (Context.after ⟨true, false⟩ ⟨some .name, name.length⟩ name) (0 + name.length) hw hline
    (w' ++ (op.symbol ++ text))
  obtain ⟨t, q, ht, hscan⟩ := h d p w' hw'
  refine ⟨pad, t, q, hpad, hnil, ht, ?_⟩
  rw [tokenize, scanFrom_append hl, hbreak, hscan]
  rfl

end

end Token

/-! ## The line of a binding -/

namespace Statement

open Line (expr)

variable {t u : Token} {ts : Line}

theorem next_of_name (ht : t.kind = .name) (hu : u ∈ ts) (hwhite : u.isWhite = false)
    (below : List Line) : next (t :: ts) below = (some (expr (t :: ts)), below) := by
  have hcontent : Line.content (t :: ts) = t :: ts := by
    rw [Line.content, List.dropWhile_cons_of_neg (by simp [Token.isWhite, ht])]
  have hname : Line.poolName (t :: ts) = some (t.text, ts) := by
    simp only [Line.poolName, ht]
  have hshape : Line.shape (t :: ts) below = .text (t :: ts) := by
    rw [Line.shape, hcontent]
    simp only [ht]
    rcases Line.shapeOfText_cases t ts below with
      ⟨name, rest, v, junk, body, hsome, hrest, -, -, -⟩ | ⟨-, htext⟩
    · rw [hname] at hsome
      obtain ⟨-, rfl⟩ := Prod.mk.inj (Option.some.inj hsome)
      rw [hrest u hu] at hwhite
      cases hwhite
    · exact htext
  rw [next, hshape]

theorem ofLines_of_name (ht : t.kind = .name) (hu : u ∈ ts) (hwhite : u.isWhite = false)
    (below : List Line) : ofLines ((t :: ts) :: below) = expr (t :: ts) :: ofLines below := by
  rw [ofLines, next_of_name ht hu hwhite]
  rfl

end Statement

namespace Line

variable {t u : Token} {ts pad : Line} {op : Binding}

theorem expr_binding (ht : t.kind = .name) (hu : u.kind = .binding op) :
    expr (t :: u :: ts) = (itemList ts).map (.bind op t.text) := by
  simp only [expr, poolName, ht, hu]

theorem scan_white_binding (hpad : ∀ w ∈ pad, w.isWhite = true) (hu : u.kind = .binding op)
    (items : Bool) (done : List Expr) (level : Level) (enclosing : List Enclosing) (ts : Line) :
    scan items done level enclosing (pad ++ u :: ts) = .error ⟨.operatorWithoutName, u⟩ := by
  induction pad generalizing level with
  | nil => simp only [List.nil_append, scan, hu]
  | cons w pad ih =>
      obtain ⟨hw, hpad⟩ := List.forall_mem_cons.1 hpad
      have hkind : w.kind = .white := eq_of_beq hw
      simp only [List.cons_append, scan, hkind]
      exact ih hpad _

/-- White space between a name and its operator leaves the operator without a name. -/
theorem expr_parted (ht : t.kind = .name) (hpad : ∀ w ∈ pad, w.isWhite = true) (hne : pad ≠ [])
    (hu : u.kind = .binding op) :
    expr (t :: (pad ++ u :: ts)) = .error ⟨.operatorWithoutName, u⟩ := by
  have hscan := scan_white_binding hpad hu false [] (Level.write true t.text {}) [] ts
  have hfree : freeText (t :: (pad ++ u :: ts)) = .error ⟨.operatorWithoutName, u⟩ := by
    simp only [freeText, scan, ht, List.isEmpty_nil, hscan]
    rfl
  obtain ⟨w, pad, rfl⟩ := List.exists_cons_of_ne_nil hne
  have hkind : w.kind = .white := eq_of_beq (hpad w List.mem_cons_self)
  simp only [expr, poolName, ht, List.cons_append, hkind]
  exact hfree

theorem split_binding (ht : t.kind = .name) (hpad : ∀ w ∈ pad, w.isWhite = true)
    (hu : u.kind = .binding op) {us : List Token} {line : Line} {below : List Line}
    (h : split us = line :: below) :
    split (t :: (pad ++ u :: us)) = (t :: (pad ++ u :: line)) :: below := by
  have hop : split (u :: us) = (u :: line) :: below :=
    split_cons_inside (by simp [hu]) (by simp [hu]) h
  exact split_cons_inside (by simp [ht]) (by simp [ht]) (split_white hpad hop)

end Line

/-! ## Documents -/

namespace Statement

variable {text text' : Text} {n t t' : Token} {pad us us' : List Token} {op : Binding}

/-- White space before the operator of the first binding costs that statement and no other. -/
theorem outcome_parted (hn : n.kind = .name) (ht : t.kind = .binding op)
    (ht' : t'.kind = .binding op) (hpad : ∀ w ∈ pad, w.isWhite = true) (hne : pad ≠ [])
    (hrest : List.Forall₂ Token.Like us us') (htext : tokenize text = n :: t :: us)
    (htext' : tokenize text' = n :: (pad ++ t' :: us')) :
    ∃ line below, (ofTokens (tokenize text)).map outcome =
        outcome ((Line.itemList line).map (.bind op n.text)) :: below ∧
      (ofTokens (tokenize text')).map outcome =
        .error "INVOCAT_OPERATOR_WITHOUT_NAME" :: below := by
  obtain ⟨line, below, hsplit⟩ := List.exists_cons_of_ne_nil (Line.split_ne_nil us)
  obtain ⟨line', below', hsplit'⟩ := List.exists_cons_of_ne_nil (Line.split_ne_nil us')
  have hlines : Line.split (tokenize text) = (n :: t :: line) :: below := by
    rw [htext]
    exact Line.split_binding hn (List.forall_mem_nil _) ht hsplit
  have hlines' : Line.split (tokenize text') = (n :: (pad ++ t' :: line')) :: below' := by
    rw [htext']
    exact Line.split_binding hn hpad ht' hsplit'
  have hpadded := Line.split_like hrest
  rw [hsplit, hsplit', List.forall₂_cons] at hpadded
  have hsame : List.Forall₂ Line.Same below below' := by
    refine Line.same_of_padded hpadded.2 ?_ ?_
    · intro l hl
      exact Line.tidy_of_mem_split (hlines ▸ List.mem_cons_of_mem _ hl)
    · intro l hl
      exact Line.tidy_of_mem_split (hlines' ▸ List.mem_cons_of_mem _ hl)
  refine ⟨line, (ofLines below).map outcome, ?_, ?_⟩
  · rw [ofTokens, hlines, ofLines_of_name hn List.mem_cons_self (by simp [Token.isWhite, ht]),
      Line.expr_binding hn ht, List.map_cons]
  · have hmem : t' ∈ pad ++ t' :: line' := List.mem_append_right _ List.mem_cons_self
    rw [ofTokens, hlines', ofLines_of_name hn hmem (by simp [Token.isWhite, ht']),
      Line.expr_parted hn hpad hne ht', List.map_cons, outcome_same hsame]
    rfl

end Statement

namespace Document

open Statement (outcome)

theorem isOk_lineStarts_continued {line w : Text} (hline : Token.IsContinuation line) (x : Text)
    (hw : ∀ b ∈ w, Text.isBlank b = true) (op : Binding) (rest : Text) :
    (Position.lineStarts (x ++ (line ++ (w ++ (op.symbol ++ rest))))).isOk =
      (Position.lineStarts (x ++ (w ++ (op.symbol ++ rest)))).isOk := by
  apply Position.isOk_lineStarts_insert
  · rcases hline with rfl | rfl <;>
      simp [CodePoint.isHigh, Ascii.backslash, Ascii.carriageReturn, Ascii.newline, Ascii.nul]
  · intro b hb
    cases w with
    | nil => cases op <;> (obtain rfl := Option.some.inj hb; rfl)
    | cons a w =>
        obtain rfl := Option.some.inj hb
        rcases Text.isBlank_iff.1 (hw a List.mem_cons_self) with rfl | rfl | rfl <;> rfl

/-- A binding that is continued right behind its name is the binding on one line, also where neither
can be read for want of positions. If blanks stand between the name and the break, the first
statement is refused for an operator without a name and the statements below it stay what they
are. -/
theorem parse_continued_binding (file : Text) {name w w' line rest : Text} {op : Binding}
    (hname : tokenize name = [⟨.name, name, 0⟩, ⟨.eof, [], name.length⟩])
    (hw : ∀ b ∈ w, Text.isBlank b = true) (hw' : ∀ b ∈ w', Text.isBlank b = true)
    (hline : Token.IsContinuation line)
    (hedge : w ++ w' = [] → name.getLast? = some Ascii.colon →
      op.symbol.head? ≠ some Ascii.colon) :
    (w = [] → (parse file (name ++ w ++ line ++ w' ++ op.symbol ++ rest)).toOption.map
        (·.statements.map outcome) =
      (parse file (name ++ w ++ w' ++ op.symbol ++ rest)).toOption.map
        (·.statements.map outcome)) ∧
    (w ≠ [] → Locatable (name ++ w ++ line ++ w' ++ op.symbol ++ rest) →
      ∃ d d' first below, parse file (name ++ w ++ w' ++ op.symbol ++ rest) = .ok d ∧
        parse file (name ++ w ++ line ++ w' ++ op.symbol ++ rest) = .ok d' ∧
        d.statements.map outcome = first :: below ∧
        (∀ e, first = .ok e → ∃ items, e = .bind op name items) ∧
        d'.statements.map outcome = .error "INVOCAT_OPERATOR_WITHOUT_NAME" :: below) := by
  have hlexeme := Token.lexeme_of_scanFrom hname
  obtain ⟨c, left, hreads⟩ := Token.exists_readsOn op rest
  have hblank : ∀ b ∈ w ++ w', Text.isBlank b = true := by
    intro b hb
    exact (List.mem_append.1 hb).elim (hw b) (hw' b)
  obtain ⟨t, q, ht, hjoined⟩ := hreads.tokenize_joined hlexeme hblank hedge
  obtain ⟨pad, t', q', hpad, hnil, ht', hcontinued⟩ :=
    hreads.tokenize_continued hlexeme hw hw' hline
  have hleft := Token.like_scanFrom c q q' left
  have hstarts := isOk_lineStarts_continued hline (name ++ w) hw' op rest
  simp only [← List.append_assoc] at hjoined hcontinued hstarts
  constructor
  · intro hempty
    obtain rfl := hnil.2 hempty
    have hlike : Token.Like t t' := ⟨ht.trans ht'.symm, by simp [Token.literal?, ht, ht']⟩
    refine outcomes_congr file hstarts (Eq.symm ?_)
    apply Statement.outcome_padded
    rw [hjoined, hcontinued]
    exact Line.split_like (.cons ⟨rfl, rfl⟩ (.cons hlike hleft))
  · intro hne hlocated
    obtain ⟨line, below, hfirst, hparted⟩ := Statement.outcome_parted rfl ht ht' hpad
      (fun h => hne (hnil.1 h)) hleft hjoined hcontinued
    -- The refused statement needs a position, so the source has positions.
    have hlocated' := (locatable_iff _).1 hlocated
    rw [hparted] at hlocated'
    have hok := hlocated'.resolve_right fun h => Bool.false_ne_true (h _ List.mem_cons_self)
    rw [hstarts] at hok
    obtain ⟨d, hd, hstatements⟩ := parse_locatable file ((locatable_iff _).2 (Or.inl hok))
    obtain ⟨d', hd', hstatements'⟩ := parse_locatable file hlocated
    refine ⟨d, d', _, below, hd, hd', hstatements ▸ hfirst, ?_, hstatements' ▸ hparted⟩
    intro e he
    cases hitems : Line.itemList line with
    | error err =>
        rw [hitems] at he
        cases he
    | ok items =>
        rw [hitems] at he
        exact ⟨items, (Except.ok.inj he).symm⟩

/-- A selection is refused if it is continued behind a blank, whatever blanks come before its
operator. -/
theorem parse_continued_binding_select :
    tokenize (utf8 "pet") = [⟨.name, utf8 "pet", 0⟩, ⟨.eof, [], 3⟩] ∧
    Locatable (utf8 "pet \\\n\t<- cat | dog") ∧
    ∃ d d' first below, parse [] (utf8 "pet \t<- cat | dog") = .ok d ∧
      parse [] (utf8 "pet \\\n\t<- cat | dog") = .ok d' ∧
      d.statements.map outcome = first :: below ∧
      (∀ e, first = .ok e → ∃ items, e = .bind .select (utf8 "pet") items) ∧
      d'.statements.map outcome = .error "INVOCAT_OPERATOR_WITHOUT_NAME" :: below := by
  have hname : tokenize (utf8 "pet") = [⟨.name, utf8 "pet", 0⟩, ⟨.eof, [], 3⟩] := by
    decide +kernel
  have hlocated : Locatable (utf8 "pet \\\n\t<- cat | dog") := by decide +kernel
  have hw : ∀ b ∈ utf8 " ", Text.isBlank b = true := List.forall_mem_singleton.2 rfl
  have hw' : ∀ b ∈ utf8 "\t", Text.isBlank b = true := List.forall_mem_singleton.2 rfl
  have hcontinued : Locatable (utf8 "pet" ++ utf8 " " ++ [Ascii.backslash, Ascii.newline] ++
      utf8 "\t" ++ Binding.select.symbol ++ utf8 " cat | dog") := hlocated
  exact ⟨hname, hlocated, (parse_continued_binding [] hname hw hw' (Or.inl rfl) (by decide)).2
    (by decide) hcontinued⟩

/-- A blank before the break costs a definition its name, and without any blank a colon at the end
of the name goes to the operator on one line only. -/
theorem parse_break_behind_blank :
    (parse [] (utf8 "a :: b")).map (·.statements.map outcome) =
        .ok [.ok (.bind .define (utf8 "a") [.lit (utf8 "b")])] ∧
      (parse [] (utf8 "a \\\n:: b")).map (·.statements.map outcome) =
        .ok [.error "INVOCAT_OPERATOR_WITHOUT_NAME"] ∧
      (parse [] (utf8 "a:::b")).map (·.statements.map outcome) =
        .ok [.ok (.bind .define (utf8 "a") [.lit (utf8 ":b")])] ∧
      (parse [] (utf8 "a:\\\n::b")).map (·.statements.map outcome) =
        .ok [.ok (.bind .define (utf8 "a:") [.lit (utf8 "b")])] := by
  decide +kernel

end Document

end PoolProse
