import PoolProse.Proofs.WalkStatements

/-!
# Rules stand alone

A text has a rule only at the start of a line, and nothing follows it there. So from whatever place
the tokens of a text are read, a line that was read is over where it has to be, and no statement is
refused for a token that it did not expect.
-/
namespace PoolProse

namespace Walk

def IsLineStart (ts : List Token) (i : Nat) : Prop :=
  i = 0 ∨ ∃ j t, i = j + 1 ∧ ts[j]? = some t ∧ t.kind = .newline

def IsLineEnd (ts : List Token) (i : Nat) : Prop :=
  ∃ t, ts[i]? = some t ∧ (t.kind = .newline ∨ t.kind = .eof)

variable {ts : List Token} {i j : Nat} {line : Line} {below : List Line}

/-! ## The places of rules -/

/-- The token at the place has a line for itself. It is the line that is being read only if nothing
stands on it yet, which `fresh` says. -/
structure Alone (fresh : Bool) (ts : List Token) (i : Nat) : Prop where
  starts : IsLineStart ts i
  first : i = 0 → fresh = true
  ends : IsLineEnd ts (i + 1)

theorem Alone.cons {fresh fresh' : Bool} {t : Token} (h : Alone fresh' ts i)
    (hfresh : fresh' = (t.kind == .newline)) : Alone fresh (t :: ts) (i + 1) where
  starts := by
    rcases h.starts with rfl | ⟨j, u, rfl, hu, hk⟩
    · exact Or.inr ⟨0, t, rfl, rfl, eq_of_beq (hfresh ▸ h.first rfl)⟩
    · exact Or.inr ⟨j + 1, u, rfl, hu, hk⟩
  first hi := by cases hi
  ends := h.ends

/-- Every rule of the unread text has a line for itself. -/
theorem rule_scanFrom (c : Token.Context) (p : Nat) (text : Text) {t : Token}
    (ht : (Token.scanFrom c p text)[i]? = some t) (hk : t.kind = .rule ∨ t.kind = .doubleRule) :
    Alone c.lineStart (Token.scanFrom c p text) i := by
  induction c, p, text using Token.scan_induction generalizing i with
  | nil c p =>
      rw [Token.scanFrom_nil] at ht
      cases i with
      | zero =>
          obtain rfl := Option.some.inj ht
          simp at hk
      | succ i => simp at ht
  | step c p k read rest hread hl hsp ih =>
      rw [Token.scanFrom_append hl] at ht ⊢
      cases hsp with
      | continuation => exact ih ht
      | comment => exact ih ht
      | rule _ hstart hend =>
          obtain ⟨u, us, hus, hu, -⟩ := Token.scanFrom_lineEnd hend
          cases i with
          | zero => exact ⟨Or.inl rfl, fun _ => hstart, u, by rw [hus]; rfl, hu⟩
          | succ i => exact (ih ht).cons rfl
      | newline =>
          cases i with
          | zero =>
              obtain rfl := Option.some.inj ht
              simp at hk
          | succ i => exact (ih ht).cons rfl
      | inside hinside =>
          cases i with
          | zero =>
              obtain rfl := Option.some.inj ht
              rcases hk with rfl | rfl <;> cases hinside
          | succ i => exact (ih ht).cons rfl

/-! ## Places of a text -/

theorem firstEof_tokenize (text : Text) :
    firstEof (tokenize text) + 1 = (tokenize text).length := by
  obtain ⟨us, hus, hother⟩ := (Token.scanFrom_covers ⟨true, false⟩ 0 text).last
  have hnone : us.findIdx (fun t => t.kind == .eof) = us.length := by
    apply List.findIdx_eq_length.2
    intro t ht
    simpa using (hother t ht).1
  rw [tokenize, hus, firstEof, List.findIdx_append, hnone]
  simp

theorem exists_at_tokenize {text : Text} {t : Token} (h : (tokenize text)[i]? = some t) :
    ∃ line below, At (tokenize text) i line below := by
  obtain ⟨hi, -⟩ := List.getElem?_eq_some_iff.1 h
  have hend := firstEof_tokenize text
  exact exists_at (by omega) (by omega)

theorem At.unique {line' : Line} {below' : List Line} (h : At ts i line below)
    (h' : At ts i line' below') : line = line' ∧ below = below' :=
  List.cons.inj (h.lines.symm.trans h'.lines)

theorem At.tidy {text : Text} (h : At (tokenize text) i line below) :
    ∀ l ∈ line :: below, l.Tidy := by
  induction i generalizing line below with
  | zero =>
      have hlines : Line.split (tokenize text) = line :: below := h.lines
      intro l hl
      exact Line.tidy_of_mem_split (hlines ▸ hl)
  | succ i ih =>
      obtain ⟨line₀, below₀, h₀⟩ := exists_at h.closed (Nat.le_of_succ_le h.le)
      have htidy := ih h₀
      obtain ⟨t, -, hnext⟩ := h₀.next
      cases hnext with
      | inside _ _ h₁ =>
          obtain ⟨rfl, rfl⟩ := h.unique h₁
          obtain ⟨hline, hbelow⟩ := List.forall_mem_cons.1 htidy
          exact List.forall_mem_cons.2 ⟨hline.suffix (List.suffix_cons _ _), hbelow⟩
      | newline _ h₁ =>
          obtain ⟨rfl, rfl⟩ := h.unique h₁
          exact (List.forall_mem_cons.1 htidy).2
      | eof _ hi =>
          have := h.le
          omega

end Walk

/-! ## No token comes unexpected -/

namespace Line

variable {line : Line} {below : List Line} {e : SyntaxError}

theorem scan_expected {items : Bool} {done : List Expr} {level : Level}
    {enclosing : List Enclosing} {ts : List Token} (hin : ∀ t ∈ ts, t.kind.isInside = true)
    (h : scan items done level enclosing ts = .error e) : e.cause ≠ .unexpectedToken := by
  rcases scan_cause h with hcause | hcause | ⟨-, hmem, hkind⟩
  · simp [hcause]
  · simp [hcause]
  · rw [hin e.token hmem] at hkind
    cases hkind

theorem freeText_expected {ts : List Token} (hin : ∀ t ∈ ts, t.kind.isInside = true)
    (h : freeText ts = .error e) : e.cause ≠ .unexpectedToken :=
  scan_expected hin (error_of_map h)

theorem expr_expected (hin : ∀ t ∈ line, t.kind.isInside = true) (h : line.expr = .error e) :
    e.cause ≠ .unexpectedToken := by
  unfold expr at h
  split at h
  case h_1 name t ts hname =>
    split at h
    case h_1 op hop =>
      obtain ⟨head, rfl, -⟩ := isPoolName_of_poolName hname
      refine scan_expected ?_ (error_of_map (error_of_map h))
      intro u hu
      exact hin u (by simp [hu])
    case h_2 => exact freeText_expected hin h
  case h_2 => exact freeText_expected hin h

end Line

namespace Statement

open Line (shape)

variable {line : Line} {below : List Line} {e : SyntaxError}

theorem blocks_expected {title : Token} {name : Text} {done lines : List Expr} {body : List Line}
    (htidy : ∀ l ∈ body, l.Tidy) (h : blocks title name done lines body = .error e) :
    e.cause ≠ .unexpectedToken := by
  induction body generalizing done lines with
  | nil =>
      obtain rfl := Except.error.inj h
      simp
  | cons line below ih =>
      obtain ⟨hline, hbelow⟩ := List.forall_mem_cons.1 htidy
      unfold blocks at h
      cases hs : shape line below with
      | blank => exact ih hbelow (by simpa only [hs] using h)
      | rule junk =>
          obtain ⟨t, hcontent, hk⟩ := Line.shape_rule_content hs
          have hjunk : junk = [] := by
            apply Line.Tidy.eq_nil _ (Or.inl hk)
            rw [← hcontent]
            exact hline.suffix (List.dropWhile_suffix _)
          simp only [hs, hjunk, Line.nothing] at h
          split at h
          · exact ih hbelow h
          · cases h
      | doubleRule t =>
          simp only [hs] at h
          obtain rfl := Except.error.inj h
          simp
      | title t name' junk body =>
          simp only [hs] at h
          obtain rfl := Except.error.inj h
          simp
      | text content =>
          simp only [hs] at h
          cases htext : Line.freeText content with
          | error f =>
              simp only [htext] at h
              obtain rfl := Except.error.inj h
              obtain ⟨rfl, -⟩ := Line.shape_text_content hs
              have hin := hline.inside hs
              exact Line.freeText_expected (fun t ht => hin t (Line.mem_of_mem_content ht)) htext
          | ok f => exact ih hbelow (by simpa only [htext] using h)

/-- A statement that starts with one of some tidy lines does not meet an unexpected token. -/
theorem next_expected (htidy : ∀ l ∈ line :: below, l.Tidy)
    (h : (next line below).1 = some (.error e)) : e.cause ≠ .unexpectedToken := by
  obtain ⟨hline, hbelow⟩ := List.forall_mem_cons.1 htidy
  unfold next at h
  cases hs : shape line below with
  | blank => simp [hs] at h
  | rule junk => simp [hs] at h
  | doubleRule t =>
      simp only [hs] at h
      obtain rfl := Except.error.inj (Option.some.inj h)
      simp
  | text content =>
      simp only [hs] at h
      obtain ⟨rfl, -⟩ := Line.shape_text_content hs
      have hin := hline.inside hs
      exact Line.expr_expected (fun t ht => hin t (Line.mem_of_mem_content ht))
        (Option.some.inj h)
  | title t name junk body =>
      obtain ⟨u, rfl, hu⟩ := Line.shape_title_below hs
      obtain ⟨hrule, hbody⟩ := List.forall_mem_cons.1 hbelow
      obtain rfl := hrule.eq_nil (Or.inr hu)
      simp only [hs, definition, Line.nothing] at h
      cases hblocks : blocks t name [] [] body with
      | ok r => simp [hblocks] at h
      | error f =>
          simp only [hblocks] at h
          obtain rfl := Except.error.inj (Option.some.inj h)
          exact blocks_expected hbody hblocks

end Statement

/-! ## Reading the tokens of a text -/

namespace Walk

variable {ts : List Token} {i k : Nat} {line : Line} {below : List Line}

theorem isLineEnd_of_endLine {α : Type} {a : α} {r : Except SyntaxError α} {l : Nat}
    (h : endLine ts (.ok a, k) = some (r, l))
    (hr : ∀ e, r = .error e → e.cause ≠ .unexpectedToken) : IsLineEnd ts k := by
  simp only [endLine, Option.bind_eq_bind, Option.bind_eq_some_iff] at h
  obtain ⟨t, ht, h⟩ := h
  split at h
  case h_1 hk => exact ⟨t, ht, Or.inl hk⟩
  case h_2 hk => exact ⟨t, ht, Or.inr hk⟩
  case h_3 =>
    obtain ⟨rfl, -⟩ := Prod.mk.inj (Option.some.inj h)
    exact absurd rfl (hr _ rfl)

theorem mix_lineEnd {text : Text} {t : Token} {e : Expr} (ht : (tokenize text)[i]? = some t)
    (hrule : t.kind ≠ .rule ∧ t.kind ≠ .doubleRule)
    (h : mix (tokenize text) false i = some (.ok e, k)) :
    IsLineEnd (tokenize text) k := by
  obtain ⟨line, below, hat⟩ := exists_at_tokenize ht
  obtain ⟨l, hfree, -⟩ := freeText_at hat
  simp only [freeText, h, Option.bind_eq_bind, Option.bind_some] at hfree
  refine isLineEnd_of_endLine hfree fun e he => Line.freeText_expected ?_ he
  rcases hat.tidy line List.mem_cons_self with hin | ⟨u, rfl, hu⟩
  · exact hin
  · obtain ⟨hu', -⟩ := hat.cons
    obtain rfl := Option.some.inj (ht.symm.trans hu')
    rcases hu with hu | hu
    · exact absurd hu hrule.1
    · exact absurd hu hrule.2

theorem itemList_lineEnd {text : Text} {t : Token} {op : Binding} {items : List Expr}
    (ht : (tokenize text)[i]? = some t) (hop : t.kind = .binding op)
    (h : itemList (tokenize text) [] (i + 1) = some (.ok items, k)) :
    IsLineEnd (tokenize text) k := by
  obtain ⟨line, below, hat⟩ := exists_at_tokenize ht
  obtain ⟨u, hu, hnext⟩ := hat.next
  obtain rfl := Option.some.inj (ht.symm.trans hu)
  cases hnext with
  | newline hk => simp [hk] at hop
  | eof hk => simp [hk] at hop
  | @inside rest _ _ _ hrest =>
      obtain ⟨l, hitems, -⟩ := itemList_at id [] hrest
      simp only [h, Option.bind_some] at hitems
      refine isLineEnd_of_endLine hitems fun e he => Line.scan_expected ?_ (Line.error_of_map he)
      rcases hat.tidy _ List.mem_cons_self with hin | ⟨v, hv, hk⟩
      · exact fun v hv => hin v (List.mem_cons_of_mem t hv)
      · obtain ⟨rfl, rfl⟩ := List.cons.inj hv
        simp

theorem exists_token_of_statement {r : Option Statement × Nat} (h : statement ts i = some r) :
    ∃ t, ts[i]? = some t := by
  by_cases hlt : i < ts.length
  · exact ⟨ts[i], List.getElem?_eq_getElem hlt⟩
  · rw [statement, skipWhite, scanWhile, dif_neg hlt] at h
    cases h

end Walk

/-- A rule of a text starts a line and is over with it. So the text or the items of a line that is
not a rule are followed by the end of the line, from whatever place they are read, and no statement
is refused for an unexpected token. -/
theorem parse_code_ne_unexpectedToken [Locator] (text : Text) :
    (∀ i t, (tokenize text)[i]? = some t → t.kind = .rule ∨ t.kind = .doubleRule →
      Walk.IsLineStart (tokenize text) i ∧ Walk.IsLineEnd (tokenize text) (i + 1)) ∧
    (∀ i t e k, (tokenize text)[i]? = some t → t.kind ≠ .rule ∧ t.kind ≠ .doubleRule →
      Walk.mix (tokenize text) false i = some (.ok e, k) →
      Walk.IsLineEnd (tokenize text) k) ∧
    (∀ i t op items k, (tokenize text)[i]? = some t → t.kind = .binding op →
      Walk.itemList (tokenize text) [] (i + 1) = some (.ok items, k) →
      Walk.IsLineEnd (tokenize text) k) ∧
    (∀ i e k, Walk.statement (tokenize text) i = some (some (.error e), k) →
      e.cause ≠ .unexpectedToken) ∧
    ∀ file d, Document.parse file text = .ok d →
      ∀ i ∈ d.issues, i.error.code ≠ "INVOCAT_UNEXPECTED_TOKEN" := by
  refine ⟨?_, fun _ _ _ _ => Walk.mix_lineEnd, fun _ _ _ _ _ => Walk.itemList_lineEnd, ?_, ?_⟩
  · intro i t ht hk
    have halone := Walk.rule_scanFrom _ _ _ ht hk
    exact ⟨halone.starts, halone.ends⟩
  · intro i e k h
    obtain ⟨t, ht⟩ := Walk.exists_token_of_statement h
    obtain ⟨line, below, hat⟩ := Walk.exists_at_tokenize ht
    obtain ⟨l, hread, -⟩ := Walk.statement_at hat.stands
    have hnext := (Prod.mk.inj (Option.some.inj (hread.symm.trans h))).1
    exact Statement.next_expected hat.tidy hnext
  · intro file d hd i hi
    have hmem := Document.error_mem_statements hi
    rw [Document.statements_of_locateAll hd] at hmem
    obtain ⟨line, below, hsuffix, hnext⟩ := Statement.mem_ofLines hmem
    have htidy : ∀ l ∈ line :: below, l.Tidy := fun l hl =>
      Line.tidy_of_mem_split (hsuffix.subset hl)
    have hcause := Statement.next_expected htidy hnext
    unfold SyntaxError.code
    cases hc : i.error.cause with
    | unexpectedToken => exact absurd hc hcause
    | _ => simp

end PoolProse
