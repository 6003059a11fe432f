import PoolProse.Proofs.LineStatements

/-!
# The extent of a titled definition

Blocks are read, announced and skipped by three walks over the lines below a title. All of them end
at the same line, so an error in a block costs the definition and nothing else. A title is met by
every walk that comes from above, and no statement above it sees what lies below.
-/
namespace PoolProse

namespace Line

/-! ## Shapes and the lines below -/

/-- The shape with other lines below the double rule of a title. -/
def Shape.withBody (body : List Line) : Shape → Shape
  | .title t name junk _ => .title t name junk body
  | s => s

theorem shapeOfText_withBody (t : Token) (ts : Line) (next : Line) (below below' : List Line) :
    shapeOfText t ts (next :: below') = (shapeOfText t ts (next :: below)).withBody below' := by
  unfold shapeOfText
  cases poolName (t :: ts) with
  | none => rfl
  | some p =>
      cases next with
      | nil => rfl
      | cons u junk =>
          simp only
          split <;> rfl

theorem shape_withBody (line next : Line) (below below' : List Line) :
    shape line (next :: below') = (shape line (next :: below)).withBody below' := by
  unfold shape
  split
  · rfl
  · split
    · rfl
    · rfl
    · exact shapeOfText_withBody _ _ next below below'

theorem untitled_of_shape {line : Line} {below : List Line}
    (h : ∀ t, shape line below ≠ .doubleRule t) : Untitled (line :: below) := by
  cases line with
  | nil => trivial
  | cons t ts =>
      intro hk
      have hcontent : content (t :: ts) = t :: ts := by simp [content, Token.isWhite, hk]
      exact h t (by simp only [shape, hcontent, hk])

theorem shape_text_content {line content : Line} {below : List Line}
    (h : shape line below = .text content) :
    line.content = content ∧ ∃ t ts, content = t :: ts ∧ t.kind ≠ .rule ∧ t.kind ≠ .doubleRule := by
  unfold shape at h
  split at h
  case h_1 => cases h
  case h_2 t ts hcontent =>
    split at h
    case h_1 => cases h
    case h_2 => cases h
    case h_3 hrule hdouble =>
      have htext : content = t :: ts := by
        unfold shapeOfText at h
        repeat' split at h
        all_goals
          cases h
          try rfl
      exact ⟨hcontent.trans htext.symm, t, ts, htext, hrule, hdouble⟩

theorem shape_rule_content {line junk : Line} {below : List Line}
    (h : shape line below = .rule junk) : ∃ t, line.content = t :: junk ∧ t.kind = .rule := by
  unfold shape at h
  split at h
  case h_1 => cases h
  case h_2 t ts hcontent =>
    split at h
    case h_1 hk =>
      obtain rfl := Shape.rule.inj h
      exact ⟨t, hcontent, hk⟩
    case h_2 => cases h
    case h_3 =>
      unfold shapeOfText at h
      repeat' split at h
      all_goals cases h

theorem Tidy.inside {line content : Line} {below : List Line} (h : line.Tidy)
    (hshape : shape line below = .text content) : ∀ t ∈ line, t.kind.isInside = true := by
  obtain ⟨rfl, t, ts, hcontent, hrule, hdouble⟩ := shape_text_content hshape
  have hmem : t ∈ line := mem_of_mem_content (by rw [hcontent]; exact List.mem_cons_self)
  rcases h with hin | ⟨u, rfl, hk | hk⟩
  · exact hin
  · exact absurd (List.mem_singleton.1 hmem ▸ hk) hrule
  · exact absurd (List.mem_singleton.1 hmem ▸ hk) hdouble

theorem shape_title_below {line : Line} {below : List Line} {t : Token} {name : Text}
    {junk : Line} {body : List Line} (h : shape line below = .title t name junk body) :
    ∃ u, below = (u :: junk) :: body ∧ u.kind = .doubleRule := by
  unfold shape at h
  split at h
  · cases h
  · split at h
    · cases h
    · cases h
    · unfold shapeOfText at h
      split at h
      · cases h
      · split at h
        · split at h
          case isTrue hu =>
            simp only [Shape.title.injEq] at h
            obtain ⟨-, -, rfl, rfl⟩ := h
            exact ⟨_, rfl, eq_of_beq (Bool.and_eq_true_iff.1 hu).2⟩
          case isFalse => cases h
        · cases h

end Line

namespace Statement

open Line (shape Untitled)

/-! ## Three walks over the blocks -/

/-- The lines that follow a rule where the look-ahead announces one more block. -/
def laterBlocks : List Line → List (List Line)
  | [] => []
  | line :: below =>
    match shape line below with
    | .rule _ => if blockAhead below then below :: laterBlocks below else []
    | .blank | .text _ => laterBlocks below
    | .doubleRule _ | .title .. => []

/-- The end, a double rule or a title comes before any rule. -/
inductive CutOff : List Line → Prop where
  | eof : CutOff []
  | doubleRule {line : Line} {below : List Line} {t : Token}
      (h : shape line below = .doubleRule t) : CutOff (line :: below)
  | title {line : Line} {below : List Line} {t : Token} {name : Text} {junk : Line}
      {body : List Line} (h : shape line below = .title t name junk body) : CutOff (line :: below)
  | blank {line : Line} {below : List Line} (h : shape line below = .blank)
      (hbelow : CutOff below) : CutOff (line :: below)
  | text {line : Line} {below : List Line} {content : Line}
      (h : shape line below = .text content) (hbelow : CutOff below) : CutOff (line :: below)

theorem cutOff_of_not_closes {lines : List Line} (h : closes lines = false) : CutOff lines := by
  induction lines with
  | nil => exact .eof
  | cons line below ih =>
      unfold closes at h
      cases hs : shape line below with
      | blank => exact .blank hs (ih (by simpa only [hs] using h))
      | rule junk => simp [hs] at h
      | doubleRule t => exact .doubleRule hs
      | title t name junk body => exact .title hs
      | text content => exact .text hs (ih (by simpa only [hs] using h))

theorem closes_of_blockAhead {lines : List Line} (h : blockAhead lines = true) :
    closes lines = true := by
  cases lines with
  | nil => cases h
  | cons line below =>
      cases hs : shape line below with
      | blank => simp [blockAhead, hs] at h
      | _ => simpa only [blockAhead, hs] using h

theorem closes_of_mem_laterBlocks {lines b : List Line} (h : b ∈ laterBlocks lines) :
    closes b = true := by
  induction lines with
  | nil => cases h
  | cons line below ih =>
      unfold laterBlocks at h
      split at h
      · split at h
        case isTrue hahead =>
          rcases List.mem_cons.1 h with rfl | h
          · exact closes_of_blockAhead hahead
          · exact ih h
        case isFalse => cases h
      · exact ih h
      · exact ih h
      · cases h
      · cases h

variable {title : Token} {name : Text}

/-- Reading blocks ends where skipping them does, with one item for each block. -/
theorem blocks_extent {done lines : List Expr} {body : List Line} {items : List Expr}
    {rest : List Line} (h : blocks title name done lines body = .ok (items, rest)) :
    rest = afterBlocks body ∧ items.length = done.length + (laterBlocks body).length + 1 := by
  induction body generalizing done lines with
  | nil => cases h
  | cons line below ih =>
      unfold blocks at h
      unfold afterBlocks laterBlocks
      cases hs : shape line below with
      | blank =>
          simp only [hs] at h ⊢
          exact ih h
      | rule junk =>
          simp only [hs] at h ⊢
          cases hjunk : Line.nothing junk with
          | error e => simp [hjunk] at h
          | ok _ =>
              simp only [hjunk] at h
              by_cases hahead : blockAhead below = true
              · simp only [hahead, if_true] at h ⊢
                obtain ⟨hrest, hlength⟩ := ih h
                refine ⟨hrest, ?_⟩
                simp only [List.length_append, List.length_cons, List.length_nil] at hlength ⊢
                omega
              · simp only [hahead] at h ⊢
                obtain ⟨rfl, rfl⟩ := Prod.mk.inj (Except.ok.inj h)
                simp
      | doubleRule t => simp [hs] at h
      | title t name junk body => simp [hs] at h
      | text content =>
          simp only [hs] at h ⊢
          cases htext : Line.freeText content with
          | error e => simp [htext] at h
          | ok e =>
              simp only [htext] at h
              exact ih h

end Statement

namespace Line

theorem scan_cause {items : Bool} {done : List Expr} {level : Level} {enclosing : List Enclosing}
    {ts : List Token} {e : SyntaxError} (h : scan items done level enclosing ts = .error e) :
    e.cause = .unmatchedGroup ∨ e.cause = .operatorWithoutName ∨
      e.cause = .unexpectedToken ∧ e.token ∈ ts ∧ e.token.kind.isInside = false := by
  induction ts generalizing done level enclosing with
  | nil =>
      cases enclosing with
      | nil => cases h
      | cons o enclosing =>
          obtain rfl := Except.error.inj h
          exact Or.inl rfl
  | cons t ts ih =>
      have hlater : ∀ {done level enclosing}, scan items done level enclosing ts = .error e →
          e.cause = .unmatchedGroup ∨ e.cause = .operatorWithoutName ∨
            e.cause = .unexpectedToken ∧ e.token ∈ t :: ts ∧ e.token.kind.isInside = false := by
        intro done level enclosing h
        rcases ih h with hcause | hcause | ⟨hcause, hmem, hkind⟩
        · exact Or.inl hcause
        · exact Or.inr (Or.inl hcause)
        · exact Or.inr (Or.inr ⟨hcause, List.mem_cons_of_mem t hmem, hkind⟩)
      unfold scan at h
      cases hk : t.kind with
      | white => exact hlater (by simpa only [hk] using h)
      | name => exact hlater (by simpa only [hk] using h)
      | number => exact hlater (by simpa only [hk] using h)
      | escape => exact hlater (by simpa only [hk] using h)
      | opening b => exact hlater (by simpa only [hk] using h)
      | closing b =>
          simp only [hk] at h
          split at h
          · obtain rfl := Except.error.inj h
            exact Or.inl rfl
          · split at h
            · exact hlater h
            · obtain rfl := Except.error.inj h
              exact Or.inl rfl
      | pipe =>
          simp only [hk] at h
          split at h
          · exact hlater h
          · obtain rfl := Except.error.inj h
            exact Or.inr (Or.inl rfl)
      | binding op =>
          simp only [hk] at h
          obtain rfl := Except.error.inj h
          exact Or.inr (Or.inl rfl)
      | _ =>
          simp only [hk] at h
          split at h
          · obtain rfl := Except.error.inj h
            exact Or.inr (Or.inr ⟨rfl, List.mem_cons_self, by rw [hk]; rfl⟩)
          · obtain rfl := Except.error.inj h
            exact Or.inl rfl

theorem error_of_map {α β : Type} {f : α → β} {r : Except SyntaxError α} {e : SyntaxError}
    (h : r.map f = .error e) : r = .error e := by
  cases r with
  | ok a => cases h
  | error e' =>
      obtain rfl := Except.error.inj h
      rfl

theorem freeText_cause {ts : List Token} {e : SyntaxError} (h : freeText ts = .error e)
    (name : Text) : e.cause ≠ .unterminatedBlock name := by
  rcases scan_cause (error_of_map h) with hcause | hcause | ⟨hcause, -, -⟩ <;> simp [hcause]

end Line

namespace Statement

open Line (shape Untitled)

/-- Blocks that a rule closes before anything cuts them off are not found unterminated: the first
of them ends with that rule, and the look-ahead saw the end of all others. -/
theorem blocks_cause {title : Token} {name : Text} {done lines : List Expr} {body : List Line}
    {e : SyntaxError} (hclosed : closes body = true)
    (h : blocks title name done lines body = .error e) (other : Text) :
    e.cause ≠ .unterminatedBlock other := by
  induction body generalizing done lines with
  | nil => cases hclosed
  | cons line below ih =>
      unfold blocks at h
      unfold closes at hclosed
      cases hs : shape line below with
      | blank =>
          simp only [hs] at h hclosed
          exact ih hclosed h
      | rule junk =>
          simp only [hs] at h
          cases junk with
          | cons t ts =>
              obtain rfl := Except.error.inj h
              simp
          | nil =>
              simp only [Line.nothing] at h
              by_cases hahead : blockAhead below = true
              · simp only [hahead, if_true] at h
                exact ih (closes_of_blockAhead hahead) h
              · simp [hahead] at h
      | doubleRule t => simp [hs] at hclosed
      | title t name junk body => simp [hs] at hclosed
      | text content =>
          simp only [hs] at h hclosed
          cases htext : Line.freeText content with
          | error f =>
              simp only [htext] at h
              obtain rfl := Except.error.inj h
              exact Line.freeText_cause htext other
          | ok f =>
              simp only [htext] at h
              exact ih hclosed h

theorem afterBlocks_suffix (lines : List Line) : afterBlocks lines <:+ lines := by
  induction lines with
  | nil => exact List.suffix_rfl
  | cons line below ih =>
      have hbelow := List.suffix_cons line below
      unfold afterBlocks
      cases Line.shape line below with
      | blank => exact ih.trans hbelow
      | rule junk =>
          simp only
          split
          · exact ih.trans hbelow
          · exact hbelow
      | doubleRule t => exact List.suffix_rfl
      | title t name junk body => exact List.suffix_rfl
      | text content => exact ih.trans hbelow

theorem next_suffix (line : Line) (below : List Line) : (next line below).2 <:+ below := by
  unfold next
  cases hs : shape line below with
  | blank => exact List.suffix_rfl
  | rule junk => exact List.suffix_rfl
  | doubleRule t => exact List.suffix_rfl
  | text content => exact List.suffix_rfl
  | title t name junk body =>
      obtain ⟨u, hcat, -⟩ := Line.shape_title_below hs
      have hbody : body <:+ below := by
        rw [hcat]
        exact List.suffix_cons _ body
      simp only [definition]
      cases Line.nothing junk with
      | error e => exact hbody
      | ok _ =>
          cases hblocks : blocks t name [] [] body with
          | error e => exact (afterBlocks_suffix body).trans hbody
          | ok r =>
              obtain ⟨items, rest⟩ := r
              obtain ⟨rfl, -⟩ := blocks_extent hblocks
              exact (afterBlocks_suffix body).trans hbody

theorem mem_ofLines {lines : List Line} {s : Statement} (h : s ∈ ofLines lines) :
    ∃ line below, line :: below <:+ lines ∧ (next line below).1 = some s := by
  induction hn : lines.length using Nat.strongRecOn generalizing lines with
  | ind n ih =>
      cases lines with
      | nil =>
          rw [ofLines] at h
          cases h
      | cons line below =>
          rw [ofLines] at h
          rcases List.mem_append.1 h with h | h
          · exact ⟨line, below, List.suffix_rfl, Option.mem_toList.1 h⟩
          · have hnext := (next_suffix line below).trans (List.suffix_cons line below)
            have hle := (next_suffix line below).length_le
            obtain ⟨line', below', hsuffix, hs⟩ :=
              ih _ (by rw [← hn, List.length_cons]; omega) h rfl
            exact ⟨line', below', hsuffix.trans hnext, hs⟩

/-! ## Exchanging the lines below -/

/-- Walks over the lines above go on in the same way, whichever of the two comes below. -/
structure Exchangeable (low low' : List Line) : Prop where
  untitled : Untitled low
  untitled' : Untitled low'
  closes : closes low = closes low'
  ahead : blockAhead low = blockAhead low'

namespace Exchangeable

variable {low low' : List Line} (h : Exchangeable low low')
include h

theorem shape_append (line : Line) (above : List Line) :
    (shape line (above ++ low) = shape line (above ++ low') ∧
        ∀ t name junk body, shape line (above ++ low') ≠ .title t name junk body) ∨
      ∃ t name junk next above', above = next :: above' ∧
        shape line (above ++ low) = .title t name junk (above' ++ low) ∧
        shape line (above ++ low') = .title t name junk (above' ++ low') := by
  cases above with
  | nil =>
      left
      have hnil : ∀ t name junk body, shape line [] ≠ .title t name junk body := by
        intro t name junk body hs
        obtain ⟨u, hcons, -⟩ := Line.shape_title_below hs
        cases hcons
      rw [List.nil_append, List.nil_append, Line.shape_untitled h.untitled,
        Line.shape_untitled h.untitled']
      exact ⟨rfl, hnil⟩
  | cons next above =>
      rw [List.cons_append, List.cons_append, Line.shape_withBody line next [] (above ++ low),
        Line.shape_withBody line next [] (above ++ low')]
      cases shape line [next] with
      | title t name junk body =>
          right
          exact ⟨t, name, junk, next, above, rfl, rfl, rfl⟩
      | _ =>
          left
          refine ⟨rfl, ?_⟩
          intro t name junk body hs
          cases hs

theorem closes_append (above : List Line) :
    Statement.closes (above ++ low) = Statement.closes (above ++ low') := by
  induction above with
  | nil => exact h.closes
  | cons line above ih =>
      rw [List.cons_append, List.cons_append, Statement.closes, Statement.closes, ih]
      rcases h.shape_append line above with ⟨heq, -⟩ | ⟨t, name, junk, next, above', -, hs, hs'⟩
      · rw [heq]
      · rw [hs, hs']

theorem blockAhead_append (above : List Line) :
    blockAhead (above ++ low) = blockAhead (above ++ low') := by
  cases above with
  | nil => exact h.ahead
  | cons line above =>
      have hcloses := h.closes_append (line :: above)
      rw [List.cons_append, List.cons_append] at hcloses ⊢
      rw [blockAhead, blockAhead, hcloses]
      rcases h.shape_append line above with ⟨heq, -⟩ | ⟨t, name, junk, next, above', -, hs, hs'⟩
      · rw [heq]
      · rw [hs, hs']

/-- The blocks end above the lines that are exchanged, at the same line, or not above them. -/
theorem afterBlocks_append (above : List Line) :
    (∃ above', afterBlocks (above ++ low) = above' ++ low ∧
        afterBlocks (above ++ low') = above' ++ low') ∨
      (afterBlocks (above ++ low) = afterBlocks low ∧
        afterBlocks (above ++ low') = afterBlocks low') := by
  induction above with
  | nil => exact Or.inr ⟨rfl, rfl⟩
  | cons line above ih =>
      rw [List.cons_append, List.cons_append, afterBlocks, afterBlocks, h.blockAhead_append above]
      rcases h.shape_append line above with ⟨heq, hnot⟩ | ⟨t, name, junk, next, above', -, hs, hs'⟩
      · rw [heq]
        cases hs : shape line (above ++ low') with
        | blank => exact ih
        | rule junk =>
            by_cases hahead : blockAhead (above ++ low') = true
            · simp only [hahead, if_true]
              exact ih
            · simp only [hahead]
              exact Or.inl ⟨above, rfl, rfl⟩
        | doubleRule t => exact Or.inl ⟨line :: above, rfl, rfl⟩
        | title t name junk body => exact absurd hs (hnot t name junk body)
        | text content => exact ih
      · rw [hs, hs']
        exact Or.inl ⟨line :: above, rfl, rfl⟩

end Exchangeable

theorem exchangeable_of_text {line line' : Line} {below : List Line} {content content' : Line}
    (hs : shape line below = .text content) (hs' : shape line' below = .text content') :
    Exchangeable (line :: below) (line' :: below) where
  untitled := Line.untitled_of_shape (by simp [hs])
  untitled' := Line.untitled_of_shape (by simp [hs'])
  closes := by simp only [closes, hs, hs']
  ahead := by simp only [blockAhead, closes, hs, hs']

theorem afterBlocks_replace {above below : List Line} {old new content content' : Line}
    (hold : shape old below = .text content) (hnew : shape new below = .text content')
    (hafter : afterBlocks (above ++ old :: below) <:+ below) :
    afterBlocks (above ++ new :: below) = afterBlocks (above ++ old :: below) := by
  rcases (exchangeable_of_text hold hnew).afterBlocks_append above with
    ⟨above', heq, -⟩ | ⟨heq, heq'⟩
  · have hlength := hafter.length_le
    rw [heq] at hlength
    simp only [List.length_append, List.length_cons] at hlength
    omega
  · rw [heq, heq']
    simp only [afterBlocks, hold, hnew]

/-- The line is a title when `below` follows it. -/
def Titled (line : Line) (below : List Line) : Prop :=
  ∃ t name junk body, shape line below = .title t name junk body

section

variable {wall : Line} {low low' : List Line} (h : Titled wall low) (h' : Titled wall low')
include h h'

/-- What lies below a title is not seen from above. -/
theorem exchangeable_of_titled : Exchangeable (wall :: low) (wall :: low') := by
  obtain ⟨t, name, junk, body, hs⟩ := h
  obtain ⟨t', name', junk', body', hs'⟩ := h'
  exact {
    untitled := Line.untitled_of_shape (by simp [hs])
    untitled' := Line.untitled_of_shape (by simp [hs'])
    closes := by simp only [closes, hs, hs']
    ahead := by simp only [blockAhead, closes, hs, hs'] }

theorem afterBlocks_titled (above : List Line) :
    ∃ above', afterBlocks (above ++ wall :: low) = above' ++ wall :: low ∧
      afterBlocks (above ++ wall :: low') = above' ++ wall :: low' := by
  rcases (exchangeable_of_titled h h').afterBlocks_append above with habove | ⟨hlow, hlow'⟩
  · exact habove
  · obtain ⟨t, name, junk, body, hs⟩ := h
    obtain ⟨t', name', junk', body', hs'⟩ := h'
    refine ⟨[], hlow.trans ?_, hlow'.trans ?_⟩
    · simp only [afterBlocks, hs, List.nil_append]
    · simp only [afterBlocks, hs', List.nil_append]

theorem blocks_titled (title : Token) (name : Text) (done lines : List Expr) (above : List Line) :
    (∃ e, blocks title name done lines (above ++ wall :: low) = .error e ∧
        blocks title name done lines (above ++ wall :: low') = .error e) ∨
      ∃ items above', blocks title name done lines (above ++ wall :: low) =
          .ok (items, above' ++ wall :: low) ∧
        blocks title name done lines (above ++ wall :: low') =
          .ok (items, above' ++ wall :: low') := by
  induction above generalizing done lines with
  | nil =>
      obtain ⟨t, name, junk, body, hs⟩ := h
      obtain ⟨t', name', junk', body', hs'⟩ := h'
      left
      simp only [List.nil_append, blocks, hs, hs']
      exact ⟨_, rfl, rfl⟩
  | cons line above ih =>
      have hex := exchangeable_of_titled h h'
      rw [List.cons_append, List.cons_append, blocks, blocks, hex.blockAhead_append above]
      rcases hex.shape_append line above with
        ⟨heq, hnot⟩ | ⟨t, name, junk, next, above', -, hs, hs'⟩
      · rw [heq]
        cases hs : shape line (above ++ wall :: low') with
        | blank => exact ih done lines
        | rule junk =>
            simp only
            cases Line.nothing junk with
            | error e => exact Or.inl ⟨e, rfl, rfl⟩
            | ok _ =>
                by_cases hahead : blockAhead (above ++ wall :: low') = true
                · simp only [hahead, if_true]
                  exact ih _ _
                · simp only [hahead]
                  exact Or.inr ⟨_, above, rfl, rfl⟩
        | doubleRule t => exact Or.inl ⟨_, rfl, rfl⟩
        | title t name junk body => exact absurd hs (hnot t name junk body)
        | text content =>
            simp only
            cases Line.freeText content with
            | error e => exact Or.inl ⟨e, rfl, rfl⟩
            | ok e => exact ih _ _
      · rw [hs, hs']
        exact Or.inl ⟨_, rfl, rfl⟩

theorem next_titled (line : Line) (above : List Line) :
    ∃ s above', next line (above ++ wall :: low) = (s, above' ++ wall :: low) ∧
      next line (above ++ wall :: low') = (s, above' ++ wall :: low') := by
  unfold next
  rcases (exchangeable_of_titled h h').shape_append line above with
    ⟨heq, hnot⟩ | ⟨t, name, junk, next, above', -, hs, hs'⟩
  · rw [heq]
    cases hs : shape line (above ++ wall :: low') with
    | title t name junk body => exact absurd hs (hnot t name junk body)
    | _ => exact ⟨_, above, rfl, rfl⟩
  · rw [hs, hs']
    simp only [definition]
    cases Line.nothing junk with
    | error e => exact ⟨_, above', rfl, rfl⟩
    | ok _ =>
        rcases blocks_titled h h' t name [] [] above' with ⟨e, he, he'⟩ | ⟨items, rest, hr, hr'⟩
        · obtain ⟨rest, hrest, hrest'⟩ := afterBlocks_titled h h' above'
          simp only [he, he', hrest, hrest']
          exact ⟨_, rest, rfl, rfl⟩
        · simp only [hr, hr']
          exact ⟨_, rest, rfl, rfl⟩

end

/-! ## Reading on from one statement to the next -/

/-- Reading `lines` gives the statements `sts` up to where `rest` is left. -/
inductive Reaches : List Line → List Statement → List Line → Prop where
  | here (lines : List Line) : Reaches lines [] lines
  | on {line : Line} {below : List Line} {s : Option Statement} {next' : List Line}
      {sts : List Statement} {rest : List Line} (hnext : next line below = (s, next'))
      (h : Reaches next' sts rest) : Reaches (line :: below) (s.toList ++ sts) rest

theorem Reaches.ofLines_eq {lines rest : List Line} {sts : List Statement}
    (h : Reaches lines sts rest) : ofLines lines = sts ++ ofLines rest := by
  induction h with
  | here => rfl
  | on hnext _ ih => rw [ofLines, hnext, ih, List.append_assoc]

/-- Every title is reached, and the statements above it do not depend on what is below it. -/
theorem reaches_titled {wall : Line} {low low' : List Line} (h : Titled wall low)
    (h' : Titled wall low') (above : List Line) :
    ∃ sts, Reaches (above ++ wall :: low) sts (wall :: low) ∧
      Reaches (above ++ wall :: low') sts (wall :: low') := by
  induction hn : above.length using Nat.strongRecOn generalizing above with
  | ind n ih =>
      cases above with
      | nil => exact ⟨[], .here _, .here _⟩
      | cons line above =>
          obtain ⟨s, above', hnext, hnext'⟩ := next_titled h h' line above
          have hlength := next_length line (above ++ wall :: low)
          rw [hnext] at hlength
          simp only [List.length_append, List.length_cons] at hlength hn
          obtain ⟨sts, hsts, hsts'⟩ := ih above'.length (by omega) above' rfl
          exact ⟨s.toList ++ sts, .on hnext hsts, .on hnext' hsts'⟩

/-! ## The definition under a title -/

/-- What becomes of the lines below a title. If the blocks are read, reading stops where skipping
them would, with one item for the first block and one for each that was announced. If not, their
error is the statement, and they are found unterminated only if the first block is cut off. -/
inductive MadeOf (title : Token) (name : Text) (body : List Line) : Statement → Prop where
  | read {items : List Expr}
      (h : blocks title name [] [] body = .ok (items, afterBlocks body))
      (hlength : items.length = (laterBlocks body).length + 1) :
      MadeOf title name body (.ok (.bind .define name items))
  | refused {e : SyntaxError} (h : blocks title name [] [] body = .error e)
      (hcut : ∀ other, e.cause = .unterminatedBlock other → CutOff body) :
      MadeOf title name body (.error e)

theorem next_of_title {line : Line} {below : List Line} {title : Token} {name : Text}
    {body : List Line} (h : shape line below = .title title name [] body) :
    ∃ s, next line below = (some s, afterBlocks body) ∧ MadeOf title name body s := by
  simp only [next, h, definition, Line.nothing]
  cases hblocks : blocks title name [] [] body with
  | error e =>
      refine ⟨.error e, rfl, .refused hblocks ?_⟩
      intro other hcause
      apply cutOff_of_not_closes
      by_contra hclosed
      exact blocks_cause (Bool.not_eq_false _ ▸ hclosed) hblocks other hcause
  | ok r =>
      obtain ⟨items, rest⟩ := r
      obtain ⟨rfl, hlength⟩ := blocks_extent hblocks
      refine ⟨.ok (.bind .define name items), rfl, .read hblocks ?_⟩
      simpa using hlength

/-- What the statement says, without places: its expression or the code of its error. -/
def outcome (s : Statement) : Except String Expr := s.mapError SyntaxError.code

theorem outcome_relocate (f : Token → Token) (s : Statement) :
    outcome (s.relocate f) = outcome s := by
  cases s <;> rfl

end Statement

/-- The token without its place. -/
def Token.bare (t : Token) : Token := { t with offset := 0 }

theorem Token.keeps_bare : Token.Keeps Token.bare := ⟨fun _ => rfl, fun _ => rfl⟩

namespace Statement

theorem outcome_of_bare {lines lines' : List Line}
    (h : lines.map (List.map Token.bare) = lines'.map (List.map Token.bare)) :
    (ofLines lines).map outcome = (ofLines lines').map outcome := by
  have hbare : ∀ ls : List Line,
      (ofLines ls).map outcome = (ofLines (ls.map (List.map Token.bare))).map outcome := by
    intro ls
    rw [ofLines_map Token.keeps_bare, List.map_map]
    apply List.map_congr_left
    intro s _
    exact (outcome_relocate Token.bare s).symm
  rw [hbare lines, h, ← hbare lines']

end Statement

namespace Document

open Line (shape)
open Statement (afterBlocks laterBlocks closes outcome)

theorem junk_eq_nil {text : Text} {before : List Line} {line rule : Line} {body : List Line}
    {title : Token} {name : Text} {junk : Line} {body' : List Line}
    (hlines : Line.ofText text = before ++ line :: rule :: body)
    (htitle : shape line (rule :: body) = .title title name junk body') :
    junk = [] ∧ body' = body := by
  obtain ⟨u, hbelow, hu⟩ := Line.shape_title_below htitle
  obtain ⟨rfl, rfl⟩ := List.cons.inj hbelow
  have hmem : (u :: junk) ∈ Line.split (tokenize text) := by
    rw [Line.split_tokenize, hlines]
    simp
  exact ⟨(Line.tidy_of_mem_split hmem).eq_nil (Or.inr hu), rfl⟩

/-- The extent of a titled definition. Reading comes to every title, makes one statement of it and
goes on below its blocks, whether they are read or refused. So if a line of text in the blocks is
replaced by another one, all other statements stay the same. -/
theorem parse_definition_extent [Locator] (file : Text) {text : Text} (hlocated : Locatable text)
    {before : List Line} {line rule : Line} {body : List Line} {title : Token} {name : Text}
    {junk : Line} (hlines : Line.ofText text = before ++ line :: rule :: body)
    (htitle : shape line (rule :: body) = .title title name junk body) :
    ∃ d sts s, parse file text = .ok d ∧
      Statement.Reaches (Line.ofText text) sts (line :: rule :: body) ∧
      Statement.next line (rule :: body) = (some s, afterBlocks body) ∧
      d.statements = sts ++ s :: Statement.ofLines (afterBlocks body) ∧
      Statement.MadeOf title name body s ∧
      (∀ b ∈ laterBlocks body, closes b = true) ∧
      ∀ (text' : Text) (above below : List Line) (old new : Line) (content content' : Line),
        Locatable text' → body = above ++ old :: below → afterBlocks body <:+ below →
        shape old below = .text content → shape new below = .text content' →
        (Line.ofText text').map (List.map Token.bare) =
          (before ++ line :: rule :: (above ++ new :: below)).map (List.map Token.bare) →
        ∃ d' s', parse file text' = .ok d' ∧
          Statement.MadeOf title name (above ++ new :: below) s' ∧
          d'.statements.map outcome = sts.map outcome ++
            outcome s' :: (Statement.ofLines (afterBlocks body)).map outcome := by
  obtain ⟨rfl, -⟩ := junk_eq_nil hlines htitle
  obtain ⟨d, hd, hstatements⟩ := parse_locatable file hlocated
  obtain ⟨s, hnext, hmade⟩ := Statement.next_of_title htitle
  have htitled : Statement.Titled line (rule :: body) := ⟨_, _, _, _, htitle⟩
  obtain ⟨sts, hreaches, -⟩ := Statement.reaches_titled htitled htitled before
  have hread := hreaches.ofLines_eq
  have hgoal : d.statements = sts ++ s :: Statement.ofLines (afterBlocks body) := by
    rw [hstatements, Statement.ofTokens, Line.split_tokenize, hlines, hread, Statement.ofLines,
      hnext]
    rfl
  refine ⟨d, sts, s, hd, hlines ▸ hreaches, hnext, hgoal, hmade,
    fun b => Statement.closes_of_mem_laterBlocks, ?_⟩
  intro text' above below old new content content' hlocated' hbody hafter hold hnew hlines'
  have htitle' : shape line (rule :: (above ++ new :: below)) =
      .title title name [] (above ++ new :: below) := by
    rw [Line.shape_withBody line rule body, htitle]
    rfl
  obtain ⟨d', hd', hstatements'⟩ := parse_locatable file hlocated'
  obtain ⟨s', hnext', hmade'⟩ := Statement.next_of_title htitle'
  obtain ⟨sts', hreaches₁, hreaches₂⟩ :=
    Statement.reaches_titled htitled ⟨_, _, _, _, htitle'⟩ before
  have hsts : sts = sts' := List.append_cancel_right (hread.symm.trans hreaches₁.ofLines_eq)
  have hsame : afterBlocks (above ++ new :: below) = afterBlocks body := by
    rw [hbody] at hafter ⊢
    exact Statement.afterBlocks_replace hold hnew hafter
  refine ⟨d', s', hd', hmade', ?_⟩
  rw [hstatements', Statement.ofTokens, Line.split_tokenize, Statement.outcome_of_bare hlines',
    hreaches₂.ofLines_eq, Statement.ofLines, hnext', hsame, hsts]
  simp

/-- An open group in the second block is mended. The first text has an error and the second a
definition with two items, and the line below is read in both. -/
theorem parse_definition_extent_pet :
    Locatable (utf8 "pet\n===\ncat\n---\n(a\n---\nhi") ∧
    Locatable (utf8 "pet\n===\ncat\n---\nan a\n---\nhi") ∧
    ∃ d d' sts s s' rest, parse [] (utf8 "pet\n===\ncat\n---\n(a\n---\nhi") = .ok d ∧
      parse [] (utf8 "pet\n===\ncat\n---\nan a\n---\nhi") = .ok d' ∧
      d.statements = [.error ⟨.unmatchedGroup, ⟨.opening .paren, utf8 "(", 16⟩⟩,
        .ok (.lit (utf8 "hi"))] ∧
      d'.statements = [.ok (.bind .define (utf8 "pet") [.lit (utf8 "cat"), .lit (utf8 "an a")]),
        .ok (.lit (utf8 "hi"))] ∧
      d.statements = sts ++ s :: rest ∧
      d'.statements.map outcome = sts.map outcome ++ outcome s' :: rest.map outcome := by
  have hlocated : Locatable (utf8 "pet\n===\ncat\n---\n(a\n---\nhi") := by decide +kernel
  have hlocated' : Locatable (utf8 "pet\n===\ncat\n---\nan a\n---\nhi") := by decide +kernel
  have hlines : Line.ofText (utf8 "pet\n===\ncat\n---\n(a\n---\nhi") =
      [] ++ [⟨.name, utf8 "pet", 0⟩] :: [⟨.doubleRule, utf8 "===", 4⟩] ::
        ([[⟨.name, utf8 "cat", 8⟩], [⟨.rule, utf8 "---", 12⟩]] ++
          [⟨.opening .paren, utf8 "(", 16⟩, ⟨.name, utf8 "a", 17⟩] ::
            [[⟨.rule, utf8 "---", 19⟩], [⟨.name, utf8 "hi", 23⟩]]) := by decide +kernel
  obtain ⟨d, sts, s, hd, -, -, hstatements, -, -, hreplace⟩ :=
    parse_definition_extent [] hlocated hlines rfl
  obtain ⟨d', s', hd', -, hstatements'⟩ :=
    hreplace (utf8 "pet\n===\ncat\n---\nan a\n---\nhi") _ _ _ [⟨.name, utf8 "an a", 16⟩] _ _
      hlocated' rfl ⟨[[⟨.rule, utf8 "---", 19⟩]], rfl⟩ rfl rfl (by decide +kernel)
  have hparse : parse [] (utf8 "pet\n===\ncat\n---\n(a\n---\nhi") =
      .ok [.error ⟨⟨.unmatchedGroup, ⟨.opening .paren, utf8 "(", 16⟩⟩, 8, ⟨[], 5, 1⟩⟩,
        .ok (.lit (utf8 "hi"))] := by decide +kernel
  have hparse' : parse [] (utf8 "pet\n===\ncat\n---\nan a\n---\nhi") =
      .ok [.ok (.bind .define (utf8 "pet") [.lit (utf8 "cat"), .lit (utf8 "an a")]),
        .ok (.lit (utf8 "hi"))] := by decide +kernel
  obtain rfl := Except.ok.inj (hd.symm.trans hparse)
  obtain rfl := Except.ok.inj (hd'.symm.trans hparse')
  exact ⟨hlocated, hlocated', _, _, sts, s, s', _, hd, hd', rfl, rfl, hstatements, hstatements'⟩

end Document

end PoolProse
