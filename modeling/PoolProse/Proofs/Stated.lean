import PoolProse.Proofs.Extent
import PoolProse.Proofs.RoundTrip

/-!
# What a statement can be

An expression that is read from a document is a row of literals and groups, or it binds such rows to
a pool name. No literal in it is empty or stands next to another.
-/
namespace PoolProse

open Text (isBlank isDigit)
open Token (Formed NameForm PoolName)

/-! ## Rows -/

namespace Expr

/-- A row whose literals are any texts. -/
abbrev FreeRow (es : List Expr) : Prop := Row (fun _ => True) es

theorem freeRow_mergeLits {es : List Expr} (h : ∀ e ∈ es, IsSegment (fun _ => True) e) :
    FreeRow (mergeLits es) := by
  induction es with
  | nil => exact .nil
  | cons e es ih =>
      obtain ⟨he, hes⟩ := List.forall_mem_cons.1 h
      have hrow := ih hes
      rw [mergeLits_cons]
      rcases he with ⟨s, hs, -, rfl⟩ | ⟨b, name, hname, rfl⟩
      · generalize mergeLits es = fs at hrow
        cases hrow with
        | nil => exact .lit hs trivial (by simp) .nil
        | @lit t fs _ _ hadjacent hfs =>
            exact .lit (by simp [hs]) trivial hadjacent hfs
        | @group b name fs hname hfs =>
            have hadjacent : ∀ t gs, group b (mixAll name) :: fs ≠ .lit t :: gs := by
              intro t gs
              cases b <;> simp [group]
            rw [joinFront_lit hadjacent]
            exact .lit hs trivial hadjacent (.group hname hfs)
      · rw [joinFront_group]
        exact .group hname hrow

theorem mergeLits_ne_nil {es : List Expr} (h : es ≠ []) : mergeLits es ≠ [] := by
  obtain ⟨e, es, rfl⟩ := List.exists_cons_of_ne_nil h
  rw [mergeLits_cons]
  unfold joinFront
  split <;> simp

theorem operands_mixAll {es : List Expr} (h : FreeRow es) (hne : es ≠ []) :
    operands (mixAll es) = es := by
  refine parts_mixAll hne (fun e he => ?_) fun _ _ _ => rfl
  rcases h.isSegment he with ⟨s, -, -, rfl⟩ | ⟨b, name, -, rfl⟩
  · rfl
  · cases b <;> rfl

/-- The lines of a block make one row. -/
theorem joinLines_freeRow {lines : List Expr}
    (h : ∀ e ∈ lines, ∃ es, FreeRow es ∧ es ≠ [] ∧ e = mixAll es) :
    ∃ es, FreeRow es ∧ joinLines lines = mixAll es := by
  refine ⟨mergeLits (spaced lines), freeRow_mergeLits ?_, rfl⟩
  have hoperands : ∀ e ∈ lines, ∀ f ∈ operands e, IsSegment (fun _ => True) f := by
    intro e he f hf
    obtain ⟨es, hes, hne, rfl⟩ := h e he
    rw [operands_mixAll hes hne] at hf
    exact hes.isSegment hf
  clear h
  fun_induction spaced lines with
  | case1 => simp
  | case2 e => exact hoperands e (by simp)
  | case3 e f es ih =>
      obtain ⟨he, hes⟩ := List.forall_mem_cons.1 hoperands
      intro g hg
      rcases List.mem_append.1 hg with hg | hg
      · exact he g hg
      rcases List.mem_cons.1 hg with rfl | hg
      · exact Or.inl ⟨_, by simp, trivial, rfl⟩
      · exact ih hes g hg

end Expr

/-! ## The tokens of a scan -/

namespace Token

theorem Formed.ne_nil {k : Kind} {read rest : Text} (h : Formed k read rest) : read ≠ [] := by
  cases h with
  | pipe => simp
  | @binding op => cases op <;> simp [Binding.symbol]
  | opening => simp
  | closing => simp
  | escape => simp
  | white hne => exact hne
  | number hne => exact hne
  | name h => exact h.ne_nil

theorem Formed.blanks {read rest : Text} (h : Formed .white read rest) :
    ∀ b ∈ read, isBlank b = true := by
  cases h with
  | white _ hread => exact hread

theorem Formed.digits {read rest : Text} (h : Formed .number read rest) :
    ∀ b ∈ read, isDigit b = true := by
  cases h with
  | number _ hread => exact hread

theorem Spelled.sealed {c : Context} {k : Option Kind} {read rest : Text}
    (h : Spelled c k read rest) (hl : lexeme c (read ++ rest) = some ⟨k, read.length⟩)
    (hs : Expr.Sealed (read ++ rest)) : Expr.Sealed rest := by
  have hnewline := hs.newline_not_mem
  have hend : Text.atLineEnd rest = true → Expr.Sealed rest := by
    intro hend
    cases rest with
    | nil => exact .nil
    | cons b rest =>
        obtain rfl := eq_of_beq hend
        exact absurd (by simp) hnewline
  cases h with
  | continuation h => rcases h with rfl | rfl <;> exact absurd (by simp) hnewline
  | comment _ h => exact hend h
  | rule _ _ h => exact hend h
  | newline => exact absurd (by simp) hnewline
  | inside hk =>
      have hform := (lexeme_formed hl hk).1
      rw [List.take_left' rfl, List.drop_left' rfl] at hform
      exact hform.sealed hs

/-- Every token of a line has the form that its kind asks for. -/
theorem formed_of_mem_scanFrom (c : Context) (p : Nat) (t : Text) :
    ∀ u ∈ scanFrom c p t, u.kind.isInside = true →
      ∃ rest, Formed u.kind u.text rest ∧ (Expr.Sealed t → Expr.Sealed (u.text ++ rest)) := by
  induction c, p, t using scan_induction with
  | nil c p =>
      rw [scanFrom_nil]
      intro u hu hin
      rw [List.mem_singleton.1 hu] at hin
      cases hin
  | step c p k read rest _ hl hsp ih =>
      rw [scanFrom_append hl]
      intro u hu hin
      rcases List.mem_append.1 hu with hu | hu
      · cases k with
        | none => cases hu
        | some k =>
            obtain rfl := List.mem_singleton.1 hu
            have hform := (lexeme_formed hl hin).1
            rw [List.take_left' rfl, List.drop_left' rfl] at hform
            exact ⟨rest, hform, fun hs => hs⟩
      · obtain ⟨rest', hform, hsealed⟩ := ih u hu hin
        exact ⟨rest', hform, fun hs => hsealed (hsp.sealed hl hs)⟩

end Token

namespace Line

/-- What is known of a line that was scanned. -/
structure Scanned (line : Line) : Prop where
  tidy : line.Tidy
  formed : ∀ t ∈ line, t.kind.isInside = true → ∃ rest, Formed t.kind t.text rest

theorem scanned_of_mem_split {text : Text} {line : Line} (h : line ∈ split (tokenize text)) :
    line.Scanned := by
  refine ⟨tidy_of_mem_split h, ?_⟩
  intro t ht hin
  obtain ⟨rest, hform, -⟩ := Token.formed_of_mem_scanFrom _ _ _ t (mem_of_mem_split h ht) hin
  exact ⟨rest, hform⟩

/-! ## Texts and items -/

theorem Segments.isSegment {ts : List Token} {es : List Expr} (h : Segments ts es)
    (htext : ∀ t ∈ ts, t.text ≠ []) : ∀ e ∈ es, Expr.IsSegment (fun _ => True) e := by
  induction h with
  | nil => simp
  | @text t s ts es ht _ ih =>
      obtain ⟨hne, htext⟩ := List.forall_mem_cons.1 htext
      exact List.forall_mem_cons.2
        ⟨Or.inl ⟨s, literal_ne_nil ht hne, trivial, rfl⟩, ih htext⟩
  | @group o c b inner ts es fs _ _ _ _ ihinner ih =>
      have hinner := ihinner fun t ht => htext t (by simp [ht])
      exact List.forall_mem_cons.2
        ⟨Or.inr ⟨b, _, Expr.freeRow_mergeLits hinner, rfl⟩, ih fun t ht => htext t (by simp [ht])⟩

theorem IsText.freeRow {ts : List Token} {e : Expr} (h : IsText ts e)
    (htext : ∀ t ∈ ts, t.text ≠ []) : ∃ es, Expr.FreeRow es ∧ e = .mixAll es := by
  obtain ⟨es, hes, rfl⟩ := h
  obtain ⟨before, after, hcat, -⟩ := trim_cases ts
  refine ⟨_, Expr.freeRow_mergeLits (hes.isSegment ?_), rfl⟩
  intro t ht
  apply htext t
  rw [hcat]
  simp [ht]

theorem IsText.freeRow_ne_nil {t : Token} {ts : List Token} {e : Expr} (h : IsText (t :: ts) e)
    (htext : ∀ u ∈ t :: ts, u.text ≠ []) (hwhite : t.isWhite = false) :
    ∃ es, Expr.FreeRow es ∧ es ≠ [] ∧ e = .mixAll es := by
  obtain ⟨es, hes, rfl⟩ := h
  obtain ⟨before, after, hcat, hbefore, hafter, -⟩ := trim_cases (t :: ts)
  refine ⟨_, Expr.freeRow_mergeLits (hes.isSegment ?_), Expr.mergeLits_ne_nil ?_, rfl⟩
  · intro u hu
    apply htext u
    rw [hcat]
    simp [hu]
  · rintro rfl
    have hnil : trim (t :: ts) = [] := by
      generalize trim (t :: ts) = us at hes
      cases hes
      rfl
    have hmem : t ∈ before ++ after := by
      rw [hnil, List.nil_append] at hcat
      rw [← hcat]
      exact List.mem_cons_self
    rcases List.mem_append.1 hmem with hmem | hmem
    · rw [hbefore t hmem] at hwhite
      cases hwhite
    · rw [hafter t hmem] at hwhite
      cases hwhite

theorem IsItems.freeRow {ts : List Token} {items : List Expr} (h : IsItems ts items)
    (htext : ∀ t ∈ ts, t.text ≠ []) :
    items ≠ [] ∧ ∀ e ∈ items, ∃ es, Expr.FreeRow es ∧ e = .mixAll es := by
  induction h with
  | last h => exact ⟨by simp, by simpa using h.freeRow htext⟩
  | more h _ _ ih =>
      obtain ⟨-, hes⟩ := ih fun t ht => htext t (by simp [ht])
      exact ⟨by simp, List.forall_mem_cons.2 ⟨h.freeRow fun t ht => htext t (by simp [ht]), hes⟩⟩

theorem isText_of_freeText {ts : List Token} {e : Expr} (hin : ∀ t ∈ ts, t.kind.isInside = true)
    (htext : ∀ t ∈ ts, t.text ≠ []) (h : freeText ts = .ok e) : IsText ts e := by
  cases hv : verdict false [] ts with
  | some f =>
      rw [freeText_of_verdict hin hv] at h
      cases h
  | none =>
      obtain ⟨f, hf⟩ := isText_of_verdict hin hv
      rw [freeText_of_isText hf htext] at h
      obtain rfl := Except.ok.inj h
      exact hf

theorem IsPoolName.poolName {head : List Token} {name : Text} (h : IsPoolName head name)
    (hform : ∀ t ∈ head, t.kind.isInside = true → ∃ rest, Formed t.kind t.text rest) :
    PoolName name := by
  have hkind : ∀ t ∈ head, ∀ k, t.kind = k → k.isInside = true → ∃ rest, Formed k t.text rest := by
    rintro t ht k rfl hk
    exact hform t ht hk
  cases h with
  | @name t ht =>
      obtain ⟨rest, h⟩ := hkind t (by simp) _ ht rfl
      exact .name h.nameForm.alone
  | @number t ht =>
      obtain ⟨rest, h⟩ := hkind t (by simp) _ ht rfl
      exact .number h.ne_nil h.digits
  | @both n t ws hn hws ht =>
      obtain ⟨rest, h⟩ := hkind n (by simp) _ hn rfl
      obtain ⟨rest', h'⟩ := hkind t (by simp) _ ht rfl
      refine .both h.ne_nil h.digits ?_ h'.nameForm.alone
      intro b hb
      obtain ⟨w, hw, hb⟩ := List.mem_flatMap.1 hb
      obtain ⟨rest'', h''⟩ := hkind w (by simp [hw]) _ (hws w hw) rfl
      exact h''.blanks b hb

/-! ## Lines with a shape -/

theorem shape_title_name {line : Line} {below : List Line} {t : Token} {name : Text}
    {junk : Line} {body : List Line} (h : shape line below = .title t name junk body) :
    ∃ rest, poolName line.content = some (name, rest) := by
  unfold shape at h
  split at h
  case h_1 => cases h
  case h_2 t ts hcontent =>
    rw [hcontent]
    split at h
    case h_1 => cases h
    case h_2 => cases h
    case h_3 =>
      unfold shapeOfText at h
      split at h
      case h_1 => cases h
      case h_2 name' rest hname =>
        split at h
        case h_1 =>
          split at h
          case isTrue =>
            cases h
            exact ⟨rest, hname⟩
          case isFalse => cases h
        case h_2 => cases h

/-- The tokens of a line of text are texts, brackets and operators, and none is empty. -/
theorem Scanned.content {line content : Line} {below : List Line} (h : line.Scanned)
    (hshape : shape line below = .text content) :
    (∀ t ∈ line, t.kind.isInside = true) ∧ (∀ t ∈ line, t.text ≠ []) ∧
      (∀ t ∈ content, t ∈ line) ∧ ∃ t ts, content = t :: ts ∧ t.isWhite = false := by
  have hin := h.tidy.inside hshape
  obtain ⟨rfl, t, ts, hcontent, -, -⟩ := shape_text_content hshape
  refine ⟨hin, ?_, fun u hu => mem_of_mem_content hu, t, ts, hcontent, ?_⟩
  · intro u hu
    obtain ⟨rest, hform⟩ := h.formed u hu (hin u hu)
    exact hform.ne_nil
  · have hfirst := List.head?_dropWhile_not Token.isWhite line
    rw [← Line.content, hcontent] at hfirst
    simpa using hfirst

end Line

/-! ## Statements -/

/-- What an expression that was read from a document looks like. -/
inductive Expr.Stated : Expr → Prop where
  | text {es : List Expr} (h : FreeRow es) (hne : es ≠ []) : Stated (.mixAll es)
  | binding {op : Binding} {name : Text} {items : List Expr} (hname : PoolName name)
      (hne : items ≠ []) (hitems : ∀ e ∈ items, ∃ es, FreeRow es ∧ e = .mixAll es) :
      Stated (.bind op name items)

namespace Statement

open Line (Scanned)

theorem stated_of_expr {line content : Line} {below : List Line} {e : Expr} (h : line.Scanned)
    (hshape : Line.shape line below = .text content) (he : Line.expr content = .ok e) :
    e.Stated := by
  obtain ⟨hin, htext, hmem, t, ts, rfl, hwhite⟩ := h.content hshape
  replace htext := fun u hu => htext u (hmem u hu)
  cases (Line.reads_iff (fun u hu => hin u (hmem u hu)) htext _).2 he with
  | @binding name op rest items hbinds hitems =>
      obtain ⟨hne, hrows⟩ := hitems.freeRow fun u hu => htext u (hbinds.mem hu)
      obtain ⟨head, u, hline, hhead, -⟩ := hbinds
      refine .binding (hhead.poolName ?_) hne hrows
      intro v hv
      apply h.formed v
      apply hmem v
      rw [hline]
      simp [hv]
  | text _ h =>
      obtain ⟨es, hes, hne, rfl⟩ := h.freeRow_ne_nil htext hwhite
      exact .text hes hne

theorem blocks_freeRow {title : Token} {name : Text} {done lines items : List Expr}
    {body rest : List Line} (h : blocks title name done lines body = .ok (items, rest))
    (hbody : ∀ line ∈ body, Scanned line)
    (hdone : ∀ e ∈ done, ∃ es, Expr.FreeRow es ∧ e = .mixAll es)
    (hlines : ∀ e ∈ lines, ∃ es, Expr.FreeRow es ∧ es ≠ [] ∧ e = .mixAll es) :
    ∀ e ∈ items, ∃ es, Expr.FreeRow es ∧ e = .mixAll es := by
  induction body generalizing done lines with
  | nil => cases h
  | cons line below ih =>
      obtain ⟨hline, hbelow⟩ := List.forall_mem_cons.1 hbody
      unfold blocks at h
      cases hs : Line.shape line below with
      | blank =>
          simp only [hs] at h
          exact ih h hbelow hdone hlines
      | rule junk =>
          simp only [hs] at h
          have hmore : ∀ e ∈ done ++ [.joinLines lines], ∃ es, Expr.FreeRow es ∧ e = .mixAll es :=
            List.forall_mem_append.2
              ⟨hdone, List.forall_mem_singleton.2 (Expr.joinLines_freeRow hlines)⟩
          cases hjunk : Line.nothing junk with
          | error e => simp [hjunk] at h
          | ok _ =>
              simp only [hjunk] at h
              split at h
              · exact ih h hbelow hmore (by simp)
              · obtain ⟨rfl, -⟩ := Prod.mk.inj (Except.ok.inj h)
                exact hmore
      | doubleRule t => simp [hs] at h
      | title t name junk body => simp [hs] at h
      | text content =>
          simp only [hs] at h
          cases hfree : Line.freeText content with
          | error e => simp [hfree] at h
          | ok e =>
              simp only [hfree] at h
              obtain ⟨hin, htext, hmem, t, ts, rfl, hwhite⟩ := hline.content hs
              replace htext := fun u hu => htext u (hmem u hu)
              have hrow := (Line.isText_of_freeText (fun u hu => hin u (hmem u hu)) htext
                hfree).freeRow_ne_nil htext hwhite
              exact ih h hbelow hdone (List.forall_mem_append.2 ⟨hlines, by simpa using hrow⟩)

theorem next_stated {line : Line} {below : List Line} (h : ∀ l ∈ line :: below, Scanned l)
    {e : Expr} (he : (next line below).1 = some (.ok e)) : e.Stated := by
  obtain ⟨hline, hbelow⟩ := List.forall_mem_cons.1 h
  unfold next at he
  cases hs : Line.shape line below with
  | blank => simp [hs] at he
  | rule junk => simp [hs] at he
  | doubleRule t => simp [hs] at he
  | text content =>
      simp only [hs] at he
      exact stated_of_expr hline hs (Option.some.inj he)
  | title t name junk body =>
      obtain ⟨u, hcat, -⟩ := Line.shape_title_below hs
      obtain ⟨rest, hname⟩ := Line.shape_title_name hs
      obtain ⟨head, hcontent, hhead⟩ := Line.isPoolName_of_poolName hname
      have hpool : PoolName name := by
        apply hhead.poolName
        intro v hv
        apply hline.formed v
        apply Line.mem_of_mem_content
        rw [hcontent]
        exact List.mem_append_left _ hv
      simp only [hs, definition] at he
      cases hjunk : Line.nothing junk with
      | error f => simp [hjunk] at he
      | ok _ =>
          cases hblocks : blocks t name [] [] body with
          | error f => simp [hjunk, hblocks] at he
          | ok r =>
              obtain ⟨items, rest⟩ := r
              simp only [hjunk, hblocks] at he
              obtain rfl := Except.ok.inj (Option.some.inj he)
              obtain ⟨-, hlength⟩ := blocks_extent hblocks
              have hscanned : ∀ l ∈ body, Scanned l := by
                intro l hl
                apply hbelow l
                rw [hcat]
                exact List.mem_cons_of_mem _ hl
              refine .binding hpool ?_ (blocks_freeRow hblocks hscanned (by simp) (by simp))
              rintro rfl
              simp at hlength

theorem stated_of_mem_ofLines {lines : List Line} (h : ∀ l ∈ lines, Scanned l) {e : Expr}
    (he : .ok e ∈ ofLines lines) : e.Stated := by
  obtain ⟨line, below, hsuffix, hnext⟩ := mem_ofLines he
  exact next_stated (fun l hl => h l (hsuffix.subset hl)) hnext

end Statement

theorem Document.stated_of_mem [Locator] {file text : Text} {d : Document}
    (hd : parse file text = .ok d) {e : Expr} (he : .ok e ∈ d) : e.Stated := by
  have hmem : .ok e ∈ Statement.ofTokens (tokenize text) := by
    rw [← statements_of_locateAll hd]
    exact List.mem_map.2 ⟨_, he, rfl⟩
  exact Statement.stated_of_mem_ofLines (fun _ => Line.scanned_of_mem_split) hmem

end PoolProse
