import Mathlib.Data.List.Forall2
import PoolProse.Proofs.Extent
import PoolProse.Proofs.Lookahead

/-!
# Lines that say the same

A line is read by the kinds of its tokens and by the texts that they stand for. White space at its
end says nothing, and neither do the blanks that an operator or a rule was written with. Two
documents whose lines agree in this sense have the same statements, up to the places of errors.
-/
namespace PoolProse

/-- Tokens of the same kind that stand for the same text, if they stand for text at all. -/
structure Token.Like (t u : Token) : Prop where
  kind : t.kind = u.kind
  literal : t.literal? = u.literal?

theorem Token.Like.refl (t : Token) : t.Like t := ⟨rfl, rfl⟩

theorem Token.Like.symm {t u : Token} (h : t.Like u) : u.Like t := ⟨h.kind.symm, h.literal.symm⟩

theorem Token.Like.isWhite_eq {t u : Token} (h : t.Like u) : t.isWhite = u.isWhite := by
  rw [isWhite, isWhite, h.kind]

theorem Token.Like.text_eq {t u : Token} (h : t.Like u)
    (hk : t.kind = .white ∨ t.kind = .name ∨ t.kind = .number) : t.text = u.text := by
  obtain ⟨hkind, htext⟩ := h
  unfold literal? at htext
  rw [← hkind] at htext
  rcases hk with hk | hk | hk <;> simpa [hk] using htext

namespace Line

open Token (Like)

/-! ## White space at the end of a line -/

theorem scan_append_white {pad : List Token} (hpad : ∀ t ∈ pad, t.isWhite = true) (items : Bool)
    (done : List Expr) (level : Level) (enclosing : List Enclosing) (ts : List Token) :
    scan items done level enclosing (ts ++ pad) = scan items done level enclosing ts := by
  induction ts generalizing done level enclosing with
  | nil =>
      rw [List.nil_append]
      induction pad generalizing level with
      | nil => rfl
      | cons w pad ih =>
          obtain ⟨hw, hpad⟩ := List.forall_mem_cons.1 hpad
          have hkind : w.kind = .white := eq_of_beq hw
          have hread : scan items done level enclosing (w :: pad) =
              scan items done (level.blank enclosing.isEmpty w.text) enclosing pad := by
            simp only [scan, hkind]
          rw [hread, ih hpad]
          cases enclosing with
          | nil =>
              have hfinish : (level.blank true w.text).finish = level.finish :=
                Level.finish_congr rfl rfl
              exact congrArg (fun e => Except.ok (done, e)) hfinish
          | cons e es => rfl
  | cons t ts ih =>
      simp only [List.cons_append, scan, ih]

theorem freeText_append_white {pad : List Token} (hpad : ∀ t ∈ pad, t.isWhite = true)
    (ts : List Token) : freeText (ts ++ pad) = freeText ts := by
  rw [freeText, scan_append_white hpad, freeText]

theorem itemList_append_white {pad : List Token} (hpad : ∀ t ∈ pad, t.isWhite = true)
    (ts : List Token) : itemList (ts ++ pad) = itemList ts := by
  rw [itemList, scan_append_white hpad, itemList]

theorem poolName_append_white {pad : List Token} (hpad : ∀ t ∈ pad, t.isWhite = true)
    (ts : List Token) :
    poolName (ts ++ pad) = (poolName ts).map (Prod.map id (· ++ pad)) := by
  cases ts with
  | nil =>
      cases pad with
      | nil => rfl
      | cons w pad =>
          have hkind : w.kind = .white := eq_of_beq (hpad w List.mem_cons_self)
          simp [poolName, hkind]
  | cons t ts =>
      simp only [List.cons_append, poolName]
      cases t.kind with
      | number =>
          rw [List.dropWhile_append]
          cases hrest : ts.dropWhile Token.isWhite with
          | nil =>
              rw [List.isEmpty_nil, if_pos rfl, List.dropWhile_eq_nil_iff.2 hpad]
              rfl
          | cons u us =>
              have htake : (ts ++ pad).takeWhile Token.isWhite = ts.takeWhile Token.isWhite := by
                rw [List.takeWhile_append, if_neg]
                intro hlength
                have hcat := List.takeWhile_append_dropWhile (p := Token.isWhite) (l := ts)
                have hsum := congrArg List.length hcat
                rw [hrest, List.length_append, List.length_cons] at hsum
                omega
              simp only [List.isEmpty_cons, Bool.false_eq_true, if_false, List.cons_append, htake]
              split <;> rfl
      | _ => rfl

theorem expr_append_white {pad : List Token} (hpad : ∀ t ∈ pad, t.isWhite = true)
    (line : Line) : expr (line ++ pad) = expr line := by
  simp only [expr, poolName_append_white hpad, freeText_append_white hpad]
  cases poolName line with
  | none => rfl
  | some p =>
      obtain ⟨name, rest⟩ := p
      cases rest with
      | nil =>
          cases pad with
          | nil => rfl
          | cons w pad =>
              have hkind : w.kind = .white := eq_of_beq (hpad w List.mem_cons_self)
              simp [hkind]
      | cons t ts =>
          simp only [Option.map_some, Prod.map, id, List.cons_append, itemList_append_white hpad]

/-! ## Tokens that are alike -/

/-- Groups of the same bracket after the same text. -/
def Enclosing.Like (e f : Enclosing) : Prop := e.bracket = f.bracket ∧ e.outer = f.outer

theorem scan_like {ts us : List Token} (h : List.Forall₂ Like ts us) (items : Bool)
    (done : List Expr) (level : Level) {enclosing enclosing' : List Enclosing}
    (henclosing : List.Forall₂ Enclosing.Like enclosing enclosing') :
    (scan items done level enclosing ts).mapError SyntaxError.code =
      (scan items done level enclosing' us).mapError SyntaxError.code := by
  induction h generalizing done level enclosing enclosing' with
  | nil =>
      cases henclosing with
      | nil => rfl
      | cons => rfl
  | @cons t u ts us htu _ ih =>
      have hempty : enclosing.isEmpty = enclosing'.isEmpty := by
        cases henclosing <;> rfl
      have hkind := htu.kind
      simp only [scan, ← hkind, ← hempty]
      cases hk : t.kind with
      | white =>
          rw [htu.text_eq (Or.inl hk)]
          exact ih _ _ henclosing
      | name =>
          rw [htu.text_eq (Or.inr (Or.inl hk))]
          exact ih _ _ henclosing
      | number =>
          rw [htu.text_eq (Or.inr (Or.inr hk))]
          exact ih _ _ henclosing
      | escape =>
          have hescape : Token.decodeEscape t.text = Token.decodeEscape u.text := by
            have htext := htu.literal
            simpa [Token.literal?, ← hkind, hk] using htext
          simp only [hescape]
          exact ih _ _ henclosing
      | opening b => exact ih _ _ (.cons ⟨rfl, rfl⟩ henclosing)
      | closing b =>
          cases henclosing with
          | nil => rfl
          | cons hsame hrest =>
              simp only [hsame.1, hsame.2]
              split
              · exact ih _ _ hrest
              · rfl
      | pipe =>
          simp only
          split
          · exact ih _ _ .nil
          · rfl
      | binding op => rfl
      | _ => cases henclosing <;> rfl

theorem mapError_map {α β : Type} (f : α → β) (r : Except SyntaxError α) :
    (r.map f).mapError SyntaxError.code = (r.mapError SyntaxError.code).map f := by
  cases r <;> rfl

theorem freeText_like {ts us : List Token} (h : List.Forall₂ Like ts us) :
    (freeText ts).mapError SyntaxError.code = (freeText us).mapError SyntaxError.code := by
  rw [freeText, freeText, mapError_map, mapError_map, scan_like h false [] {} .nil]

theorem itemList_like {ts us : List Token} (h : List.Forall₂ Like ts us) :
    (itemList ts).mapError SyntaxError.code = (itemList us).mapError SyntaxError.code := by
  rw [itemList, itemList, mapError_map, mapError_map, scan_like h true [] {} .nil]

theorem dropWhile_like {ts us : List Token} (h : List.Forall₂ Like ts us) :
    List.Forall₂ Like (ts.dropWhile Token.isWhite) (us.dropWhile Token.isWhite) ∧
      (ts.takeWhile Token.isWhite).flatMap Token.text =
        (us.takeWhile Token.isWhite).flatMap Token.text := by
  induction h with
  | nil => exact ⟨.nil, rfl⟩
  | @cons t u ts us htu h ih =>
      have hwhite := htu.isWhite_eq
      cases ht : t.isWhite with
      | false =>
          rw [ht] at hwhite
          simp only [List.dropWhile_cons, List.takeWhile_cons, ht, ← hwhite]
          exact ⟨.cons htu h, rfl⟩
      | true =>
          rw [ht] at hwhite
          simp only [List.dropWhile_cons, List.takeWhile_cons, ht, ← hwhite, if_true,
            List.flatMap_cons, htu.text_eq (Or.inl (eq_of_beq ht)), ih.2]
          exact ⟨ih.1, trivial⟩

theorem white_like {ts us : List Token} (h : List.Forall₂ Like ts us)
    (hts : ∀ t ∈ ts, t.isWhite = true) : ∀ u ∈ us, u.isWhite = true := by
  induction h with
  | nil => simp
  | cons htu _ ih =>
      obtain ⟨ht, hts⟩ := List.forall_mem_cons.1 hts
      exact List.forall_mem_cons.2 ⟨by rw [← htu.isWhite_eq, ht], ih hts⟩

theorem poolName_like {ts us : List Token} (h : List.Forall₂ Like ts us) :
    (poolName ts = none ∧ poolName us = none) ∨
      ∃ name rest rest', poolName ts = some (name, rest) ∧ poolName us = some (name, rest') ∧
        List.Forall₂ Like rest rest' := by
  cases h with
  | nil => exact Or.inl ⟨rfl, rfl⟩
  | @cons t u ts us htu h =>
      simp only [poolName, ← htu.kind]
      cases hk : t.kind with
      | name => exact Or.inr ⟨_, _, _, rfl, by rw [htu.text_eq (Or.inr (Or.inl hk))], h⟩
      | number =>
          right
          obtain ⟨hdrop, htake⟩ := dropWhile_like h
          have htext := htu.text_eq (Or.inr (Or.inr hk))
          generalize ts.dropWhile Token.isWhite = ts₁ at hdrop
          generalize us.dropWhile Token.isWhite = us₁ at hdrop
          cases hdrop with
          | nil => exact ⟨_, _, _, rfl, by rw [htext], h⟩
          | @cons v w vs ws hvw hrest =>
              simp only [← hvw.kind]
              split
              case isTrue hv =>
                have hvtext := hvw.text_eq (Or.inr (Or.inl (eq_of_beq hv)))
                exact ⟨_, _, _, rfl, by rw [htext, htake, hvtext], hrest⟩
              case isFalse => exact ⟨_, _, _, rfl, by rw [htext], h⟩
      | _ => exact Or.inl ⟨rfl, rfl⟩

theorem expr_like {line line' : Line} (h : List.Forall₂ Like line line') :
    (expr line).mapError SyntaxError.code = (expr line').mapError SyntaxError.code := by
  have hfree := freeText_like h
  rcases poolName_like h with ⟨hnone, hnone'⟩ | ⟨name, rest, rest', hname, hname', hrest⟩
  · simp only [expr, hnone, hnone', hfree]
  · simp only [expr, hname, hname']
    cases hrest with
    | nil => exact hfree
    | @cons t u ts us htu hrest =>
        simp only [← htu.kind]
        cases t.kind with
        | binding op => simp only [mapError_map, itemList_like hrest]
        | _ => exact hfree

/-! ## Lines and their shapes -/

/-- Alike tokens and any white space after them. -/
def Padded (line line' : Line) : Prop :=
  ∃ body body' pad pad', line = body ++ pad ∧ line' = body' ++ pad' ∧
    List.Forall₂ Like body body' ∧ (∀ t ∈ pad, t.isWhite = true) ∧ ∀ t ∈ pad', t.isWhite = true

/-- Two lines of documents that say the same. -/
structure Same (line line' : Line) : Prop where
  tidy : line.Tidy
  tidy' : line'.Tidy
  padded : Padded line line'

theorem Same.symm {line line' : Line} (h : Same line line') : Same line' line := by
  obtain ⟨htidy, htidy', body, body', pad, pad', hline, hline', hbody, hpad, hpad'⟩ := h
  exact ⟨htidy', htidy, body', body, pad', pad, hline', hline,
    hbody.flip.imp fun _ _ h => h.symm, hpad', hpad⟩

theorem Same.outcome_expr {line line' : Line} (h : Same line line') :
    Statement.outcome (expr line) = Statement.outcome (expr line') := by
  obtain ⟨-, -, body, body', pad, pad', rfl, rfl, hbody, hpad, hpad'⟩ := h
  rw [expr_append_white hpad, expr_append_white hpad']
  exact expr_like hbody

theorem Same.outcome_freeText {line line' : Line} (h : Same line line') :
    Statement.outcome (freeText line) = Statement.outcome (freeText line') := by
  obtain ⟨-, -, body, body', pad, pad', rfl, rfl, hbody, hpad, hpad'⟩ := h
  rw [freeText_append_white hpad, freeText_append_white hpad']
  exact freeText_like hbody

theorem content_append_white {body pad : Line} (hpad : ∀ t ∈ pad, t.isWhite = true) :
    (body ++ pad).content = if body.content = [] then [] else body.content ++ pad := by
  unfold content
  rw [List.dropWhile_append, List.dropWhile_eq_nil_iff.2 hpad]
  simp only [List.isEmpty_iff]

theorem Same.content {line line' : Line} (h : Same line line') :
    (line.content = [] ∧ line'.content = []) ∨
      ∃ t u ts us, line.content = t :: ts ∧ line'.content = u :: us ∧ t.Like u ∧
        Same (t :: ts) (u :: us) := by
  have htidy : line.content.Tidy := h.tidy.suffix (List.dropWhile_suffix _)
  have htidy' : line'.content.Tidy := h.tidy'.suffix (List.dropWhile_suffix _)
  obtain ⟨-, -, body, body', pad, pad', rfl, rfl, hbody, hpad, hpad'⟩ := h
  have hdrop : List.Forall₂ Like body.content body'.content := (dropWhile_like hbody).1
  rw [content_append_white hpad] at htidy ⊢
  rw [content_append_white hpad'] at htidy' ⊢
  generalize body.content = content at hdrop htidy
  generalize body'.content = content' at hdrop htidy'
  cases hdrop with
  | nil => exact Or.inl ⟨rfl, rfl⟩
  | @cons t u ts us htu hrest =>
      right
      exact ⟨t, u, ts ++ pad, us ++ pad', rfl, rfl, htu, htidy, htidy', t :: ts, u :: us, pad, pad',
        rfl, rfl, .cons htu hrest, hpad, hpad'⟩

theorem Same.rule {line' : Line} {t : Token} {junk : Line} (h : Same (t :: junk) line')
    (hk : t.kind = .rule ∨ t.kind = .doubleRule) :
    junk = [] ∧ ∃ u, line' = [u] ∧ u.kind = t.kind := by
  obtain ⟨htidy, htidy', body, body', pad, pad', hline, rfl, hbody, hpad, hpad'⟩ := h
  refine ⟨htidy.eq_nil hk, ?_⟩
  cases hbody with
  | nil =>
      rw [List.nil_append] at hline
      have hwhite : t.kind = .white := eq_of_beq (hpad t (hline ▸ List.mem_cons_self))
      simp [hwhite] at hk
  | @cons v u vs us htu hrest =>
      obtain ⟨rfl, hjunk⟩ := List.cons.inj hline
      obtain ⟨rfl, -⟩ := List.append_eq_nil_iff.1 (hjunk.symm.trans (htidy.eq_nil hk))
      cases hrest
      rw [htu.kind] at hk
      obtain rfl := htidy'.eq_nil hk
      exact ⟨u, rfl, htu.kind.symm⟩

/-- Shapes that differ only in the places and the spelling of tokens. -/
inductive SameShape : Shape → Shape → Prop where
  | blank : SameShape .blank .blank
  | rule : SameShape (.rule []) (.rule [])
  | doubleRule {t u : Token} : SameShape (.doubleRule t) (.doubleRule u)
  | title {t u : Token} {name : Text} {body body' : List Line}
      (h : List.Forall₂ Same body body') :
      SameShape (.title t name [] body) (.title u name [] body')
  | text {content content' : Line} (h : Same content content') :
      SameShape (.text content) (.text content')

theorem shapeOfText_cases (t : Token) (ts : Line) (below : List Line) :
    (∃ name rest u junk body, poolName (t :: ts) = some (name, rest) ∧
        (∀ w ∈ rest, w.isWhite = true) ∧ below = (u :: junk) :: body ∧ u.kind = .doubleRule ∧
        shapeOfText t ts below = .title t name junk body) ∨
      (∀ name rest u junk body, poolName (t :: ts) = some (name, rest) →
        (∀ w ∈ rest, w.isWhite = true) → below = (u :: junk) :: body → u.kind ≠ .doubleRule) ∧
        shapeOfText t ts below = .text (t :: ts) := by
  unfold shapeOfText
  cases hname : poolName (t :: ts) with
  | none => exact Or.inr ⟨nofun, rfl⟩
  | some p =>
      obtain ⟨name, rest⟩ := p
      match below with
      | [] => exact Or.inr ⟨nofun, rfl⟩
      | [] :: body => exact Or.inr ⟨nofun, rfl⟩
      | (u :: junk) :: body =>
          simp only
          split
          case isTrue hc =>
            obtain ⟨hrest, hu⟩ := Bool.and_eq_true_iff.1 hc
            exact Or.inl ⟨name, rest, u, junk, body, rfl, List.all_eq_true.1 hrest, rfl,
              eq_of_beq hu, rfl⟩
          case isFalse hc =>
            refine Or.inr ⟨?_, rfl⟩
            rintro name' rest' u' junk' body' hsome hrest hbelow hu
            cases hsome
            cases hbelow
            exact hc (Bool.and_eq_true_iff.2 ⟨List.all_eq_true.2 hrest, beq_iff_eq.2 hu⟩)

theorem Same.poolName {line line' : Line} (h : Same line line') {name : Text} {rest : Line}
    (hname : Line.poolName line = some (name, rest)) (hrest : ∀ w ∈ rest, w.isWhite = true) :
    ∃ rest', Line.poolName line' = some (name, rest') ∧ ∀ w ∈ rest', w.isWhite = true := by
  obtain ⟨-, -, body, body', pad, pad', rfl, rfl, hbody, hpad, hpad'⟩ := h
  rw [poolName_append_white hpad] at hname
  rw [poolName_append_white hpad']
  rcases poolName_like hbody with ⟨hnone, -⟩ | ⟨name', ts, us, hts, hus, hlike⟩
  · rw [hnone] at hname
    cases hname
  · rw [hts] at hname
    obtain ⟨rfl, rfl⟩ := Prod.mk.inj (Option.some.inj hname)
    refine ⟨us ++ pad', by rw [hus]; rfl, ?_⟩
    have hts' : ∀ w ∈ ts, w.isWhite = true := fun w hw => hrest w (List.mem_append_left _ hw)
    intro w hw
    exact (List.mem_append.1 hw).elim (white_like hlike hts' w) (hpad' w)

theorem Same.shapeOfText {t u : Token} {ts us : Line} {below below' : List Line}
    (h : Same (t :: ts) (u :: us)) (hbelow : List.Forall₂ Same below below') :
    SameShape (Line.shapeOfText t ts below) (Line.shapeOfText u us below') := by
  -- A title in one of the documents is one in the other.
  have hdouble : ∀ {below below' : List Line} {v : Token} {junk : Line} {body : List Line},
      List.Forall₂ Same below below' → below = (v :: junk) :: body → v.kind = .doubleRule →
      junk = [] ∧ ∃ w body', below' = [w] :: body' ∧ w.kind = .doubleRule ∧
        List.Forall₂ Same body body' := by
    rintro below below' v junk body hsame rfl hv
    cases hsame with
    | cons hline hrest =>
        obtain ⟨rfl, w, rfl, hw⟩ := hline.rule (Or.inr hv)
        exact ⟨rfl, w, _, rfl, hw.trans hv, hrest⟩
  have hsymm : List.Forall₂ Same below' below := hbelow.flip.imp fun _ _ h => h.symm
  rcases shapeOfText_cases t ts below with
    ⟨name, rest, v, junk, body, hname, hrest, hcons, hv, htitle⟩ | ⟨hnot, htext⟩
  · obtain ⟨rfl, w, body', hcons', hw, hbody⟩ := hdouble hbelow hcons hv
    obtain ⟨rest', hname', hrest'⟩ := h.poolName hname hrest
    rcases shapeOfText_cases u us below' with
      ⟨name₂, rest₂, v₂, junk₂, body₂, hname₂, -, hcons₂, -, htitle₂⟩ | ⟨hnot, -⟩
    · rw [htitle, htitle₂]
      rw [hname'] at hname₂
      rw [hcons'] at hcons₂
      cases hname₂
      cases hcons₂
      exact .title hbody
    · exact absurd hw (hnot _ _ _ _ _ hname' hrest' hcons')
  · rcases shapeOfText_cases u us below' with
      ⟨name, rest, v, junk, body, hname, hrest, hcons, hv, -⟩ | ⟨-, htext'⟩
    · obtain ⟨-, w, body', hcons', hw, -⟩ := hdouble hsymm hcons hv
      obtain ⟨rest', hname', hrest'⟩ := h.symm.poolName hname hrest
      exact absurd hw (hnot _ _ _ _ _ hname' hrest' hcons')
    · rw [htext, htext']
      exact .text h

theorem Same.shape {line line' : Line} {below below' : List Line} (h : Same line line')
    (hbelow : List.Forall₂ Same below below') :
    SameShape (Line.shape line below) (Line.shape line' below') := by
  unfold Line.shape
  rcases h.content with ⟨hnil, hnil'⟩ | ⟨t, u, ts, us, hcons, hcons', htu, hsame⟩
  · rw [hnil, hnil']
    exact .blank
  · rw [hcons, hcons']
    simp only [← htu.kind]
    cases hk : t.kind with
    | rule =>
        obtain ⟨rfl, v, hv, -⟩ := hsame.rule (Or.inl hk)
        obtain ⟨-, rfl⟩ := List.cons.inj hv
        exact .rule
    | doubleRule => exact .doubleRule
    | _ => exact hsame.shapeOfText hbelow

/-! ## Statements -/

end Line

namespace Statement

open Line (Same SameShape shape)

variable {lines lines' : List Line}

theorem closes_same (h : List.Forall₂ Same lines lines') : closes lines = closes lines' := by
  induction h with
  | nil => rfl
  | @cons line line' below below' hline hbelow ih =>
      have hshape := hline.shape hbelow
      unfold closes
      generalize shape line below = sh at hshape
      generalize shape line' below' = sh' at hshape
      cases hshape with
      | blank => exact ih
      | text => exact ih
      | _ => rfl

theorem blockAhead_same (h : List.Forall₂ Same lines lines') :
    blockAhead lines = blockAhead lines' := by
  cases h with
  | nil => rfl
  | @cons line line' below below' hline hbelow =>
      have hcloses := closes_same (.cons hline hbelow)
      have hshape := hline.shape hbelow
      simp only [blockAhead]
      generalize shape line below = sh at hshape
      generalize shape line' below' = sh' at hshape
      cases hshape with
      | blank => rfl
      | _ => exact hcloses

theorem afterBlocks_same (h : List.Forall₂ Same lines lines') :
    List.Forall₂ Same (afterBlocks lines) (afterBlocks lines') := by
  induction h with
  | nil => exact .nil
  | @cons line line' below below' hline hbelow ih =>
      have hahead := blockAhead_same hbelow
      have hshape := hline.shape hbelow
      unfold afterBlocks
      generalize shape line below = sh at hshape
      generalize shape line' below' = sh' at hshape
      cases hshape with
      | blank => exact ih
      | text => exact ih
      | rule =>
          simp only [hahead]
          split
          · exact ih
          · exact hbelow
      | _ => exact .cons hline hbelow

/-- Blocks that were read with the same items, or refused with the same code. -/
inductive SameBlocks : Except SyntaxError (List Expr × List Line) →
    Except SyntaxError (List Expr × List Line) → Prop where
  | read {items : List Expr} {rest rest' : List Line} (h : List.Forall₂ Same rest rest') :
      SameBlocks (.ok (items, rest)) (.ok (items, rest'))
  | refused {e e' : SyntaxError} (h : e.code = e'.code) : SameBlocks (.error e) (.error e')

theorem blocks_same (h : List.Forall₂ Same lines lines') (title title' : Token) (name : Text)
    (done read : List Expr) :
    SameBlocks (blocks title name done read lines) (blocks title' name done read lines') := by
  induction h generalizing done read with
  | nil => exact .refused rfl
  | @cons line line' below below' hline hbelow ih =>
      have hahead := blockAhead_same hbelow
      have hshape := hline.shape hbelow
      unfold blocks
      generalize shape line below = sh at hshape
      generalize shape line' below' = sh' at hshape
      cases hshape with
      | blank => exact ih done read
      | rule =>
          simp only [Line.nothing, hahead]
          split
          · exact ih _ _
          · exact .read hbelow
      | @text content content' hcontent =>
          have hfree := hcontent.outcome_freeText
          simp only
          cases he : Line.freeText content with
          | error e =>
              cases he' : Line.freeText content' with
              | error e' =>
                  rw [he, he'] at hfree
                  exact .refused (Except.error.inj hfree)
              | ok _ =>
                  rw [he, he'] at hfree
                  cases hfree
          | ok e =>
              cases he' : Line.freeText content' with
              | error e' =>
                  rw [he, he'] at hfree
                  cases hfree
              | ok e' =>
                  rw [he, he'] at hfree
                  obtain rfl := Except.ok.inj hfree
                  exact ih _ _
      | _ => exact .refused rfl

theorem next_same {line line' : Line} (hline : Same line line')
    (h : List.Forall₂ Same lines lines') :
    (next line lines).1.map outcome = (next line' lines').1.map outcome ∧
      List.Forall₂ Same (next line lines).2 (next line' lines').2 := by
  have hshape := hline.shape h
  unfold next
  generalize shape line lines = sh at hshape
  generalize shape line' lines' = sh' at hshape
  cases hshape with
  | blank => exact ⟨rfl, h⟩
  | rule => exact ⟨rfl, h⟩
  | doubleRule => exact ⟨rfl, h⟩
  | text hcontent => exact ⟨congrArg some hcontent.outcome_expr, h⟩
  | @title t u name body body' hbody =>
      have hblocks := blocks_same hbody t u name [] []
      simp only [definition, Line.nothing]
      generalize blocks t name [] [] body = r at hblocks
      generalize blocks u name [] [] body' = r' at hblocks
      cases hblocks with
      | read hrest => exact ⟨rfl, hrest⟩
      | refused hcode =>
          exact ⟨congrArg (fun c => some (Except.error c)) hcode, afterBlocks_same hbody⟩

/-- Lines that say the same make the same statements. -/
theorem outcome_same (h : List.Forall₂ Same lines lines') :
    (ofLines lines).map outcome = (ofLines lines').map outcome := by
  induction hn : lines.length using Nat.strongRecOn generalizing lines lines' with
  | ind n ih =>
      cases h with
      | nil => rfl
      | @cons line line' below below' hline hbelow =>
          obtain ⟨hfirst, hrest⟩ := next_same hline hbelow
          have hlength := next_length line below
          rw [List.length_cons] at hn
          rw [ofLines, ofLines, List.map_append, List.map_append, ← Option.toList_map,
            ← Option.toList_map, hfirst, ih _ (by omega) hrest rfl]

end Statement

/-! ## Documents -/

/-- Where a text stands has no part in its tokens. -/
theorem Token.like_scanFrom (c : Context) (p q : Nat) (t : Text) :
    List.Forall₂ Like (scanFrom c p t) (scanFrom c q t) := by
  rw [← Nat.zero_add p, ← Nat.zero_add q, scanFrom_shift, scanFrom_shift, List.forall₂_map_left_iff,
    List.forall₂_map_right_iff]
  exact List.forall₂_same.2 fun t _ => ⟨rfl, rfl⟩

namespace Line

open Token (Like)

theorem Padded.cons {t u : Token} {line line' : Line} (htu : t.Like u) (h : Padded line line') :
    Padded (t :: line) (u :: line') := by
  obtain ⟨body, body', pad, pad', rfl, rfl, hbody, hpad, hpad'⟩ := h
  exact ⟨t :: body, u :: body', pad, pad', rfl, rfl, .cons htu hbody, hpad, hpad'⟩

theorem split_cons_padded {t u : Token} {ts us : List Token} (htu : t.Like u)
    (h : List.Forall₂ Padded (split ts) (split us)) :
    List.Forall₂ Padded (split (t :: ts)) (split (u :: us)) := by
  have hnil : Padded [] [] := ⟨[], [], [], [], rfl, rfl, .nil, by simp, by simp⟩
  by_cases heof : t.kind = .eof
  · have hfirst : split (t :: ts) = [[]] := by simp only [split, heof]
    have hsecond : split (u :: us) = [[]] := by simp only [split, ← htu.kind, heof]
    rw [hfirst, hsecond]
    exact .cons hnil .nil
  by_cases hnewline : t.kind = .newline
  · rw [split_cons_newline hnewline, split_cons_newline (htu.kind ▸ hnewline)]
    exact .cons hnil h
  obtain ⟨line, below, hsplit⟩ := List.exists_cons_of_ne_nil (split_ne_nil ts)
  obtain ⟨line', below', hsplit'⟩ := List.exists_cons_of_ne_nil (split_ne_nil us)
  rw [split_cons_inside heof hnewline hsplit,
    split_cons_inside (htu.kind ▸ heof) (htu.kind ▸ hnewline) hsplit']
  rw [hsplit, hsplit'] at h
  cases h with
  | cons hline hbelow => exact .cons (hline.cons htu) hbelow

theorem split_like {ts us : List Token} (h : List.Forall₂ Like ts us) :
    List.Forall₂ Padded (split ts) (split us) := by
  induction h with
  | nil => exact .cons ⟨[], [], [], [], rfl, rfl, .nil, by simp, by simp⟩ .nil
  | cons htu _ ih => exact split_cons_padded htu ih

theorem split_white {pad ts : List Token} {line : Line} {below : List Line}
    (hpad : ∀ t ∈ pad, t.isWhite = true) (h : split ts = line :: below) :
    split (pad ++ ts) = (pad ++ line) :: below := by
  induction pad with
  | nil => exact h
  | cons w pad ih =>
      obtain ⟨hw, hpad⟩ := List.forall_mem_cons.1 hpad
      have hkind : w.kind = .white := eq_of_beq hw
      exact split_cons_inside (by simp [hkind]) (by simp [hkind]) (ih hpad)

theorem split_padded {ts us pad pad' rest rest' : List Token} {n n' : Token}
    (h : List.Forall₂ Like ts us) (hpad : ∀ t ∈ pad, t.isWhite = true)
    (hpad' : ∀ t ∈ pad', t.isWhite = true) (hn : n.kind = .newline) (hn' : n'.kind = .newline)
    (hrest : List.Forall₂ Like rest rest') :
    List.Forall₂ Padded (split (ts ++ (pad ++ n :: rest)))
      (split (us ++ (pad' ++ n' :: rest'))) := by
  induction h with
  | nil =>
      rw [List.nil_append, List.nil_append, split_white hpad (split_cons_newline hn rest),
        split_white hpad' (split_cons_newline hn' rest'), List.append_nil, List.append_nil]
      exact .cons ⟨[], [], pad, pad', rfl, rfl, .nil, hpad, hpad'⟩ (split_like hrest)
  | cons htu _ ih => exact split_cons_padded htu ih

end Line

theorem Line.same_of_padded {lines lines' : List Line}
    (h : List.Forall₂ Line.Padded lines lines') (htidy : ∀ line ∈ lines, line.Tidy)
    (htidy' : ∀ line ∈ lines', line.Tidy) : List.Forall₂ Line.Same lines lines' := by
  induction h with
  | nil => exact .nil
  | cons hline _ ih =>
      obtain ⟨hfirst, htidy⟩ := List.forall_mem_cons.1 htidy
      obtain ⟨hfirst', htidy'⟩ := List.forall_mem_cons.1 htidy'
      exact .cons ⟨hfirst, hfirst', hline⟩ (ih htidy htidy')

/-- Documents whose lines agree up to white space at their ends have the same statements. -/
theorem Statement.outcome_padded {text text' : Text}
    (h : List.Forall₂ Line.Padded (Line.split (tokenize text)) (Line.split (tokenize text'))) :
    (ofTokens (tokenize text)).map outcome = (ofTokens (tokenize text')).map outcome :=
  outcome_same (Line.same_of_padded h (fun _ => Line.tidy_of_mem_split)
    fun _ => Line.tidy_of_mem_split)

end PoolProse
