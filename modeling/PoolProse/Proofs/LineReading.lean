import PoolProse.Proofs.Chains
import PoolProse.Proofs.LineGrammar

/-!
# Reading a line is deriving it

The scan of a line builds its expression while it goes, with what is open on a stack. It fails with
the error of `verdict`, and otherwise gives what the grammar says of the line.
-/
namespace PoolProse

namespace Line

/-! ## What a level has read -/

namespace Level

/-- Up to the merging of literals, `l'` has read what `l` has and then `es`. -/
def Extends (l l' : Level) (es : List Expr) : Prop :=
  ∀ fs, Expr.mergeLits (l'.flush.segments ++ fs) = Expr.mergeLits (l.flush.segments ++ (es ++ fs))

theorem Extends.refl (l : Level) : l.Extends l [] := by
  intro fs
  rfl

theorem Extends.trans {l l' l'' : Level} {es fs : List Expr} (h : l.Extends l' es)
    (h' : l'.Extends l'' fs) : l.Extends l'' (es ++ fs) := by
  intro gs
  rw [h' gs, h (fs ++ gs), List.append_assoc]

theorem Extends.finish {l l' : Level} {es : List Expr} (hl : l.flush.segments = [])
    (h : l.Extends l' es) : l'.finish = .concat es := by
  have hes := h []
  rw [hl, List.append_nil, List.append_nil, List.nil_append] at hes
  rw [Level.finish, Expr.concat, hes, Expr.concat]

theorem extends_literal {l l' : Level} {s : Text} (hsegments : l'.segments = l.segments)
    (hliteral : l'.literal = l.literal ++ s) (hs : s ≠ []) : l.Extends l' [.lit s] := by
  intro fs
  have hl' : l'.flush.segments = l.segments ++ [.lit (l.literal ++ s)] := by
    simp [flush, hsegments, hliteral, hs]
  rw [hl', List.append_assoc]
  cases hl : l.literal with
  | nil => simp [flush, hl]
  | cons b t =>
      have hflush : l.flush.segments = l.segments ++ [.lit (b :: t)] := by simp [flush, hl]
      rw [hflush, List.append_assoc]
      exact Expr.mergeLits_append_congr (Expr.mergeLits_lit_lit _ s fs).symm l.segments

theorem flush_literal (l : Level) : l.flush.literal = [] := by
  unfold flush
  split
  case isTrue h => exact List.isEmpty_iff.1 h
  case isFalse => rfl

theorem flush_segments (l : Level) : l.flush.segments =
    if l.literal.isEmpty then l.segments else l.segments ++ [.lit l.literal] := by
  unfold flush
  split <;> rfl

theorem finish_congr {l l' : Level} (hsegments : l'.segments = l.segments)
    (hliteral : l'.literal = l.literal) : l'.finish = l.finish := by
  rw [finish, finish, flush_segments, flush_segments, hsegments, hliteral]

theorem flush_begun (l : Level) : l.flush.begun = l.begun := by
  unfold flush
  split <;> rfl

theorem flush_held (l : Level) : l.flush.held = l.held := by
  unfold flush
  split <;> rfl

theorem extends_push {l l' : Level} {e : Expr} (hliteral : l'.literal = [])
    (hsegments : l'.segments = l.flush.segments ++ [e]) : l.Extends l' [e] := by
  intro fs
  have hl' : l'.flush.segments = l'.segments := by simp [flush, hliteral]
  rw [hl', hsegments, List.append_assoc]

def read (outermost : Bool) (t : Token) (s : Text) (l : Level) : Level :=
  if t.isWhite then l.blank outermost s else l.write outermost s

/-- The level with the white space that it holds back. -/
def settle (outermost : Bool) (l : Level) : Level := l.write outermost []

def hold (ws : List Token) (l : Level) : Level :=
  { l with held := l.held ++ ws.flatMap Token.text }

theorem finish_hold (ws : List Token) (l : Level) : (l.hold ws).finish = l.finish :=
  finish_congr rfl rfl

theorem settle_read_segments (outermost : Bool) (t : Token) (s : Text) (l : Level) :
    ((l.read outermost t s).settle outermost).segments = (l.settle outermost).segments := by
  cases outermost <;> by_cases ht : t.isWhite = true <;> simp [read, settle, blank, write, ht]

theorem settle_read_literal {outermost : Bool} {l : Level}
    (hbegun : outermost = true → l.begun = true) (t : Token) (s : Text) :
    ((l.read outermost t s).settle outermost).literal = (l.settle outermost).literal ++ s := by
  cases outermost with
  | false => by_cases ht : t.isWhite = true <;> simp [read, settle, blank, write, ht]
  | true =>
      have hb := hbegun rfl
      by_cases ht : t.isWhite = true <;> simp [read, settle, blank, write, ht, hb]

theorem finish_settle_inner (l : Level) : (l.settle false).finish = l.finish :=
  finish_congr rfl (by simp [settle, write])

theorem finish_settle {l : Level} (hheld : l.held = []) : (l.settle true).finish = l.finish :=
  finish_congr rfl (by simp [settle, write, hheld])

theorem settle_begun (outermost : Bool) (l : Level) : (l.settle outermost).begun = true := by
  cases outermost <;> rfl

theorem settle_held (l : Level) : (l.settle true).held = [] := rfl

theorem extends_settle_push (outermost : Bool) (l : Level) (e : Expr) :
    (l.settle outermost).Extends (((l.settle outermost).flush.push e).settle outermost) [e] := by
  apply extends_push
  · cases outermost with
    | false => simp [settle, write, push, flush_literal]
    | true => simp [settle, write, push, flush_literal, flush_held]
  · cases outermost <;> rfl

theorem read_begun {outermost : Bool} {l : Level} (hbegun : outermost = true → l.begun = true)
    (t : Token) (s : Text) : outermost = true → (l.read outermost t s).begun = true := by
  rintro rfl
  by_cases ht : t.isWhite = true <;> simp [read, blank, write, ht, hbegun rfl]

end Level

/-! ## The scan follows the grammar -/

theorem decodeEscape_ne_nil (t : Text) : Token.decodeEscape t ≠ [] := by
  match t with
  | [] => simp [Token.decodeEscape]
  | [_] => simp [Token.decodeEscape]
  | _ :: b :: t =>
      simp only [Token.decodeEscape]
      split
      · simp
      · split <;> simp

theorem literal_ne_nil {t : Token} {s : Text} (h : t.literal? = some s) (ht : t.text ≠ []) :
    s ≠ [] := by
  have hescape := decodeEscape_ne_nil t.text
  unfold Token.literal? at h
  cases hk : t.kind <;> simp only [hk, Option.some.injEq, reduceCtorEq] at h <;> rwa [← h]

theorem scan_literal {t : Token} {s : Text} (ht : t.literal? = some s) (items : Bool)
    (done : List Expr) (l : Level) (enclosing : List Enclosing) (ts : List Token) :
    scan items done l enclosing (t :: ts) =
      scan items done (l.read enclosing.isEmpty t s) enclosing ts := by
  unfold Token.literal? at ht
  simp only [scan]
  cases hk : t.kind <;> simp_all [Level.read, Token.isWhite]

/-- Segments are added to the level that they stand in. White space at the end of outermost text
is held back. -/
theorem scan_segments {ts : List Token} {es : List Expr} (h : Segments ts es)
    (htext : ∀ t ∈ ts, t.text ≠ []) (l : Level) (enclosing : List Enclosing)
    (hbegun : enclosing.isEmpty = true → l.begun = true) :
    ∃ l', (l.settle enclosing.isEmpty).Extends (l'.settle enclosing.isEmpty) es ∧
      (enclosing.isEmpty = true → l'.begun = true) ∧
      (enclosing.isEmpty = true → (ts = [] → l.held = []) →
        (∀ t ∈ ts.getLast?, ¬ t.isWhite = true) → l'.held = []) ∧
      ∀ items done rest,
        scan items done l enclosing (ts ++ rest) = scan items done l' enclosing rest := by
  induction h generalizing l enclosing with
  | nil => exact ⟨l, .refl _, hbegun, fun _ hheld _ => hheld rfl, fun _ _ _ => rfl⟩
  | @text t s ts es ht h ih =>
      obtain ⟨hne, htext⟩ := List.forall_mem_cons.1 htext
      obtain ⟨l', hext, hbegun', hheld, hscan⟩ :=
        ih htext (l.read enclosing.isEmpty t s) enclosing (Level.read_begun hbegun t s)
      have hread : (l.settle enclosing.isEmpty).Extends
          ((l.read enclosing.isEmpty t s).settle enclosing.isEmpty) [.lit s] :=
        Level.extends_literal (Level.settle_read_segments _ t s l)
          (Level.settle_read_literal hbegun t s) (literal_ne_nil ht hne)
      refine ⟨l', hread.trans hext, hbegun', ?_, ?_⟩
      · intro hout _ hlast
        apply hheld hout
        · rintro rfl
          have hwhite : ¬ t.isWhite = true := hlast t rfl
          simp [Level.read, Level.write, hwhite, hout]
        · intro u hu
          apply hlast u
          rw [List.getLast?_cons, hu]
          rfl
      · intro items done rest
        rw [List.cons_append, scan_literal ht, hscan]
  | @group o c b inner ts es fs ho hc hinner h ihinner ih =>
      have hinnertext : ∀ t ∈ inner, t.text ≠ [] := fun t ht => htext t (by simp [ht])
      have htstext : ∀ t ∈ ts, t.text ≠ [] := fun t ht => htext t (by simp [ht])
      obtain ⟨l₁, hext₁, -, -, hscan₁⟩ :=
        ihinner hinnertext {} (⟨o, b, (l.settle enclosing.isEmpty).flush⟩ :: enclosing) (by simp)
      have hfinish : l₁.finish = .concat es := by
        rw [← Level.finish_settle_inner]
        exact hext₁.finish rfl
      obtain ⟨l', hext, hbegun', hheld, hscan⟩ :=
        ih htstext ((l.settle enclosing.isEmpty).flush.push (.group b (.concat es))) enclosing
          (fun _ => (Level.flush_begun _).trans (Level.settle_begun _ l))
      have hpush := Level.extends_settle_push enclosing.isEmpty l (.group b (.concat es))
      refine ⟨l', hpush.trans hext, hbegun', ?_, ?_⟩
      · intro hout _ hlast
        apply hheld hout
        · rintro rfl
          rw [hout]
          exact (Level.flush_held _).trans (Level.settle_held l)
        · intro u hu
          apply hlast u
          rw [List.getLast?_cons, List.getLast?_append, List.getLast?_cons, hu]
          rfl
      · intro items done rest
        have hopen : scan items done l enclosing (o :: (inner ++ c :: ts) ++ rest) =
            scan items done {} (⟨o, b, (l.settle enclosing.isEmpty).flush⟩ :: enclosing)
              (inner ++ (c :: (ts ++ rest))) := by
          simp only [List.cons_append, List.append_assoc, scan, ho]
          rfl
        rw [hopen, hscan₁]
        simp only [scan, hc, if_true, hfinish]
        exact hscan items done rest

theorem scan_white {ws : List Token} (hws : ∀ w ∈ ws, w.isWhite = true) (items : Bool)
    (done : List Expr) (l : Level) (rest : List Token) :
    scan items done l [] (ws ++ rest) = scan items done (l.hold ws) [] rest := by
  induction ws generalizing l with
  | nil => simp [Level.hold]
  | cons w ws ih =>
      obtain ⟨hw, hws⟩ := List.forall_mem_cons.1 hws
      have hkind : w.kind = .white := eq_of_beq hw
      have hread : scan items done l [] (w :: (ws ++ rest)) =
          scan items done (l.blank true w.text) [] (ws ++ rest) := by
        simp only [scan, hkind, List.isEmpty_nil]
      have hhold : (l.blank true w.text).hold ws = l.hold (w :: ws) := by
        simp [Level.hold, Level.blank]
      rw [List.cons_append, hread, ih hws, hhold]

theorem scan_first {t : Token} {ts : List Token} {es : List Expr} (h : Segments (t :: ts) es)
    (ht : ¬ t.isWhite = true) (items : Bool) (done : List Expr) (l : Level) (rest : List Token) :
    scan items done l [] (t :: rest) = scan items done (l.settle true) [] (t :: rest) := by
  cases h with
  | text hs h =>
      rw [scan_literal hs, scan_literal hs]
      simp [Level.read, ht, Level.settle, Level.write]
  | group ho hc hinner h => simp [scan, ho, Level.settle, Level.write]

theorem scan_text {ts : List Token} {e : Expr} (h : IsText ts e) (htext : ∀ t ∈ ts, t.text ≠ []) :
    ∃ l : Level, l.finish = e ∧ ∀ items done rest,
      scan items done {} [] (ts ++ rest) = scan items done l [] rest := by
  obtain ⟨es, hes, rfl⟩ := h
  obtain ⟨before, after, hts, hbefore, hafter, hfirst, hlast⟩ := trim_cases ts
  have htrim : ∀ t ∈ trim ts, t.text ≠ [] := by
    intro t ht
    apply htext t
    rw [hts]
    simp [ht]
  cases hcore : trim ts with
  | nil =>
      rw [hcore] at hes hts
      cases hes
      refine ⟨({} : Level).hold ts, Level.finish_hold ts {}, ?_⟩
      intro items done rest
      have hwhite : ∀ w ∈ ts, w.isWhite = true := by
        intro w hw
        rw [hts, List.nil_append] at hw
        exact (List.mem_append.1 hw).elim (hbefore w) (hafter w)
      exact scan_white hwhite items done {} rest
  | cons t core =>
      rw [hcore] at hes hts hfirst hlast htrim
      have hstart := scan_first hes (hfirst t rfl)
      obtain ⟨l, hext, -, hheld, hscan⟩ :=
        scan_segments hes htrim ((({} : Level).hold before).settle true) [] (fun _ => rfl)
      have hempty : l.held = [] := hheld rfl (by simp) hlast
      have hfinish : l.finish = .concat es := by
        rw [← Level.finish_settle hempty]
        exact hext.finish rfl
      refine ⟨l.hold after, (Level.finish_hold after l).trans hfinish, ?_⟩
      intro items done rest
      rw [hts, List.append_assoc, List.append_assoc, scan_white hbefore, List.cons_append,
        hstart, ← List.cons_append, hscan, scan_white hafter]

theorem freeText_of_isText {ts : List Token} {e : Expr} (h : IsText ts e)
    (htext : ∀ t ∈ ts, t.text ≠ []) : freeText ts = .ok e := by
  obtain ⟨l, hl, hscan⟩ := scan_text h htext
  have hts := hscan false [] []
  rw [List.append_nil] at hts
  rw [freeText, hts, ← hl]
  rfl

theorem scan_items {ts : List Token} {es : List Expr} (h : IsItems ts es)
    (htext : ∀ t ∈ ts, t.text ≠ []) (done : List Expr) :
    (scan true done {} [] ts).map (fun (done, last) => done ++ [last]) = .ok (done ++ es) := by
  induction h generalizing done with
  | last h =>
      obtain ⟨l, hl, hscan⟩ := scan_text h htext
      have hts := hscan true done []
      rw [List.append_nil] at hts
      rw [hts, ← hl]
      rfl
  | @more ts us p e es h hp hrest ih =>
      obtain ⟨l, hl, hscan⟩ := scan_text h fun t ht => htext t (by simp [ht])
      have hbar : scan true done l [] (p :: us) = scan true (done ++ [e]) {} [] us := by
        simp [scan, hp, hl]
      rw [hscan, hbar, ih fun t ht => htext t (by simp [ht])]
      simp

theorem itemList_of_isItems {ts : List Token} {es : List Expr} (h : IsItems ts es)
    (htext : ∀ t ∈ ts, t.text ≠ []) : itemList ts = .ok es :=
  scan_items h htext []

/-! ## The scan fails with the verdict -/

theorem scan_error {items : Bool} {enclosing : List Enclosing} {ts : List Token}
    {e : SyntaxError} (hin : ∀ t ∈ ts, t.kind.isInside = true)
    (hopen : ∀ o ∈ enclosing, o.opener.kind = .opening o.bracket)
    (h : verdict items (enclosing.map Enclosing.opener) ts = some e) (done : List Expr)
    (l : Level) : scan items done l enclosing ts = .error e := by
  induction ts generalizing enclosing done l with
  | nil =>
      cases enclosing with
      | nil => cases h
      | cons o enclosing => exact congrArg Except.error (Option.some.inj h)
  | cons t ts ih =>
      obtain ⟨ht, hin⟩ := List.forall_mem_cons.1 hin
      rw [verdict] at h
      rcases token_cases ht with ⟨s, hs⟩ | ⟨b, hb⟩ | ⟨b, hb⟩ | hp | ⟨op, hop⟩
      · obtain ⟨hnone, hstack⟩ := offence_literal items (enclosing.map Enclosing.opener) hs
        rw [hnone, hstack] at h
        rw [scan_literal hs]
        exact ih hin hopen h done _
      · simp only [offence, restack, hb] at h
        simp only [scan, hb]
        have hopen' : ∀ o ∈ (⟨t, b, (l.write enclosing.isEmpty []).flush⟩ :: enclosing),
            o.opener.kind = .opening o.bracket := List.forall_mem_cons.2 ⟨hb, hopen⟩
        exact ih hin hopen' h done {}
      · simp only [offence, restack, hb] at h
        simp only [scan, hb]
        cases enclosing with
        | nil => simpa using h
        | cons o enclosing =>
            obtain ⟨ho, hopen⟩ := List.forall_mem_cons.1 hopen
            by_cases hbracket : o.bracket = b
            · simp only [List.map_cons, List.head?_cons, Option.map_some, ho, hbracket, if_true,
                List.tail_cons] at h ⊢
              exact ih hin hopen h done _
            · simpa [ho, hbracket] using h
      · simp only [offence, restack, hp] at h
        simp only [scan, hp]
        by_cases hempty : (items && enclosing.isEmpty) = true
        · obtain ⟨hitems, rfl⟩ : items = true ∧ enclosing = [] := by simpa using hempty
          subst hitems
          exact ih hin hopen h _ {}
        · simp only [List.isEmpty_map, hempty] at h ⊢
          exact congrArg Except.error (Option.some.inj h)
      · simp only [offence, hop] at h
        simp only [scan, hop]
        exact congrArg Except.error (Option.some.inj h)

theorem freeText_of_verdict {ts : List Token} {e : SyntaxError}
    (hin : ∀ t ∈ ts, t.kind.isInside = true) (h : verdict false [] ts = some e) :
    freeText ts = .error e := by
  have hopen : ∀ o ∈ ([] : List Enclosing), o.opener.kind = .opening o.bracket := by simp
  rw [freeText, scan_error hin hopen h]
  rfl

theorem itemList_of_verdict {ts : List Token} {e : SyntaxError}
    (hin : ∀ t ∈ ts, t.kind.isInside = true) (h : verdict true [] ts = some e) :
    itemList ts = .error e := by
  have hopen : ∀ o ∈ ([] : List Enclosing), o.opener.kind = .opening o.bracket := by simp
  rw [itemList, scan_error hin hopen h]
  rfl

/-! ## The whole line -/

theorem Binds.mem {line : Line} {name : Text} {op : Binding} {rest : List Token} {t : Token}
    (h : Binds line name op rest) (ht : t ∈ rest) : t ∈ line := by
  obtain ⟨head, u, rfl, -, -⟩ := h
  simp [ht]

theorem poolName_of_binds {line : Line} {name : Text} {op : Binding} {rest : List Token}
    (h : Binds line name op rest) :
    ∃ t, poolName line = some (name, t :: rest) ∧ t.kind = .binding op := by
  obtain ⟨head, t, rfl, hhead, ht⟩ := h
  refine ⟨t, ?_, ht⟩
  cases hhead with
  | name hn => simp [poolName, hn]
  | number hn => simp [poolName, hn, Token.isWhite, ht]
  | @both n u ws hn hws hu =>
      have hall : ∀ w ∈ ws, w.isWhite = true := fun w hw => by simp [Token.isWhite, hws w hw]
      have hfirst : ¬ u.isWhite = true := by simp [Token.isWhite, hu]
      simp [poolName, hn, hu, List.dropWhile_append_of_pos hall, List.takeWhile_append_of_pos hall,
        hfirst]

theorem isPoolName_of_poolName {line rest : Line} {name : Text}
    (h : poolName line = some (name, rest)) :
    ∃ head, line = head ++ rest ∧ IsPoolName head name := by
  cases line with
  | nil => cases h
  | cons u us =>
      simp only [poolName] at h
      split at h
      case h_1 hu =>
        obtain ⟨rfl, rfl⟩ := Prod.mk.inj (Option.some.inj h)
        exact ⟨[u], rfl, .name hu⟩
      case h_2 hu =>
        have hnumber : some (u.text, us) = some (name, rest) →
            ∃ head, u :: us = head ++ rest ∧ IsPoolName head name := by
          intro heq
          obtain ⟨rfl, rfl⟩ := Prod.mk.inj (Option.some.inj heq)
          exact ⟨[u], rfl, .number hu⟩
        split at h
        case h_1 v vs hv =>
          split at h
          case isTrue hname =>
            obtain ⟨rfl, rfl⟩ := Prod.mk.inj (Option.some.inj h)
            have hcat := @List.takeWhile_append_dropWhile _ Token.isWhite us
            rw [hv] at hcat
            have hws : ∀ w ∈ us.takeWhile Token.isWhite, w.kind = .white := by
              intro w hw
              exact eq_of_beq (List.all_eq_true.1 List.all_takeWhile w hw)
            refine ⟨u :: (us.takeWhile Token.isWhite ++ [v]), ?_, .both hu hws (eq_of_beq hname)⟩
            rw [List.cons_append, List.append_assoc, List.singleton_append, hcat]
          case isFalse => exact hnumber h
        case h_2 => exact hnumber h
      case h_3 => cases h

theorem binds_of_poolName {line : Line} {name : Text} {op : Binding} {t : Token}
    {rest : List Token} (h : poolName line = some (name, t :: rest)) (ht : t.kind = .binding op) :
    Binds line name op rest := by
  obtain ⟨head, hline, hhead⟩ := isPoolName_of_poolName h
  exact ⟨head, t, hline, hhead, ht⟩

theorem expr_of_binds {line : Line} {name : Text} {op : Binding} {rest : List Token}
    (h : Binds line name op rest) : expr line = (itemList rest).map (.bind op name) := by
  obtain ⟨t, hname, ht⟩ := poolName_of_binds h
  simp only [expr, hname, ht]

theorem expr_of_not_binds {line : Line} (h : ∀ name op rest, ¬ Binds line name op rest) :
    expr line = freeText line := by
  unfold expr
  split
  case h_1 name t ts hname =>
    split
    case h_1 op hop => exact absurd (binds_of_poolName hname hop) (h name op ts)
    case h_2 => rfl
  case h_2 => rfl

theorem expr_of_reads {line : Line} {s : Except SyntaxError Expr}
    (hin : ∀ t ∈ line, t.kind.isInside = true) (htext : ∀ t ∈ line, t.text ≠ [])
    (h : Reads line s) : expr line = s := by
  cases h with
  | @binding name op rest items h hrest =>
      have htext' : ∀ t ∈ rest, t.text ≠ [] := fun t ht => htext t (h.mem ht)
      rw [expr_of_binds h, itemList_of_isItems hrest htext']
      rfl
  | @badBinding name op rest e h hrest =>
      have hin' : ∀ t ∈ rest, t.kind.isInside = true := fun t ht => hin t (h.mem ht)
      rw [expr_of_binds h, itemList_of_verdict hin' hrest]
      rfl
  | text h htext' => rw [expr_of_not_binds h, freeText_of_isText htext' htext]
  | badText h hv => rw [expr_of_not_binds h, freeText_of_verdict hin hv]

theorem exists_reads {line : Line} (hin : ∀ t ∈ line, t.kind.isInside = true) :
    ∃ s, Reads line s := by
  by_cases h : ∃ name op rest, Binds line name op rest
  · obtain ⟨name, op, rest, h⟩ := h
    cases hv : verdict true [] rest with
    | some e => exact ⟨_, .badBinding h hv⟩
    | none =>
        obtain ⟨items, hitems⟩ := isItems_of_verdict (fun t ht => hin t (h.mem ht)) hv
        exact ⟨_, .binding h hitems⟩
  · have hnone : ∀ name op rest, ¬ Binds line name op rest :=
      fun name op rest hb => h ⟨name, op, rest, hb⟩
    cases hv : verdict false [] line with
    | some e => exact ⟨_, .badText hnone hv⟩
    | none =>
        obtain ⟨e, he⟩ := isText_of_verdict hin hv
        exact ⟨_, .text hnone he⟩

/-- A line is read as the grammar says, and in no other way. -/
theorem reads_iff {line : Line} (hin : ∀ t ∈ line, t.kind.isInside = true)
    (htext : ∀ t ∈ line, t.text ≠ []) (s : Except SyntaxError Expr) :
    Reads line s ↔ expr line = s := by
  constructor
  · exact expr_of_reads hin htext
  · rintro rfl
    obtain ⟨s, hs⟩ := exists_reads hin
    rwa [expr_of_reads hin htext hs]

end Line

end PoolProse
