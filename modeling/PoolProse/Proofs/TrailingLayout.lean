import PoolProse.Proofs.Layout
import PoolProse.Proofs.LineLikeness
import PoolProse.Proofs.Outlook

/-!
# Layout at the end of a line

Blanks before a newline are taken by the token before them if it is an operator, a rule or white
space, and make white space of their own otherwise. A comment there leaves no token, but takes the
white space before it. Either way the line says the same, and so do all others.
-/
namespace PoolProse

namespace Token

open Text (isBlank isDigit blanks atLineEnd)

section

variable {c : Context} {read w u : Text} {k : Kind} {m : UInt8}

/-! ## Rules -/

theorem takeWhile_mark_append (hm : u.head? ≠ some m) :
    (read ++ u).takeWhile (· == m) = read.takeWhile (· == m) ∧
      (read ++ u).dropWhile (· == m) = read.dropWhile (· == m) ++ u := by
  have hall : ∀ t : Text, ∀ b ∈ t.takeWhile (· == m), (b == m) = true := fun t =>
    List.all_eq_true.1 List.all_takeWhile
  have hhead : ∀ t : Text, ∀ b ∈ (t.dropWhile (· == m)).head?, (b == m) = false := by
    intro t b hb
    have hfirst := List.head?_dropWhile_not (· == m) t
    rw [hb] at hfirst
    simpa using hfirst
  apply Text.split_unique (hall _) (hall _) (hhead _)
  · intro b hb
    cases hdrop : read.dropWhile (· == m) with
    | nil =>
        rw [hdrop, List.nil_append] at hb
        rw [beq_eq_false_iff_ne]
        rintro rfl
        exact hm hb
    | cons a x =>
        rw [hdrop] at hb
        exact hhead read b (by rw [hdrop]; exact hb)
  · rw [List.takeWhile_append_dropWhile, ← List.append_assoc, List.takeWhile_append_dropWhile]

theorem head_ne_mark (hm : isBlank m = false ∧ m ≠ Ascii.newline)
    (hw : ∀ b ∈ w.head?, isBlank b = true) (u : Text) :
    (w ++ Ascii.newline :: u).head? ≠ some m := by
  cases w with
  | nil => exact fun he => hm.2 (Option.some.inj he).symm
  | cons b w =>
      intro he
      have hb := hw b rfl
      rw [Option.some.inj he, hm.1] at hb
      cases hb

theorem isSome_ruleOf_trailing (hm : isBlank m = false ∧ m ≠ Ascii.newline)
    (hread : Ascii.newline ∉ read) (hw : ∀ b ∈ w.head?, isBlank b = true)
    (h : (ruleOf m k (read ++ (w ++ Ascii.newline :: u))).isSome = true) :
    (ruleOf m k (read ++ Ascii.newline :: u)).isSome = true := by
  have hhead := head_ne_mark hm hw u
  have hhead' : (Ascii.newline :: u).head? ≠ some m := fun he => hm.2 (Option.some.inj he).symm
  rw [isSome_ruleOf, (takeWhile_mark_append hhead).1, (takeWhile_mark_append hhead).2] at h
  rw [isSome_ruleOf, (takeWhile_mark_append hhead').1, (takeWhile_mark_append hhead').2]
  obtain ⟨hlength, hend⟩ := Bool.and_eq_true_iff.1 h
  rw [hlength, Bool.true_and]
  by_cases hblank : ∀ b ∈ read.dropWhile (· == m), isBlank b = true
  · rw [List.dropWhile_append_of_pos hblank]
    rfl
  · -- The rest of `read` is not blank, so the line does not end there.
    have hinked : ∃ b ∈ read.dropWhile (· == m), isBlank b = false := by simpa using hblank
    obtain ⟨b, x, hx⟩ := List.exists_cons_of_ne_nil (dropWhile_ne_nil_of_inked hinked)
    rw [(Text.dropWhile_append_of_inked hinked).1, hx] at hend
    have hmem : b ∈ read := by
      apply List.dropWhile_subset (· == m)
      apply List.dropWhile_subset isBlank
      rw [hx]
      exact List.mem_cons_self
    exact absurd (eq_of_beq hend ▸ hmem) hread

theorem rule_trailing (hread : Ascii.newline ∉ read) (hw : ∀ b ∈ w.head?, isBlank b = true)
    (h : rule c (read ++ Ascii.newline :: u) = none) :
    rule c (read ++ (w ++ Ascii.newline :: u)) = none := by
  rw [rule_eq_none_iff] at h ⊢
  intro hstart
  obtain ⟨hdash, hequals⟩ := h hstart
  constructor
  · rw [← Bool.not_eq_true] at hdash ⊢
    exact fun hsome => hdash (isSome_ruleOf_trailing ⟨rfl, by decide⟩ hread hw hsome)
  · rw [← Bool.not_eq_true] at hequals ⊢
    exact fun hsome => hequals (isSome_ruleOf_trailing ⟨rfl, by decide⟩ hread hw hsome)

theorem ruleOf_eq {marks pad : Text} (hm : isBlank m = false ∧ m ≠ Ascii.newline)
    (hmarks : ∀ b ∈ marks, (b == m) = true) (hlength : 3 ≤ marks.length)
    (hpad : ∀ b ∈ pad, isBlank b = true) :
    ruleOf m k (marks ++ (pad ++ Ascii.newline :: u)) = some ⟨some k, (marks ++ pad).length⟩ := by
  have hhead := head_ne_mark hm (fun b hb => hpad b (List.mem_of_mem_head? hb)) u
  have htake : (marks ++ (pad ++ Ascii.newline :: u)).takeWhile (· == m) = marks := by
    rw [(takeWhile_mark_append hhead).1, List.takeWhile_eq_self_iff.2 hmarks]
  have hcount : blanks (pad ++ Ascii.newline :: u) = pad.length := by
    rw [Text.blanks_append_of_blank hpad]
    rfl
  simp only [ruleOf, htake, List.drop_left' rfl, hcount, ← List.drop_drop, hlength]
  simp [atLineEnd]

theorem exists_of_ruleOf {k' : Option Kind}
    (h : ruleOf m k (read ++ u) = some ⟨k', read.length⟩) :
    k' = some k ∧ ∃ marks pad, read = marks ++ pad ∧ (∀ b ∈ marks, (b == m) = true) ∧
      3 ≤ marks.length ∧ ∀ b ∈ pad, isBlank b = true := by
  simp only [ruleOf, Option.ite_none_right_eq_some, Bool.and_eq_true, decide_eq_true_eq,
    Option.some.injEq, Lexeme.mk.injEq, Text.drop_takeWhile_length] at h
  obtain ⟨⟨hlength, -⟩, hkind, hsum⟩ := h
  have hcut : read ++ u = (read ++ u).takeWhile (· == m) ++
      ((read ++ u).dropWhile (· == m)).takeWhile isBlank ++
        ((read ++ u).dropWhile (· == m)).dropWhile isBlank := by
    rw [List.append_assoc, List.takeWhile_append_dropWhile, List.takeWhile_append_dropWhile]
  refine ⟨hkind.symm, (read ++ u).takeWhile (· == m),
    ((read ++ u).dropWhile (· == m)).takeWhile isBlank, ?_, ?_, hlength, ?_⟩
  · rw [blanks, ← List.length_append] at hsum
    exact (List.append_inj hcut hsum.symm).1
  · exact List.all_eq_true.1 List.all_takeWhile
  · exact List.all_eq_true.1 List.all_takeWhile

theorem rule_of_lexeme {t : Text} {n : Nat} (hl : lexeme c t = some ⟨some k, n⟩)
    (hk : k = .rule ∨ k = .doubleRule) : rule c t = some ⟨some k, n⟩ := by
  have hl' := hl
  rw [lexeme_eq_or] at hl
  rcases Option.or_eq_some_iff.1 hl with hl | ⟨hcontinuation, hl⟩
  · unfold continuation at hl
    repeat' split at hl
    all_goals cases hl
  rcases Option.or_eq_some_iff.1 hl with hl | ⟨hrule, hl⟩
  · exact hl
  rcases Option.or_eq_some_iff.1 hl with hl | ⟨hcomment, -⟩
  · unfold comment at hl
    split at hl
    all_goals cases hl
  exfalso
  rcases lexeme_inside hcontinuation hrule hcomment hl' with ⟨k', hkind, hinside⟩ | ⟨v, rfl⟩
  · obtain rfl := Option.some.inj hkind
    rcases hk with rfl | rfl <;> cases hinside
  · rw [List.singleton_append, lexeme_newline] at hl'
    obtain ⟨hkind, -⟩ := Lexeme.mk.inj (Option.some.inj hl')
    obtain rfl := Option.some.inj hkind
    rcases hk with hk | hk <;> cases hk

theorem lexeme_rule_trailing (hl : lexeme c (read ++ Ascii.newline :: u) =
      some ⟨some k, read.length⟩) (hk : k = .rule ∨ k = .doubleRule)
    (hw : ∀ b ∈ w, isBlank b = true) :
    lexeme c (read ++ w ++ Ascii.newline :: u) = some ⟨some k, (read ++ w).length⟩ := by
  have hgrow : ∀ {m : UInt8} {k' : Kind}, isBlank m = false ∧ m ≠ Ascii.newline →
      ruleOf m k' (read ++ Ascii.newline :: u) = some ⟨some k, read.length⟩ →
      ruleOf m k' (read ++ w ++ Ascii.newline :: u) = some ⟨some k, (read ++ w).length⟩ ∧
        ∃ x, read ++ w ++ Ascii.newline :: u = m :: x := by
    intro m k' hm hread
    obtain ⟨hkind, marks, pad, rfl, hmarks, hlength, hpad⟩ := exists_of_ruleOf hread
    have hpad' : ∀ b ∈ pad ++ w, isBlank b = true := by
      intro b hb
      exact (List.mem_append.1 hb).elim (hpad b) (hw b)
    constructor
    · rw [hkind, List.append_assoc marks, List.append_assoc marks,
        ruleOf_eq hm hmarks hlength hpad']
    · cases marks with
      | nil => cases hlength
      | cons a marks =>
          obtain rfl := eq_of_beq (hmarks a (by simp))
          exact ⟨_, rfl⟩
  have hother : ∀ {a b : UInt8} (x : Text), a ≠ b → (a :: x).head? ≠ some b :=
    fun _ hne he => hne (Option.some.inj he)
  have hrule := rule_of_lexeme hl hk
  unfold rule at hrule
  split at hrule
  case isFalse => cases hrule
  case isTrue hstart =>
    rw [lexeme_eq_or, rule, if_pos hstart]
    rcases Option.or_eq_some_iff.1 hrule with hdash | ⟨-, hequals⟩
    · obtain ⟨hsome, x, hx⟩ := hgrow ⟨rfl, by decide⟩ hdash
      rw [hsome, hx, continuation_of_head (hother x (by decide))]
      rfl
    · obtain ⟨hsome, x, hx⟩ := hgrow ⟨rfl, by decide⟩ hequals
      rw [hsome, hx, continuation_of_head (hother x (by decide)),
        ruleOf_of_head _ (hother x (by decide))]
      rfl

/-! ## Comments -/

theorem IsComment.dropWhile (h : IsComment read) : commentMark <+: read.dropWhile isBlank := by
  obtain ⟨before, after, rfl, hbefore, -⟩ := h
  rw [List.append_assoc, List.dropWhile_append_of_pos hbefore]
  exact ⟨after, rfl⟩

theorem IsComment.head_ne_backslash (h : IsComment read) (rest : Text) :
    (read ++ rest).head? ≠ some Ascii.backslash := by
  obtain ⟨before, after, rfl, hbefore, -⟩ := h
  cases before with
  | nil => exact fun he => absurd (Option.some.inj he) (by decide)
  | cons b before =>
      intro he
      have hb := hbefore b (by simp)
      rw [Option.some.inj he] at hb
      cases hb

theorem IsComment.inked (h : IsComment read) : ∃ b ∈ read, isBlank b = false :=
  ⟨Ascii.dash, List.dropWhile_subset isBlank (h.dropWhile.subset List.mem_cons_self), rfl⟩

theorem comment_eq_some (hread : IsComment read)
    (hfresh : 0 < blanks read ∨ c.lineStart = true ∨ c.afterBlank = true) :
    comment c (read ++ Ascii.newline :: u) = some ⟨none, read.length⟩ := by
  have htake : (read ++ Ascii.newline :: u).takeWhile (· != Ascii.newline) = read := by
    rw [List.takeWhile_append_of_pos, List.takeWhile_cons_of_neg (by simp), List.append_nil]
    intro b hb
    rw [bne_iff_ne]
    rintro rfl
    exact hread.newline_not_mem hb
  obtain ⟨hdrop, hcount⟩ := Text.dropWhile_append_of_inked (v := Ascii.newline :: u) hread.inked
  have hmark : commentMark <+: (read ++ Ascii.newline :: u).drop (blanks read) := by
    rw [← hcount, blanks, Text.drop_takeWhile_length, hdrop]
    exact hread.dropWhile.trans (List.prefix_append _ _)
  rw [comment, if_pos, htake]
  rw [Bool.and_eq_true, Bool.or_eq_true, Bool.or_eq_true, decide_eq_true_eq, or_assoc, hcount,
    List.isPrefixOf_iff_prefix]
  exact ⟨hfresh, hmark⟩

theorem lexeme_comment (hread : IsComment read)
    (hfresh : 0 < blanks read ∨ c.lineStart = true ∨ c.afterBlank = true)
    (hrule : rule c (read ++ Ascii.newline :: u) = none) :
    lexeme c (read ++ Ascii.newline :: u) = some ⟨none, read.length⟩ := by
  rw [lexeme_eq_or, continuation_of_head (hread.head_ne_backslash _), hrule,
    comment_eq_some hread hfresh]
  rfl

theorem lexeme_note {before note : Text} (hbefore : ∀ b ∈ before, isBlank b = true)
    (hfresh : before ≠ [] ∨ c.lineStart = false ∧ c.afterBlank = true)
    (hnote : Ascii.newline ∉ note) :
    lexeme c (before ++ (commentMark ++ note) ++ Ascii.newline :: u) =
      some ⟨none, (before ++ (commentMark ++ note)).length⟩ := by
  have hcomment : IsComment (before ++ (commentMark ++ note)) :=
    ⟨before, note, by rw [List.append_assoc], hbefore, hnote⟩
  rcases hfresh with hne | ⟨hstart, hblank⟩
  · obtain ⟨b, x, rfl⟩ := List.exists_cons_of_ne_nil hne
    have hb := hbefore b (by simp)
    have hother : ∀ a, isBlank a = false →
        (b :: x ++ (commentMark ++ note) ++ Ascii.newline :: u).head? ≠ some a := by
      intro a ha he
      rw [← Option.some.inj he, hb] at ha
      cases ha
    apply lexeme_comment hcomment (Or.inl (by simp [blanks, hb]))
    exact rule_of_head (hother _ rfl) (hother _ rfl)
  · apply lexeme_comment hcomment (Or.inr (Or.inr hblank))
    rw [rule_eq_none_iff, hstart]
    exact fun h => absurd h Bool.false_ne_true

theorem lexeme_comment_trailing (hl : lexeme c (read ++ Ascii.newline :: u) =
      some ⟨none, read.length⟩) (hread : IsComment read)
    (hw : ∀ b ∈ w.head?, isBlank b = true) (hnewline : Ascii.newline ∉ w) :
    lexeme c (read ++ w ++ Ascii.newline :: u) = some ⟨none, (read ++ w).length⟩ := by
  have hgrown : IsComment (read ++ w) := by
    obtain ⟨before, after, rfl, hbefore, hafter⟩ := hread
    refine ⟨before, after ++ w, by simp, hbefore, ?_⟩
    exact fun hmem => (List.mem_append.1 hmem).elim hafter hnewline
  have hcount : ∀ v, blanks (read ++ v) = blanks read := fun v =>
    (Text.dropWhile_append_of_inked hread.inked).2
  have hcontinuation : continuation c (read ++ Ascii.newline :: u) = none :=
    continuation_of_head (hread.head_ne_backslash _)
  have hrule : rule c (read ++ Ascii.newline :: u) = none := by
    rw [lexeme_eq_or, hcontinuation, Option.none_or] at hl
    rcases Option.or_eq_some_iff.1 hl with hrule | ⟨hrule, -⟩
    · rcases rule_kind hrule with hk | hk <;> cases hk
    · exact hrule
  have hfresh : 0 < blanks read ∨ c.lineStart = true ∨ c.afterBlank = true := by
    by_contra hstale
    have hcomment : comment c (read ++ Ascii.newline :: u) = none := by
      rw [comment_eq_none_iff, hcount]
      exact fun h => absurd h hstale
    rcases lexeme_inside hcontinuation hrule hcomment hl with ⟨k, hk, -⟩ | hstart
    · cases hk
    · obtain ⟨v, hv⟩ := hstart
      cases read with
      | nil => simpa using hread.inked
      | cons b x =>
          obtain ⟨rfl, -⟩ := List.cons.inj hv
          exact hread.newline_not_mem List.mem_cons_self
  rw [← hcount w] at hfresh
  apply lexeme_comment hgrown hfresh
  rw [List.append_assoc]
  exact rule_trailing hread.newline_not_mem hw hrule

/-! ## Operators -/

theorem Formed.append_blanks {rest : Text} (h : Formed k read u)
    (hk : k = .pipe ∨ ∃ op, k = .binding op) (hw : ∀ b ∈ w, isBlank b = true)
    (hrest : Text.blanks rest = 0) : Formed k (read ++ w) rest := by
  rcases hk with rfl | ⟨op, rfl⟩
  · obtain ⟨before, after, rfl, hbefore, hafter, -⟩ := h.eq_pipe
    rw [List.append_assoc, List.cons_append]
    exact .pipe hbefore (fun b hb => (List.mem_append.1 hb).elim (hafter b) (hw b)) hrest
  · obtain ⟨before, after, rfl, hbefore, hafter, -⟩ := h.eq_binding
    rw [List.append_assoc, List.append_assoc]
    exact .binding hbefore (fun b hb => (List.mem_append.1 hb).elim (hafter b) (hw b)) hrest

theorem lexeme_operator_trailing {rest : Text}
    (hl : lexeme c (read ++ u) = some ⟨some k, read.length⟩)
    (hk : k = .pipe ∨ ∃ op, k = .binding op) (hw : ∀ b ∈ w, isBlank b = true)
    (hrest : blanks rest = 0) :
    lexeme c (read ++ w ++ rest) = some ⟨some k, (read ++ w).length⟩ := by
  have hinside : k.isInside = true := by
    rcases hk with rfl | ⟨op, rfl⟩ <;> rfl
  apply ((formed_of_lexeme hl hinside).append_blanks hk hw hrest).lexeme_eq
  · rintro rfl
    rcases hk with hk | ⟨op, hk⟩ <;> cases hk
  · rintro rfl
    rcases hk with hk | ⟨op, hk⟩ <;> cases hk

end

/-! ## The tokens of a line with layout at its end -/

/-- Blanks, or a blank and a comment. -/
inductive IsTrailing : Text → Prop where
  | blanks {w : Text} (hne : w ≠ []) (h : ∀ b ∈ w, isBlank b = true) : IsTrailing w
  | note {note : Text} (h : Ascii.newline ∉ note) :
      IsTrailing (Ascii.space :: (commentMark ++ note))

/-- The text `y` is read before `r` as the tokens `ts`, up to the spelling of operators and rules
and to white space at the end. -/
def Ends (c : Context) (p : Nat) (ts : List Token) (y r : Text) : Prop :=
  ∃ body body' pad pad' c', ts = body ++ pad ∧ List.Forall₂ Like body body' ∧
    (∀ t ∈ pad, t.isWhite = true) ∧ (∀ t ∈ pad', t.isWhite = true) ∧
    Passes c p y (body' ++ pad') c' r

section

variable {c c' : Context} {p : Nat} {x w u : Text} {ts : List Token}

theorem isBlank_of_mem_space : ∀ b ∈ [Ascii.space], isBlank b = true :=
  List.forall_mem_singleton.2 rfl

theorem forall₂_like_refl (ts : List Token) : List.Forall₂ Like ts ts :=
  List.forall₂_same.2 fun t _ => Like.refl t

theorem Passes.ends_white {pad pad' : List Token} (h : Passes c p x (ts ++ pad') c' u)
    (hpad : ∀ t ∈ pad, t.isWhite = true) (hpad' : ∀ t ∈ pad', t.isWhite = true) :
    Ends c p (ts ++ pad) x u :=
  ⟨ts, ts, pad, pad', c', rfl, forall₂_like_refl ts, hpad, hpad', h⟩

theorem Passes.ends_like {t t' : Token} (h : Passes c p x (ts ++ [t']) c' u) (htt : t.Like t') :
    Ends c p (ts ++ [t]) x u := by
  refine ⟨ts ++ [t], ts ++ [t'], [], [], c', (List.append_nil _).symm, ?_, by simp, by simp, ?_⟩
  · exact List.rel_append (forall₂_like_refl ts) (.cons htt .nil)
  · rwa [List.append_nil]

theorem Passes.ends (h : Passes c p x ts c' u) : Ends c p ts x u := by
  rw [← List.append_nil ts] at h ⊢
  exact h.ends_white (by simp) (by simp)

theorem Passes.ends_apart (h : Passes c p x ts c' (w ++ Ascii.newline :: u)) (hw : IsTrailing w) :
    Ends c p ts (x ++ w) (Ascii.newline :: u) := by
  cases hw with
  | blanks hne hblank =>
      have hmark : ¬ commentMark <+: Ascii.newline :: u := by
        rintro ⟨v, hv⟩
        cases (List.cons.inj hv).1
      have hl : lexeme c' (w ++ Ascii.newline :: u) = some ⟨some .white, w.length⟩ :=
        lexeme_white hne hblank rfl rfl hmark
      rw [← List.append_nil ts]
      exact (h.snoc hl).ends_white (by simp) (by simp [Lexeme.token, isWhite])
  | @note note hnote =>
      have hl : lexeme c' (Ascii.space :: (commentMark ++ note) ++ Ascii.newline :: u) = _ :=
        lexeme_note isBlank_of_mem_space (Or.inl (by simp)) hnote
      have hpass := h.snoc hl
      rw [Lexeme.token, List.append_nil] at hpass
      exact hpass.ends

theorem IsTrailing.newline_not_mem (hw : IsTrailing w) : Ascii.newline ∉ w := by
  intro hmem
  cases hw with
  | blanks _ hblank => cases hblank _ hmem
  | note hnote =>
      rcases List.mem_cons.1 hmem with hmem | hmem
      · cases hmem
      · rcases List.mem_append.1 hmem with hmem | hmem
        · exact absurd hmem (by decide)
        · exact hnote hmem

theorem IsTrailing.cases (hw : IsTrailing w) :
    ∃ d y, w = d :: y ∧ isBlank d = true ∧ ∀ u, nameOver (d :: y ++ Ascii.newline :: u) = true := by
  cases hw with
  | blanks hne hblank =>
      obtain ⟨d, y, rfl⟩ := List.exists_cons_of_ne_nil hne
      exact ⟨d, y, rfl, hblank d (by simp), fun u => nameOver_append_blank hblank rfl⟩
  | note hnote => exact ⟨_, _, rfl, rfl, fun u => rfl⟩

section

variable {read : Text} {k : Kind} (h : Passes c p x ts c' (read ++ (w ++ Ascii.newline :: u)))
include h

theorem Passes.ends_after_white
    (hl : lexeme c' (read ++ Ascii.newline :: u) = some ⟨some .white, read.length⟩)
    (hw : IsTrailing w) (q : Int) :
    Ends c p (ts ++ [⟨.white, read, q⟩]) (x ++ (read ++ w)) (Ascii.newline :: u) := by
  rw [← List.append_assoc] at h
  cases formed_of_lexeme hl rfl with
  | white hne hread _ _ hmark =>
      cases hw with
      | blanks _ hblank =>
          have hall : ∀ b ∈ read ++ w, isBlank b = true := fun b hb =>
            (List.mem_append.1 hb).elim (hread b) (hblank b)
          have hl' : lexeme c' (read ++ w ++ Ascii.newline :: u) = _ :=
            lexeme_white (List.append_ne_nil_of_left_ne_nil hne w) hall rfl rfl hmark
          exact (h.snoc hl').ends_white (by simp [isWhite]) (by simp [Lexeme.token, isWhite])
      | @note note hnote =>
          have hall : ∀ b ∈ read ++ [Ascii.space], isBlank b = true := fun b hb =>
            (List.mem_append.1 hb).elim (hread b) (isBlank_of_mem_space b)
          have hl' : lexeme c'
              (read ++ [Ascii.space] ++ (commentMark ++ note) ++ Ascii.newline :: u) = _ :=
            lexeme_note hall (Or.inl (by simp)) hnote
          rw [List.append_assoc read] at hl'
          exact (h.snoc hl').ends_white (by simp [isWhite]) (by simp [Lexeme.token])

theorem Passes.ends_after_operator
    (hl : lexeme c' (read ++ Ascii.newline :: u) = some ⟨some k, read.length⟩)
    (hk : k = .pipe ∨ ∃ op, k = .binding op) (hw : IsTrailing w) (q : Int) :
    Ends c p (ts ++ [⟨k, read, q⟩]) (x ++ (read ++ w)) (Ascii.newline :: u) := by
  have hlike : ∀ (read' : Text) (q' : Int), Like ⟨k, read, q⟩ ⟨k, read', q'⟩ := by
    intro read' q'
    rcases hk with rfl | ⟨op, rfl⟩ <;> exact ⟨rfl, rfl⟩
  cases hw with
  | blanks _ hblank =>
      rw [← List.append_assoc] at h
      exact (h.snoc (lexeme_operator_trailing hl hk hblank rfl)).ends_like (hlike _ _)
  | @note note hnote =>
      have hcat : read ++ (Ascii.space :: (commentMark ++ note) ++ Ascii.newline :: u) =
          read ++ [Ascii.space] ++ (commentMark ++ note ++ Ascii.newline :: u) := by simp
      have hinside : k.isInside = true := by
        rcases hk with rfl | ⟨op, rfl⟩ <;> rfl
      rw [hcat] at h
      have hpass := h.snoc (lexeme_operator_trailing hl hk isBlank_of_mem_space rfl)
      -- The operator ends with the blank, so the comment may start at once.
      have hne : read ++ [Ascii.space] ≠ [] := by simp
      obtain ⟨hstart, hblank⟩ := Context.after_inside (c := c')
        (n := (read ++ [Ascii.space]).length) hinside hne
      have hcomment : lexeme (c'.after ⟨some k, (read ++ [Ascii.space]).length⟩
          (read ++ [Ascii.space])) ([] ++ (commentMark ++ note) ++ Ascii.newline :: u) = _ :=
        lexeme_note (by simp) (Or.inr ⟨hstart, hblank.2 ⟨read, Ascii.space, rfl, rfl⟩⟩) hnote
      have hwhole : x ++ (read ++ [Ascii.space]) ++ (commentMark ++ note) =
          x ++ (read ++ Ascii.space :: (commentMark ++ note)) := by simp
      have hpass' := hpass.snoc hcomment
      rw [hwhole] at hpass'
      simp only [Lexeme.token, List.append_nil] at hpass'
      exact hpass'.ends_like (hlike _ _)

theorem Passes.ends_after_rule
    (hl : lexeme c' (read ++ Ascii.newline :: u) = some ⟨some k, read.length⟩)
    (hk : k = .rule ∨ k = .doubleRule) (hw : ∀ b ∈ w, isBlank b = true) (q : Int) :
    Ends c p (ts ++ [⟨k, read, q⟩]) (x ++ (read ++ w)) (Ascii.newline :: u) := by
  rw [← List.append_assoc] at h
  apply (h.snoc (lexeme_rule_trailing hl hk hw)).ends_like
  rcases hk with rfl | rfl <;> exact ⟨rfl, rfl⟩

end

/-- Layout at the end of a line leaves its tokens as they are, up to spelling and white space. A
rule takes blanks, but is none before a comment. -/
theorem Passes.ends_trailing (h : Passes c p x ts c' (Ascii.newline :: u)) (hw : IsTrailing w)
    (hrule : (∀ b ∈ w, isBlank b = true) ∨
      ∀ t ∈ ts.getLast?, t.kind ≠ .rule ∧ t.kind ≠ .doubleRule) :
    Ends c p ts (x ++ w) (Ascii.newline :: u) := by
  cases h with
  | nil => exact (Passes.nil).ends_apart hw
  | @snoc x read _ ts c' k h hl =>
      obtain ⟨d, y, rfl, hd, hstops⟩ := hw.cases
      have hread : read ≠ [] := List.length_pos_iff.1 (lexeme_pos hl)
      have hway : Passes c p x ts c' (read ++ (d :: y ++ Ascii.newline :: u)) :=
        h.alike (alike_blank hread hd (hstops u) u)
      have hapart : lexeme c' (read ++ (d :: y ++ Ascii.newline :: u)) = some ⟨k, read.length⟩ →
          Ends c p (ts ++ Lexeme.token ⟨k, read.length⟩ read (p + x.length))
            (x ++ read ++ d :: y) (Ascii.newline :: u) := fun hl' => (hway.snoc hl').ends_apart hw
      rw [List.append_assoc] at hapart ⊢
      cases spelled_of_lexeme hl with
      | continuation hline => exact hapart (lexeme_continuation hline)
      | comment hcomment =>
          rw [← List.append_assoc] at hway
          have hl' := lexeme_comment_trailing hl hcomment (by simpa using hd) hw.newline_not_mem
          exact (hway.snoc hl').ends
      | @rule k _ _ hk =>
          have hlast : (⟨k, read, (p + x.length : Nat)⟩ : Token) ∈
              (ts ++ Lexeme.token ⟨some k, read.length⟩ read (p + x.length)).getLast? := by
            rw [Lexeme.token, List.getLast?_concat]
            rfl
          have hblank := hrule.resolve_right fun hnot =>
            hk.elim (hnot _ hlast).1 (hnot _ hlast).2
          exact hway.ends_after_rule hl hk hblank _
      | newline => exact hapart (lexeme_newline _ _)
      | @inside k _ _ hk =>
          by_cases hwhite : k = .white
          · subst hwhite
            exact hway.ends_after_white hl hw _
          by_cases hoperator : k = .pipe ∨ ∃ op, k = .binding op
          · exact hway.ends_after_operator hl hoperator hw _
          · apply hapart
            apply (replaces_blank hd (hstops u) u).lexeme_eq hl hk (by simp)
            rintro (rfl | hk)
            · exact absurd rfl hwhite
            · exact absurd hk hoperator

end

theorem scanFrom_newline (c : Context) (p : Nat) (rest : Text) :
    scanFrom c p (Ascii.newline :: rest) =
      ⟨.newline, [Ascii.newline], p⟩ :: scanFrom ⟨true, false⟩ (p + 1) rest := by
  have hl : lexeme c ([Ascii.newline] ++ rest) = _ := lexeme_newline c rest
  exact scanFrom_append hl

/-- Lines whose tokens end alike are read alike, and so are the lines below them. -/
theorem Ends.split_padded {ts : List Token} {x w rest : Text}
    (h : Ends ⟨true, false⟩ 0 ts (x ++ w) (Ascii.newline :: rest)) {n : Token}
    (hn : n.kind = .newline) :
    List.Forall₂ Line.Padded
      (Line.split (ts ++ n :: scanFrom ⟨true, false⟩ (x.length + 1) rest))
      (Line.split (tokenize (x ++ w ++ Ascii.newline :: rest))) := by
  obtain ⟨body, body', pad, pad', c, rfl, hbody, hpad, hpad', hpass⟩ := h
  rw [tokenize, hpass.scanFrom_eq, scanFrom_newline, List.append_assoc, List.append_assoc]
  exact Line.split_padded hbody hpad hpad' hn rfl (like_scanFrom _ _ _ _)

end Token

namespace Document

open Statement (outcome)

/-- Layout put in before a newline changes no statement. It may be any blanks, and a comment after
a space unless the line is a rule. -/
theorem parse_insert_trailing [Locator] (file : Text) {text w : Text} {ts us : List Token}
    {n : Token} (htokens : tokenize text = ts ++ n :: us) (hn : n.kind = .newline)
    (hw : (∀ b ∈ w, Text.isBlank b = true) ∨
      ∃ note, w = Ascii.space :: (Token.commentMark ++ note) ∧ Ascii.newline ∉ note ∧
        ∀ t ∈ ts.getLast?, t.kind ≠ .rule ∧ t.kind ≠ .doubleRule)
    (hlocated : Locatable text) (hlocated' : Locatable (text.insertAt w n.offset)) :
    ∃ d d', parse file text = .ok d ∧ parse file (text.insertAt w n.offset) = .ok d' ∧
      d'.statements.map outcome = d.statements.map outcome := by
  obtain ⟨x, read, rest, c, rfl, hpass, hl, hoffset⟩ :=
    Token.exists_passes htokens (by rw [hn]; nofun)
  rw [hn] at hl
  obtain rfl := Token.eq_newline_of_lexeme hl
  have hus : us = Token.scanFrom ⟨true, false⟩ (x.length + 1) rest := by
    have hsame := hpass.scanFrom_eq
    rw [show Token.scanFrom _ _ _ = _ from htokens, List.singleton_append,
      Token.scanFrom_newline, Nat.zero_add] at hsame
    exact (List.cons.inj (List.append_cancel_left hsame)).2
  have hinsert : (x ++ ([Ascii.newline] ++ rest)).insertAt w n.offset =
      x ++ w ++ Ascii.newline :: rest := by
    rw [hoffset, Nat.zero_add, Text.insertAt_append, List.append_assoc]
    rfl
  have hends : Token.Ends ⟨true, false⟩ 0 ts (x ++ w) (Ascii.newline :: rest) := by
    by_cases hnil : w = []
    · rw [hnil, List.append_nil]
      exact hpass.ends
    · rcases hw with hblank | ⟨note, rfl, hnote, hrule⟩
      · exact hpass.ends_trailing (.blanks hnil hblank) (Or.inl hblank)
      · exact hpass.ends_trailing (.note hnote) (Or.inr hrule)
  have hpadded := hends.split_padded hn
  rw [← hus, ← htokens, ← hinsert] at hpadded
  obtain ⟨d, hd, hstatements⟩ := parse_locatable file hlocated
  obtain ⟨d', hd', hstatements'⟩ := parse_locatable file hlocated'
  refine ⟨d, d', hd, hd', ?_⟩
  rw [hstatements, hstatements', Statement.outcome_padded hpadded]

/-- A title stays one with a comment after it, and the bar in its block is refused as before. -/
theorem parse_insert_trailing_title :
    Locatable (utf8 "pet\n===\na cat |\n---") ∧ Locatable (utf8 "pet -- name\n===\na cat |\n---") ∧
    ∃ d d', parse [] (utf8 "pet\n===\na cat |\n---") = .ok d ∧
      parse [] (utf8 "pet -- name\n===\na cat |\n---") = .ok d' ∧
      d.statements = [.error ⟨.operatorWithoutName, ⟨.pipe, utf8 " |", 13⟩⟩] ∧
      d'.statements = [.error ⟨.operatorWithoutName, ⟨.pipe, utf8 " |", 21⟩⟩] ∧
      d'.statements.map outcome = d.statements.map outcome := by
  have hlocated : Locatable (utf8 "pet\n===\na cat |\n---") := by decide +kernel
  have hlocated' : Locatable (utf8 "pet -- name\n===\na cat |\n---") := by decide +kernel
  have htokens : tokenize (utf8 "pet\n===\na cat |\n---") =
      [⟨.name, utf8 "pet", 0⟩] ++ ⟨.newline, utf8 "\n", 3⟩ ::
        [⟨.doubleRule, utf8 "===", 4⟩, ⟨.newline, utf8 "\n", 7⟩, ⟨.name, utf8 "a cat", 8⟩,
          ⟨.pipe, utf8 " |", 13⟩, ⟨.newline, utf8 "\n", 15⟩, ⟨.rule, utf8 "---", 16⟩,
          ⟨.eof, [], 19⟩] := by decide +kernel
  have hnote : Ascii.newline ∉ utf8 " name" := by decide
  have hlast : ∀ t ∈ [(⟨.name, utf8 "pet", 0⟩ : Token)].getLast?,
      t.kind ≠ .rule ∧ t.kind ≠ .doubleRule := by simp
  obtain ⟨d, d', hd, hd', hsame⟩ := parse_insert_trailing [] htokens rfl
    (Or.inr ⟨utf8 " name", rfl, hnote, hlast⟩) hlocated hlocated'
  have hparse : parse [] (utf8 "pet\n===\na cat |\n---") =
      .ok [.error ⟨⟨.operatorWithoutName, ⟨.pipe, utf8 " |", 13⟩⟩, 5, ⟨[], 3, 6⟩⟩] := by
    decide +kernel
  have hparse' : parse [] (utf8 "pet -- name\n===\na cat |\n---") =
      .ok [.error ⟨⟨.operatorWithoutName, ⟨.pipe, utf8 " |", 21⟩⟩, 5, ⟨[], 3, 6⟩⟩] := by
    decide +kernel
  obtain rfl := Except.ok.inj (hd.symm.trans hparse)
  obtain rfl := Except.ok.inj (hd'.symm.trans hparse')
  exact ⟨hlocated, hlocated', _, _, hd, hd', rfl, rfl, hsame⟩

end Document

end PoolProse
