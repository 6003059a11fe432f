import PoolProse.Proofs.Locating
import PoolProse.Proofs.PoolNames

/-!
# Tokens are read from their forms

The forms of the tokens say all that the matchers ask: a text that has the form of a token is
scanned as that token. For a name this takes one more look along the line, which may end after it
and make it a rule.
-/
namespace PoolProse

namespace Text

theorem blanks_append_of_blank {u : Text} (hu : ∀ b ∈ u, isBlank b = true) (v : Text) :
    blanks (u ++ v) = u.length + blanks v := by
  rw [blanks, List.takeWhile_append_of_pos hu, List.length_append, blanks]

end Text

namespace CodePoint

/-- A byte of a code point of several bytes, or a byte that is not UTF-8. -/
def isHigh (b : UInt8) : Bool := 0x80 ≤ b

theorem secondOk_of_not_high {b : UInt8} (hb : isHigh b = false) (a : UInt8) :
    secondOk a b = false := by
  rw [← Bool.not_eq_true]
  intro h
  simp [isHigh, high_of_secondOk h] at hb

theorem isTail_of_not_high {b : UInt8} (hb : isHigh b = false) : isTail b = false := by
  rw [← Bool.not_eq_true]
  intro h
  simp [isHigh, high_of_isTail h] at hb

theorem ofLead_takeWhile_isHigh (a : UInt8) (t : Text) :
    ofLead a (t.takeWhile isHigh) = ofLead a t := by
  match t with
  | [] => rfl
  | [b] =>
      cases hb : isHigh b with
      | true => simp [hb]
      | false => simp [hb, ofLead, secondOk_of_not_high hb]
  | [b, c] =>
      cases hb : isHigh b with
      | false => simp [hb, ofLead, secondOk_of_not_high hb]
      | true =>
          cases hc : isHigh c with
          | true => simp [hb, hc]
          | false => simp [hb, hc, ofLead, isTail_of_not_high hc]
  | b :: c :: d :: t =>
      cases hb : isHigh b with
      | false => simp [hb, ofLead, secondOk_of_not_high hb]
      | true =>
          cases hc : isHigh c with
          | false => simp [hb, hc, ofLead, isTail_of_not_high hc]
          | true =>
              cases hd : isHigh d with
              | true => simp [hb, hc, hd, ofLead]
              | false => simp [hb, hc, hd, ofLead, isTail_of_not_high hd]

theorem ofLead_congr {s s' : Text} (h : s'.takeWhile isHigh = s.takeWhile isHigh) (a : UInt8)
    (x : Text) : ofLead a (x ++ s') = ofLead a (x ++ s) := by
  rw [← ofLead_takeWhile_isHigh a (x ++ s'), ← ofLead_takeWhile_isHigh a (x ++ s),
    List.takeWhile_append, List.takeWhile_append, h]

theorem bytes_ofLead_wide {a : UInt8} {x s : Text} (h : (ofLead a (x ++ s)).bytes = a :: x)
    (hwide : (ofLead a (x ++ s)).Wide) (s' : Text) : (ofLead a (x ++ s')).bytes = a :: x := by
  have hcodes := hwide.codePoints s'
  rw [h, List.cons_append, Text.codePoints, Text.codePointsFrom] at hcodes
  rw [(List.cons.inj hcodes).1, h]

theorem bytes_ofLead_append {a : UInt8} {x s s' : Text} (h : (ofLead a (x ++ s)).bytes = a :: x)
    (hs' : ∀ b ∈ s'.head?, isHigh b = false) : (ofLead a (x ++ s')).bytes = a :: x := by
  have hnil : s'.takeWhile isHigh = [] := by
    cases s' with
    | nil => rfl
    | cons b s' => simp [hs' b rfl]
  have hcut : ofLead a (x ++ s') = ofLead a (x ++ []) :=
    ofLead_congr hnil a x
  have halone : (ofLead a []).bytes = [a] := by
    unfold ofLead
    repeat' split
    all_goals first | rfl | contradiction
  rw [hcut]
  rcases ofLead_cases a (x ++ s) with ⟨-, hone⟩ | hstray | hwide
  · rw [hone] at h
    obtain rfl := (List.cons.inj h).2
    exact halone
  · rw [hstray] at h
    obtain rfl := (List.cons.inj h).2
    exact halone
  · exact bytes_ofLead_wide h hwide []

end CodePoint

namespace Token

open Text (isBlank isDigit blanks atLineEnd)

theorem spelled_of_lexeme {c : Context} {k : Option Kind} {read rest : Text}
    (h : lexeme c (read ++ rest) = some ⟨k, read.length⟩) : Spelled c k read rest := by
  have hspelled := (lexeme_fits h).2
  rwa [List.take_left' rfl, List.drop_left' rfl] at hspelled

theorem formed_of_lexeme {c : Context} {k : Kind} {read rest : Text}
    (h : lexeme c (read ++ rest) = some ⟨some k, read.length⟩) (hk : k.isInside = true) :
    Formed k read rest := by
  have hform := (lexeme_formed h hk).1
  rwa [List.take_left' rfl, List.drop_left' rfl] at hform

/-! ## A text of the form of a token is that token -/

section

variable {c : Context} {t : Text}

theorem continuation_of_head (h : t.head? ≠ some Ascii.backslash) : continuation c t = none := by
  cases t with
  | nil => rfl
  | cons b t =>
      have hb : Ascii.backslash ≠ b := fun he => h (congrArg some he.symm)
      simp [continuation, hb]

theorem continuation_eq_none_iff :
    continuation c t = none ↔ ∀ line, IsContinuation line → ¬ line <+: t := by
  simp only [continuation, IsContinuation, List.isPrefixOf_iff_prefix]
  constructor
  · intro h line hline hstarts
    rcases hline with rfl | rfl
    · simp [hstarts] at h
    · rw [if_pos hstarts] at h
      split at h <;> cases h
  · intro h
    rw [if_neg (h _ (Or.inl rfl)), if_neg (h _ (Or.inr rfl))]

theorem IsContinuation.exists_backslash {line : Text} (h : IsContinuation line) (t : Text) :
    ∃ y, line ++ t = Ascii.backslash :: y := by
  rcases h with rfl | rfl
  · exact ⟨_, rfl⟩
  · exact ⟨_, rfl⟩

theorem lexeme_continuation {line : Text} (hline : IsContinuation line) :
    lexeme c (line ++ t) = some ⟨none, line.length⟩ := by
  rw [lexeme_eq_or]
  rcases hline with rfl | rfl <;> rfl

theorem ruleOf_of_head {m : UInt8} (k : Kind) (h : t.head? ≠ some m) : ruleOf m k t = none := by
  cases t with
  | nil => rfl
  | cons b t =>
      have hb : b ≠ m := fun he => h (congrArg some he)
      simp [ruleOf, hb]

theorem rule_of_head (hdash : t.head? ≠ some Ascii.dash) (hequals : t.head? ≠ some Ascii.equals) :
    rule c t = none := by
  simp [rule, ruleOf_of_head _ hdash, ruleOf_of_head _ hequals]

theorem operator_eq_some {k : Kind} {before sym after rest : Text}
    (hbefore : ∀ b ∈ before, isBlank b = true) (hsym : blanks (sym ++ (after ++ rest)) = 0)
    (hat : operatorAt (sym ++ (after ++ rest)) = some (k, sym.length))
    (hafter : ∀ b ∈ after, isBlank b = true) (hrest : blanks rest = 0) :
    operator c (before ++ (sym ++ (after ++ rest))) =
      some ⟨some k, (before ++ (sym ++ after)).length⟩ := by
  have hcount : blanks (before ++ (sym ++ (after ++ rest))) = before.length := by
    rw [Text.blanks_append_of_blank hbefore, hsym, Nat.add_zero]
  have hcount' : blanks (after ++ rest) = after.length := by
    rw [Text.blanks_append_of_blank hafter, hrest, Nat.add_zero]
  rw [operator, hcount, List.drop_left' rfl, hat]
  simp only [← List.drop_drop, List.drop_left' rfl, hcount', List.length_append, Nat.add_assoc]

theorem comment_of_head (hdash : (t.dropWhile isBlank).head? ≠ some Ascii.dash) :
    comment c t = none := by
  rw [comment_eq_none_iff]
  rintro - ⟨u, hu⟩
  rw [blanks, Text.drop_takeWhile_length] at hu
  rw [← hu] at hdash
  exact hdash rfl

theorem lexeme_of_inked {b : UInt8} (hcontinuation : continuation c (b :: t) = none)
    (hrule : rule c (b :: t) = none) (hcomment : comment c (b :: t) = none)
    (hblank : isBlank b = false) (hoperator : operatorAt (b :: t) = none) :
    lexeme c (b :: t) = (newline c (b :: t)).or ((bracket c (b :: t)).or ((escape c (b :: t)).or
      ((number c (b :: t)).or (name c (b :: t))))) := by
  have hzero : blanks (b :: t) = 0 := by simp [blanks, hblank]
  have hnone : operator c (b :: t) = none := by
    rw [operator_eq_none_iff, hzero, List.drop_zero, hoperator]
  have hwhite : white c (b :: t) = none := by simp [white, hzero]
  rw [lexeme_eq_or, hcontinuation, hrule, hcomment, hnone, hwhite]
  rfl

theorem lexeme_of_head {b : UInt8} (hcontinuation : continuation c (b :: t) = none)
    (hdash : b ≠ Ascii.dash) (hequals : b ≠ Ascii.equals) (hblank : isBlank b = false)
    (hoperator : operatorAt (b :: t) = none) :
    lexeme c (b :: t) = (newline c (b :: t)).or ((bracket c (b :: t)).or ((escape c (b :: t)).or
      ((number c (b :: t)).or (name c (b :: t))))) := by
  apply lexeme_of_inked hcontinuation ?_ ?_ hblank hoperator
  · apply rule_of_head
    · exact fun h => hdash (Option.some.inj h)
    · exact fun h => hequals (Option.some.inj h)
  · apply comment_of_head
    rw [List.dropWhile_cons_of_neg (by simp [hblank])]
    exact fun h => hdash (Option.some.inj h)

end

section

variable {c : Context} {k : Kind} {read rest : Text}

theorem lexeme_operator {before sym after : Text} (hbefore : ∀ b ∈ before, isBlank b = true)
    (hsym : ∀ b ∈ (sym ++ (after ++ rest)).head?, isBlank b = false ∧ b ≠ Ascii.backslash ∧
      b ≠ Ascii.dash ∧ b ≠ Ascii.equals)
    (hat : operatorAt (sym ++ (after ++ rest)) = some (k, sym.length))
    (hafter : ∀ b ∈ after, isBlank b = true) (hrest : blanks rest = 0) :
    lexeme c (before ++ (sym ++ (after ++ rest))) =
      some ⟨some k, (before ++ (sym ++ after)).length⟩ := by
  have hzero : blanks (sym ++ (after ++ rest)) = 0 := by
    rw [Text.blanks_eq_zero_iff]
    exact fun b hb => (hsym b hb).1
  have hdrop : (before ++ (sym ++ (after ++ rest))).dropWhile isBlank = sym ++ (after ++ rest) := by
    rw [List.dropWhile_append_of_pos hbefore, Text.dropWhile_of_blanks hzero]
  have hhead : ∀ b ∈ (before ++ (sym ++ (after ++ rest))).head?, b ≠ Ascii.backslash ∧
      b ≠ Ascii.dash ∧ b ≠ Ascii.equals := by
    intro b hb
    cases before with
    | nil => exact (hsym b hb).2
    | cons a before =>
        obtain rfl := Option.some.inj hb
        rcases Text.isBlank_iff.1 (hbefore a (by simp)) with rfl | rfl | rfl <;> decide
  have hcomment : comment c (before ++ (sym ++ (after ++ rest))) = none := by
    apply comment_of_head
    rw [hdrop]
    exact fun hdash => (hsym _ hdash).2.2.1 rfl
  rw [lexeme_eq_or, continuation_of_head fun h => (hhead _ h).1 rfl,
    rule_of_head (fun h => (hhead _ h).2.1 rfl) (fun h => (hhead _ h).2.2 rfl), hcomment,
    operator_eq_some hbefore hzero hat hafter hrest]
  rfl

theorem lexeme_bracket {b : UInt8} (hb : bracketKind b = some k) :
    lexeme c (b :: rest) = some ⟨some k, 1⟩ := by
  have hother : ∀ a, bracketKind a = none → b ≠ a := by
    rintro a ha rfl
    rw [hb] at ha
    cases ha
  have hblank : isBlank b = false := by
    simp [isBlank, hother Ascii.space rfl, hother Ascii.tab rfl, hother Ascii.carriageReturn rfl]
  have hoperator : operatorAt (b :: rest) = none := by
    simp [operatorAt, hother Ascii.bar rfl, hother Ascii.colon rfl, hother Ascii.less rfl]
  have hnewline : newline c (b :: rest) = none := by
    simp [newline, hother Ascii.newline rfl]
  rw [lexeme_of_head (continuation_of_head ?_) (hother _ rfl) (hother _ rfl) hblank hoperator,
    hnewline, bracket, hb]
  · rfl
  · exact fun h => hother _ rfl (Option.some.inj h)

theorem escaped_ne_nil {r : Text} (hrest : rest ≠ [])
    (hr : r = ((CodePoint.first? (r ++ rest)).map CodePoint.bytes).getD []) : r ≠ [] := by
  rintro rfl
  obtain ⟨a, u, rfl⟩ := List.exists_cons_of_ne_nil hrest
  have hbytes : (CodePoint.ofLead a u).bytes = [] := hr.symm
  rcases CodePoint.ofLead_cases a u with ⟨-, hone⟩ | hstray | hwide
  · simp [hone] at hbytes
  · simp [hstray, CodePoint.stray] at hbytes
  · exact hwide.bytes_ne_nil hbytes

theorem lexeme_escape {r : Text}
    (hcontinuation : continuation c (Ascii.backslash :: (r ++ rest)) = none)
    (hr : r = ((CodePoint.first? (r ++ rest)).map CodePoint.bytes).getD []) :
    lexeme c (Ascii.backslash :: (r ++ rest)) = some ⟨some .escape, r.length + 1⟩ := by
  have hsize : ((CodePoint.first? (r ++ rest)).map CodePoint.size).getD 0 = r.length := by
    cases hfirst : CodePoint.first? (r ++ rest) with
    | none =>
        rw [hfirst] at hr
        simp [hr]
    | some p =>
        rw [hfirst] at hr
        simp [hr, CodePoint.size]
  rw [lexeme_of_head hcontinuation (by decide) (by decide) rfl rfl]
  have hescape : escape c (Ascii.backslash :: (r ++ rest)) = some ⟨some .escape, r.length + 1⟩ := by
    rw [escape, hsize, Nat.add_comm]
    rfl
  rw [hescape]
  rfl

theorem lexeme_white (hne : read ≠ []) (hread : ∀ b ∈ read, isBlank b = true)
    (hrest : blanks rest = 0) (hoperator : operatorAt rest = none)
    (hmark : ¬ commentMark <+: rest) :
    lexeme c (read ++ rest) = some ⟨some .white, read.length⟩ := by
  obtain ⟨b, u, rfl⟩ := List.exists_cons_of_ne_nil hne
  have hcount : blanks (b :: u ++ rest) = (b :: u).length := by
    rw [Text.blanks_append_of_blank hread, hrest, Nat.add_zero]
  have hoperator' : operator c (b :: u ++ rest) = none := by
    rw [operator_eq_none_iff, hcount, List.drop_left' rfl, hoperator]
  have hcomment : comment c (b :: u ++ rest) = none := by
    rw [comment_eq_none_iff, hcount, List.drop_left' rfl]
    exact fun _ => hmark
  have hwhite : white c (b :: u ++ rest) = some ⟨some .white, (b :: u).length⟩ := by
    rw [white, hcount]
    rfl
  have hother : ∀ a, isBlank a = false → (b :: u ++ rest).head? ≠ some a := by
    intro a ha he
    rw [← Option.some.inj he, hread b (by simp)] at ha
    cases ha
  have hnewline : newline c (b :: u ++ rest) = none := by
    have hb : b ≠ Ascii.newline := fun he => hother _ rfl (congrArg some he)
    simp [newline, hb]
  have hbracket : bracket c (b :: u ++ rest) = none := by
    rcases Text.isBlank_iff.1 (hread b (by simp)) with rfl | rfl | rfl <;> rfl
  have hescape : escape c (b :: u ++ rest) = none := by
    have hb : b ≠ Ascii.backslash := fun he => hother _ rfl (congrArg some he)
    simp [escape, hb]
  rw [lexeme_eq_or, continuation_of_head (hother _ rfl), rule_of_head (hother _ rfl) (hother _ rfl),
    hcomment, hoperator', hnewline, hbracket, hescape, hwhite]
  rfl

theorem lexeme_number (hne : read ≠ []) (hread : ∀ b ∈ read, isDigit b = true)
    (hrest : ∀ b ∈ rest.head?, isDigit b = false) :
    lexeme c (read ++ rest) = some ⟨some .number, read.length⟩ := by
  have hnumber : number c (read ++ rest) = some ⟨some .number, read.length⟩ := by
    have hstop : rest.takeWhile isDigit = [] := by
      cases rest with
      | nil => rfl
      | cons b rest => simp [hrest b rfl]
    simp only [number]
    rw [List.takeWhile_append_of_pos hread, hstop, List.append_nil]
    exact if_pos (List.length_pos_iff.2 hne)
  obtain ⟨b, u, rfl⟩ := List.exists_cons_of_ne_nil hne
  have hdigit := hread b (by simp)
  have hother : ∀ a, isDigit a = false → b ≠ a := by
    rintro a ha rfl
    rw [hdigit] at ha
    cases ha
  have hoperator : operatorAt (b :: (u ++ rest)) = none := by
    simp [operatorAt, hother Ascii.bar rfl, hother Ascii.colon rfl, hother Ascii.less rfl]
  rw [List.cons_append] at hnumber ⊢
  rw [lexeme_of_head (continuation_of_head ?_) (hother _ rfl) (hother _ rfl) (isBlank_digit hdigit)
    hoperator, hnumber]
  · simp [newline, bracket, bracketKind, escape, hother Ascii.newline rfl,
      hother Ascii.parenOpen rfl, hother Ascii.parenClose rfl, hother Ascii.braceOpen rfl,
      hother Ascii.braceClose rfl, hother Ascii.backslash rfl]
  · exact fun h => hother _ rfl (Option.some.inj h)

theorem lexeme_name (h : NameForm read rest) (hrule : rule c (read ++ rest) = none)
    (hcomment : comment c (read ++ rest) = none) :
    lexeme c (read ++ rest) = some ⟨some .name, read.length⟩ := by
  obtain ⟨b, u, rfl⟩ := List.exists_cons_of_ne_nil h.ne_nil
  obtain ⟨hblank, hdigit⟩ := h.first b rfl
  have hinner := h.inner [] b u rfl
  have hname : name c (b :: (u ++ rest)) = some ⟨some .name, (b :: u).length⟩ := by
    have htail := h.tail
    rw [List.tail_cons] at htail
    rw [name, htail, List.length_cons, Nat.add_comm]
  rw [List.cons_append] at hrule hcomment ⊢
  rw [lexeme_of_inked (continuation_of_head ?_) hrule hcomment hblank hinner.operator, hname]
  · simp [newline, bracket, escape, number, hinner.newline, hinner.bracket, hinner.backslash,
      hdigit]
  · exact fun h => hinner.backslash (Option.some.inj h)

/-- A text that has the form of a token is scanned as that token, unless it is the start of a
continued line, a rule or a comment. -/
theorem Formed.lexeme_eq (h : Formed k read rest)
    (hescape : k = .escape → continuation c (read ++ rest) = none)
    (hname : k = .name → rule c (read ++ rest) = none ∧ comment c (read ++ rest) = none) :
    lexeme c (read ++ rest) = some ⟨some k, read.length⟩ := by
  cases h with
  | @pipe before after _ hbefore hafter hrest =>
      have hcat : before ++ Ascii.bar :: after ++ rest =
          before ++ ([Ascii.bar] ++ (after ++ rest)) := by simp
      rw [hcat]
      refine lexeme_operator hbefore ?_ rfl hafter hrest
      intro b hb
      obtain rfl := Option.some.inj hb
      decide
  | @binding op before after _ hbefore hafter hrest =>
      rw [List.append_assoc, List.append_assoc]
      refine lexeme_operator hbefore ?_ (operatorAt_symbol op _) hafter hrest
      intro b hb
      cases op <;> (obtain rfl := Option.some.inj hb; decide)
  | @opening br => exact lexeme_bracket (bracketKind_opener br)
  | @closing br => exact lexeme_bracket (bracketKind_closer br)
  | @escape r _ hr =>
      exact lexeme_escape (hescape rfl) hr
  | white hne hread hrest hoperator hmark => exact lexeme_white hne hread hrest hoperator hmark
  | number hne hread hrest => exact lexeme_number hne hread hrest
  | name h => exact lexeme_name h (hname rfl).1 (hname rfl).2

end

/-! ## Names before another text -/

section

variable {c : Context} {read s s' : Text}

theorem NameForm.congr (h : NameForm read s) (hstops : nameOver s' = true)
    (hedge : ∀ a ∈ read.getLast?, SameEdge a s s') : NameForm read s' := by
  obtain ⟨b, y, rfl⟩ := List.exists_cons_of_ne_nil h.ne_nil
  have hfirst := h.first b rfl
  have hinner := h.inner [] b y rfl
  obtain ⟨hgoes, -⟩ := nameTail_append_iff.1 h.tail
  have hlast : ∀ x z, b :: y = x ++ z → ∀ d, z.dropWhile isBlank = [d] → SameEdge d s s' := by
    intro x z hcat d hd
    apply hedge
    rw [hcat, ← List.takeWhile_append_dropWhile (p := isBlank) (l := z), hd]
    simp
  apply nameForm_of_nameTail hfirst
  · refine ⟨hinner.newline, hinner.backslash, hinner.bracket, ?_, ?_⟩
    · have hoperator := hinner.operator
      rw [← List.cons_append] at hoperator ⊢
      rw [operatorAt_append_congr (by simp) ?_, hoperator]
      intro a ha
      apply hedge
      rw [ha]
      rfl
    · intro hb
      rw [hfirst.1] at hb
      cases hb
  · rw [nameTail_append_iff]
    refine ⟨?_, hstops⟩
    intro x a z hcat
    have hsplit : b :: y = (b :: x) ++ a :: z := by rw [hcat, List.cons_append]
    have hinked : ∃ d ∈ a :: z, isBlank d = false := by
      apply inked_of_last (x := b :: x)
      rw [← hsplit]
      exact h.last
    rw [← List.cons_append, nameOver_append_congr hinked (hlast _ _ hsplit),
      List.cons_append, hgoes x a z hcat]

theorem dropWhile_mark_of_nameOver {m : UInt8} (hm : m = Ascii.dash ∨ m = Ascii.equals)
    (hs : nameOver s = true) : s.takeWhile (· == m) = [] ∧ s.dropWhile (· == m) = s := by
  cases s with
  | nil => exact ⟨rfl, rfl⟩
  | cons a s =>
      have ha : (a == m) = false := by
        rw [beq_eq_false_iff_ne]
        rintro rfl
        rcases hm with rfl | rfl <;> cases hs
      simp [ha]

theorem isSome_ruleOf (m : UInt8) (k : Kind) (t : Text) : (ruleOf m k t).isSome =
    (decide (3 ≤ (t.takeWhile (· == m)).length) &&
      atLineEnd ((t.dropWhile (· == m)).dropWhile isBlank)) := by
  simp only [ruleOf, ← List.drop_drop, blanks, Text.drop_takeWhile_length]
  split
  case isTrue hc => rw [hc, Option.isSome_some]
  case isFalse hc => rw [Bool.eq_false_iff.2 hc, Option.isSome_none]

theorem isSome_ruleOf_name {m : UInt8} (k : Kind) (h : NameForm read s)
    (hm : m = Ascii.dash ∨ m = Ascii.equals) :
    (ruleOf m k (read ++ s)).isSome =
      (read.all (· == m) && (decide (3 ≤ read.length) && atLineEnd (s.dropWhile isBlank))) := by
  rw [isSome_ruleOf]
  cases hall : read.all (· == m) with
  | true =>
      obtain ⟨htake, hdrop⟩ :=
        dropWhile_mark_of_nameOver hm (nameTail_append_iff.1 h.tail).2
      have hmarks := List.all_eq_true.1 hall
      rw [List.takeWhile_append_of_pos hmarks, List.dropWhile_append_of_pos hmarks, htake, hdrop,
        List.append_nil, Bool.true_and]
  | false =>
      -- The marks end inside the name, and the blanks after them do too.
      have hne : read.dropWhile (· == m) ≠ [] := by
        rw [Ne, List.dropWhile_eq_nil_iff, ← List.all_eq_true, hall]
        exact Bool.false_ne_true
      obtain ⟨a, x, hx⟩ := List.exists_cons_of_ne_nil hne
      have hcat := List.takeWhile_append_dropWhile (p := (· == m)) (l := read)
      rw [hx] at hcat
      have hinked : ∃ b ∈ a :: x, isBlank b = false := by
        apply inked_of_last (x := read.takeWhile (· == m))
        rw [hcat]
        exact h.last
      obtain ⟨b, y, hy⟩ := List.exists_cons_of_ne_nil (dropWhile_ne_nil_of_inked hinked)
      have hb : b ∈ read := by
        rw [← hcat]
        apply List.mem_append_right
        apply List.dropWhile_subset
        rw [hy]
        exact List.mem_cons_self
      obtain ⟨u, v, huv⟩ := List.append_of_mem hb
      have hnewline := (h.inner u b v huv).newline
      rw [List.dropWhile_append, if_neg (by simpa using hne), hx,
        (Text.dropWhile_append_of_inked hinked).1, hy, List.cons_append, atLineEnd,
        beq_false_of_ne hnewline, Bool.and_false, Bool.false_and]

theorem rule_eq_none_iff {t : Text} : rule c t = none ↔ (c.lineStart = true →
    (ruleOf Ascii.dash .rule t).isSome = false ∧
      (ruleOf Ascii.equals .doubleRule t).isSome = false) := by
  cases hstart : c.lineStart <;> simp [rule, hstart]

/-- Where a token of a line is found no continued line and no rule starts. -/
theorem continuation_rule_of_lexeme {t : Text} {k : Kind} {n : Nat}
    (h : lexeme c t = some ⟨some k, n⟩) (hk : k.isInside = true) :
    continuation c t = none ∧ rule c t = none := by
  rw [lexeme_eq_or] at h
  rcases Option.or_eq_some_iff.1 h with h | ⟨hcontinuation, h⟩
  · unfold continuation at h
    repeat' split at h
    all_goals cases h
  rcases Option.or_eq_some_iff.1 h with h | ⟨hrule, -⟩
  · rcases rule_kind h with hkind | hkind
    all_goals
      rw [Option.some.inj hkind] at hk
      cases hk
  exact ⟨hcontinuation, hrule⟩

/-- A name is scanned as the same name before another text that ends it, unless only there it is
alone on its line. -/
theorem lexeme_name_congr (hl : lexeme c (read ++ s) = some ⟨some .name, read.length⟩)
    (hstops : nameOver s' = true) (hedge : ∀ a ∈ read.getLast?, SameEdge a s s')
    (hend : atLineEnd (s'.dropWhile isBlank) = true → atLineEnd (s.dropWhile isBlank) = true) :
    lexeme c (read ++ s') = some ⟨some .name, read.length⟩ := by
  have hcomment := (lexeme_formed hl rfl).2
  obtain ⟨-, hrule⟩ := continuation_rule_of_lexeme hl rfl
  have hname := (formed_of_lexeme hl rfl).nameForm
  have hname' := hname.congr hstops hedge
  apply lexeme_name hname'
  · rw [rule_eq_none_iff, isSome_ruleOf_name _ hname (Or.inl rfl),
      isSome_ruleOf_name _ hname (Or.inr rfl)] at hrule
    rw [rule_eq_none_iff, isSome_ruleOf_name _ hname' (Or.inl rfl),
      isSome_ruleOf_name _ hname' (Or.inr rfl)]
    cases hline : atLineEnd (s'.dropWhile isBlank) with
    | false => simp
    | true => rwa [hend hline] at hrule
  · have hzero : ∀ u, blanks (read ++ u) = 0 := by
      intro u
      obtain ⟨b, y, rfl⟩ := List.exists_cons_of_ne_nil hname.ne_nil
      simp [blanks, (hname.first b rfl).1]
    have hsame : ∀ a, read = [a] → SameEdge a s s' := by
      intro a ha
      apply hedge
      rw [ha]
      rfl
    rw [comment_eq_none_iff, hzero, List.drop_zero, ← List.isPrefixOf_iff_prefix] at hcomment ⊢
    rwa [commentMark_append_congr hname.ne_nil hsame]

end

end Token

end PoolProse
