import Mathlib.Data.List.DropRight
import PoolProse.Line
import PoolProse.Proofs.Lexeme

/-!
# The grammar of a line

Free text is a row of texts and closed groups, and the items of a binding are free texts with bars
between them. `verdict` decides membership by a scan that knows only the openers of the groups that
are still open: it finds the token that is to blame, or none, and then the line is derived by the
grammar.
-/
namespace PoolProse

/-- The text that a token stands for, unless it is a bracket or an operator. -/
def Token.literal? (t : Token) : Option Text :=
  match t.kind with
  | .white | .name | .number => some t.text
  | .escape => some (Token.decodeEscape t.text)
  | _ => none

namespace Line

/-! ## Derivations -/

/-- Texts and closed groups in a row, and the expression that each stands for. -/
inductive Segments : List Token → List Expr → Prop where
  | nil : Segments [] []
  | text {t : Token} {s : Text} {ts : List Token} {es : List Expr} (ht : t.literal? = some s)
      (h : Segments ts es) : Segments (t :: ts) (.lit s :: es)
  | group {o c : Token} {b : Bracket} {inner ts : List Token} {es fs : List Expr}
      (ho : o.kind = .opening b) (hc : c.kind = .closing b) (hinner : Segments inner es)
      (h : Segments ts fs) :
      Segments (o :: (inner ++ c :: ts)) (.group b (.concat es) :: fs)

def trim (ts : List Token) : List Token :=
  (ts.dropWhile Token.isWhite).rdropWhile Token.isWhite

/-- The tokens are free text that stands for `e`. White space at its ends does not count. -/
def IsText (ts : List Token) (e : Expr) : Prop := ∃ es, Segments (trim ts) es ∧ e = .concat es

/-- The tokens are free texts with bars between them, one for each item. -/
inductive IsItems : List Token → List Expr → Prop where
  | last {ts : List Token} {e : Expr} (h : IsText ts e) : IsItems ts [e]
  | more {ts us : List Token} {p : Token} {e : Expr} {es : List Expr} (h : IsText ts e)
      (hp : p.kind = .pipe) (hrest : IsItems us es) : IsItems (ts ++ p :: us) (e :: es)

/-- The tokens are a pool name: a name, a number, or a number and a name. -/
inductive IsPoolName : List Token → Text → Prop where
  | name {t : Token} (ht : t.kind = .name) : IsPoolName [t] t.text
  | number {t : Token} (ht : t.kind = .number) : IsPoolName [t] t.text
  | both {n t : Token} {ws : List Token} (hn : n.kind = .number)
      (hws : ∀ w ∈ ws, w.kind = .white) (ht : t.kind = .name) :
      IsPoolName (n :: (ws ++ [t])) (n.text ++ ws.flatMap Token.text ++ t.text)

/-- The line binds the pool `name`: it starts with that name, and the operator follows at once. -/
def Binds (line : Line) (name : Text) (op : Binding) (rest : List Token) : Prop :=
  ∃ head t, line = head ++ t :: rest ∧ IsPoolName head name ∧ t.kind = .binding op

/-! ## The scan with a stack of openers -/

/-- What is wrong with a token after the groups in `stack` were opened, the innermost first. -/
def offence (items : Bool) (stack : List Token) (t : Token) : Option SyntaxError.Cause :=
  match t.kind with
  | .closing b =>
    if stack.head?.map Token.kind = some (.opening b) then none else some .unmatchedGroup
  | .binding _ => some .operatorWithoutName
  | .pipe => if items && stack.isEmpty then none else some .operatorWithoutName
  | _ => none

def restack (stack : List Token) (t : Token) : List Token :=
  match t.kind with
  | .opening _ => t :: stack
  | .closing _ => stack.tail
  | _ => stack

/-- The error that a scan from left to right finds: the first token that offends, or else the
innermost group that is never closed. -/
def verdict (items : Bool) (stack : List Token) : List Token → Option SyntaxError
  | [] => stack.head?.map fun o => ⟨.unmatchedGroup, o⟩
  | t :: ts =>
    match offence items stack t with
    | some cause => some ⟨cause, t⟩
    | none => verdict items (restack stack t) ts

/-- What a line says. A line that binds a pool is judged by what follows its operator, with bars
between items, and any other line as a whole. -/
inductive Reads (line : Line) : Except SyntaxError Expr → Prop where
  | binding {name : Text} {op : Binding} {rest : List Token} {items : List Expr}
      (h : Binds line name op rest) (hrest : IsItems rest items) :
      Reads line (.ok (.bind op name items))
  | badBinding {name : Text} {op : Binding} {rest : List Token} {e : SyntaxError}
      (h : Binds line name op rest) (hrest : verdict true [] rest = some e) : Reads line (.error e)
  | text {e : Expr} (h : ∀ name op rest, ¬ Binds line name op rest) (htext : IsText line e) :
      Reads line (.ok e)
  | badText {e : SyntaxError} (h : ∀ name op rest, ¬ Binds line name op rest)
      (htext : verdict false [] line = some e) : Reads line (.error e)

/-! ## Without an error there is a derivation -/

/-- The tokens close the groups in `stack`, with segments before, between and after the closing
brackets, and are divided by bars after that if `items` is set. -/
inductive Closes (items : Bool) : List Token → List Token → Prop where
  | done {ts : List Token} {es : List Expr} (h : Segments ts es) : Closes items [] ts
  | close {o c : Token} {b : Bracket} {stack inner ts : List Token} {es : List Expr}
      (ho : o.kind = .opening b) (hc : c.kind = .closing b) (hinner : Segments inner es)
      (h : Closes items stack ts) : Closes items (o :: stack) (inner ++ c :: ts)
  | bar {p : Token} {ts us : List Token} {es : List Expr} (hitems : items = true)
      (hp : p.kind = .pipe) (h : Segments ts es) (hrest : Closes items [] us) :
      Closes items [] (ts ++ p :: us)

theorem Closes.text {items : Bool} {stack ts : List Token} {t : Token} {s : Text}
    (ht : t.literal? = some s) (h : Closes items stack ts) : Closes items stack (t :: ts) := by
  cases h with
  | done h => exact .done (.text ht h)
  | close ho hc hinner h => exact .close ho hc (.text ht hinner) h
  | bar hitems hp h hrest => exact .bar hitems hp (.text ht h) hrest

theorem Closes.group {items : Bool} {stack ts : List Token} {o : Token}
    (h : Closes items (o :: stack) ts) : Closes items stack (o :: ts) := by
  cases h with
  | @close _ c b _ inner ts es ho hc hinner h =>
      cases h with
      | done h => exact .done (.group ho hc hinner h)
      | close ho' hc' hinner' h =>
          have hcat := Closes.close ho' hc' (.group ho hc hinner hinner') h
          rwa [List.cons_append, List.append_assoc] at hcat
      | bar hitems hp h hrest =>
          have hcat := Closes.bar hitems hp (.group ho hc hinner h) hrest
          rwa [List.cons_append, List.append_assoc] at hcat

theorem token_cases {t : Token} (h : t.kind.isInside = true) :
    (∃ s, t.literal? = some s) ∨ (∃ b, t.kind = .opening b) ∨ (∃ b, t.kind = .closing b) ∨
      t.kind = .pipe ∨ ∃ op, t.kind = .binding op := by
  unfold Token.literal?
  cases hk : t.kind <;> simp_all [Token.Kind.isInside]

theorem offence_literal {t : Token} {s : Text} (items : Bool) (stack : List Token)
    (ht : t.literal? = some s) : offence items stack t = none ∧ restack stack t = stack := by
  unfold Token.literal? at ht
  unfold offence restack
  cases hk : t.kind <;> simp_all

theorem closes_of_verdict {items : Bool} {stack ts : List Token}
    (hin : ∀ t ∈ ts, t.kind.isInside = true) (h : verdict items stack ts = none) :
    Closes items stack ts := by
  induction ts generalizing stack with
  | nil =>
      cases stack with
      | nil => exact .done .nil
      | cons o stack => cases h
  | cons t ts ih =>
      obtain ⟨ht, hin⟩ := List.forall_mem_cons.1 hin
      rw [verdict] at h
      cases ho : offence items stack t with
      | some cause => rw [ho] at h; cases h
      | none =>
          rw [ho] at h
          have hrest := ih hin h
          rcases token_cases ht with ⟨s, hs⟩ | ⟨b, hb⟩ | ⟨b, hb⟩ | hp | ⟨op, hop⟩
          · rw [(offence_literal items stack hs).2] at hrest
            exact hrest.text hs
          · simp only [restack, hb] at hrest
            exact hrest.group
          · simp only [offence, hb] at ho
            simp only [restack, hb] at hrest
            cases stack with
            | nil => simp at ho
            | cons o stack =>
                have hopen : o.kind = .opening b := by simpa using ho
                exact .close hopen hb .nil hrest
          · simp only [offence, hp] at ho
            simp only [restack, hp] at hrest
            have hempty : items = true ∧ stack = [] := by simpa using ho
            obtain ⟨hitems, rfl⟩ := hempty
            exact .bar hitems hp .nil hrest
          · simp only [offence, hop] at ho
            cases ho

/-! ## White space at the ends -/

theorem Segments.dropWhile {ts : List Token} {es : List Expr} (h : Segments ts es) :
    ∃ fs, Segments (ts.dropWhile Token.isWhite) fs := by
  induction h with
  | nil => exact ⟨[], .nil⟩
  | @text t s ts es ht h ih =>
      by_cases hw : t.isWhite = true
      · rw [List.dropWhile_cons_of_pos hw]
        exact ih
      · rw [List.dropWhile_cons_of_neg hw]
        exact ⟨_, .text ht h⟩
  | @group o c b inner ts es fs ho hc hinner h _ _ =>
      have hw : ¬ o.isWhite = true := by simp [Token.isWhite, ho]
      rw [List.dropWhile_cons_of_neg hw]
      exact ⟨_, .group ho hc hinner h⟩

theorem Segments.of_append_white {ts : List Token} {w : Token} {es : List Expr}
    (hw : w.isWhite = true) (h : Segments (ts ++ [w]) es) : ∃ fs, Segments ts fs := by
  generalize hcat : ts ++ [w] = us at h
  induction h generalizing ts with
  | nil => simp at hcat
  | @text t s us es ht h ih =>
      cases ts with
      | nil => exact ⟨[], .nil⟩
      | cons u ts =>
          obtain ⟨hut, htail⟩ := List.cons.inj hcat
          obtain ⟨fs, hfs⟩ := ih htail
          rw [hut]
          exact ⟨_, .text ht hfs⟩
  | @group o c b inner us es fs ho hc hinner h _ ih =>
      have hne : w ≠ c := by
        rintro rfl
        simp [Token.isWhite, hc] at hw
      rcases List.eq_nil_or_concat us with rfl | ⟨us, u, rfl⟩
      · have hlast := congrArg List.getLast? hcat
        rw [List.getLast?_concat, ← List.cons_append, List.getLast?_concat] at hlast
        exact absurd (Option.some.inj hlast) hne
      · have hinit : ts ++ [w] = (o :: (inner ++ c :: us)) ++ [u] := by
          rw [hcat]
          simp
        obtain ⟨rfl, hwu⟩ := List.append_inj' hinit rfl
        obtain rfl : w = u := by simpa using hwu
        obtain ⟨fs, hfs⟩ := ih List.concat_eq_append.symm
        exact ⟨_, .group ho hc hinner hfs⟩

theorem Segments.rdropWhile {ts : List Token} {es : List Expr} (h : Segments ts es) :
    ∃ fs, Segments (ts.rdropWhile Token.isWhite) fs := by
  induction ts using List.reverseRecOn generalizing es with
  | nil => exact ⟨[], .nil⟩
  | append_singleton ts t ih =>
      by_cases hw : t.isWhite = true
      · rw [List.rdropWhile_concat_pos _ _ _ hw]
        obtain ⟨fs, hfs⟩ := h.of_append_white hw
        exact ih hfs
      · rw [List.rdropWhile_concat_neg _ _ _ hw]
        exact ⟨es, h⟩

theorem trim_cases (ts : List Token) :
    ∃ before after, ts = before ++ (trim ts ++ after) ∧ (∀ w ∈ before, w.isWhite = true) ∧
      (∀ w ∈ after, w.isWhite = true) ∧ (∀ t ∈ (trim ts).head?, ¬ t.isWhite = true) ∧
      ∀ t ∈ (trim ts).getLast?, ¬ t.isWhite = true := by
  refine ⟨ts.takeWhile Token.isWhite, (ts.dropWhile Token.isWhite).rtakeWhile Token.isWhite,
    ?_, ?_, ?_, ?_, ?_⟩
  · rw [trim, List.rdropWhile_append_rtakeWhile, List.takeWhile_append_dropWhile]
  · intro w hw
    exact List.all_eq_true.1 List.all_takeWhile w hw
  · intro w hw
    exact List.mem_rtakeWhile_imp hw
  · intro t ht hwhite
    have hfirst := List.head?_dropWhile_not Token.isWhite ts
    obtain ⟨us, hus⟩ := List.rdropWhile_prefix Token.isWhite (ts.dropWhile Token.isWhite)
    rw [← hus, List.head?_append, ← trim, ht, Option.some_or] at hfirst
    simp [hwhite] at hfirst
  · intro t ht
    obtain ⟨hne, rfl⟩ := List.mem_getLast?_eq_getLast ht
    exact List.rdropWhile_last_not _ _ hne

theorem Segments.isText {ts : List Token} {es : List Expr} (h : Segments ts es) :
    ∃ e, IsText ts e := by
  obtain ⟨fs, hfs⟩ := h.dropWhile
  obtain ⟨gs, hgs⟩ := hfs.rdropWhile
  exact ⟨_, gs, hgs, rfl⟩

theorem isText_of_verdict {ts : List Token} (hin : ∀ t ∈ ts, t.kind.isInside = true)
    (h : verdict false [] ts = none) : ∃ e, IsText ts e := by
  cases closes_of_verdict hin h with
  | done h => exact h.isText
  | bar hitems => cases hitems

theorem Closes.isItems {items : Bool} {ts : List Token} (h : Closes items [] ts) :
    ∃ es, IsItems ts es := by
  generalize hstack : ([] : List Token) = stack at h
  induction h with
  | done h =>
      obtain ⟨e, he⟩ := h.isText
      exact ⟨[e], .last he⟩
  | close => cases hstack
  | bar hitems hp h _ ih =>
      obtain ⟨e, he⟩ := h.isText
      obtain ⟨es, hes⟩ := ih rfl
      exact ⟨e :: es, .more he hp hes⟩

theorem isItems_of_verdict {ts : List Token} (hin : ∀ t ∈ ts, t.kind.isInside = true)
    (h : verdict true [] ts = none) : ∃ es, IsItems ts es :=
  (closes_of_verdict hin h).isItems

end Line

end PoolProse
