import PoolProse.Proofs.PlainPools

/-!
# Normal form

What is read from a document is in normal form at every depth. Bindings stand at the root, chains of
mixes lean to the left, and literals are as long as they can be, so an empty one is all that its
item or its pool name has.
-/
namespace PoolProse

namespace Expr

/-! ## Places in an expression -/

/-- What an expression is to the one that it is a part of. -/
inductive Role where
  | root
  | left
  | right
  /-- The pool name of a group. -/
  | name
  /-- An item of a binding. -/
  | item

def parts : Expr → List (Role × Expr)
  | .lit _ => []
  | .mix l r => [(.left, l), (.right, r)]
  | .ref e => [(.name, e)]
  | .draw e => [(.name, e)]
  | .bind _ _ items => items.map (Prod.mk .item)
  | .missing => []

theorem parts_group (b : Bracket) (e : Expr) : (group b e).parts = [(.name, e)] := by
  cases b <;> rfl

/-- An expression occurs in itself, and its parts occur wherever it does. -/
inductive Occurs (whole : Expr) : Role → Expr → Prop where
  | root : Occurs whole .root whole
  | part {role role' : Role} {e f : Expr} (h : Occurs whole role e) (hf : (role', f) ∈ e.parts) :
      Occurs whole role' f

def isMix : Expr → Bool
  | .mix .. => true
  | _ => false

def isLit : Expr → Bool
  | .lit _ => true
  | _ => false

/-- What a tree of mixes mixes, from left to right. -/
def mixed : Expr → List Expr
  | .mix l r => mixed l ++ mixed r
  | e => [e]

structure Normal (whole : Expr) : Prop where
  bindings : ∀ role op name items, Occurs whole role (.bind op name items) →
    role = .root ∧ items ≠ []
  complete : ∀ role, ¬ Occurs whole role .missing
  right : ∀ role l r, Occurs whole role (.mix l r) → r.isMix = false
  operands : ∀ role l r, Occurs whole role (.mix l r) → .lit [] ∉ mixed (.mix l r)
  literals : ∀ role l r, Occurs whole role (.mix l r) →
    (mixed (.mix l r)).IsChain fun e f => ¬ (e.isLit = true ∧ f.isLit = true)
  empty : ∀ role, Occurs whole role (.lit []) → role = .item ∨ role = .name

/-! ## Rows as chains -/

variable {es fs : List Expr} {e : Expr}

theorem IsSegment.isMix {P : Text → Prop} (h : IsSegment P e) : e.isMix = false := by
  rcases h with ⟨s, -, -, rfl⟩ | ⟨b, name, -, rfl⟩
  · rfl
  · cases b <;> rfl

theorem IsSegment.mixed {P : Text → Prop} (h : IsSegment P e) : e.mixed = [e] := by
  rcases h with ⟨s, -, -, rfl⟩ | ⟨b, name, -, rfl⟩
  · rfl
  · cases b <;> rfl

theorem IsSegment.row {P : Text → Prop} (h : IsSegment P e) : Row P [e] := by
  rcases h with ⟨s, hne, hs, rfl⟩ | ⟨b, name, hname, rfl⟩
  · exact .lit hne hs (by simp) .nil
  · exact .group hname .nil

theorem Row.of_append {P : Text → Prop} (h : Row P (es ++ fs)) : Row P es := by
  induction es with
  | nil => exact .nil
  | cons e es ih =>
      rw [List.cons_append] at h
      cases h with
      | lit hne hs hadjacent h =>
          refine .lit hne hs ?_ (ih h)
          rintro t gs rfl
          exact hadjacent t _ List.cons_append
      | group hname h => exact .group hname (ih h)

theorem Row.mixed_mixAll {P : Text → Prop} (h : Row P es) (hne : es ≠ []) :
    (mixAll es).mixed = es := by
  have hsegment : ∀ e ∈ es, e.mixed = [e] := fun e he => (h.isSegment he).mixed
  refine parts_mixAll hne hsegment fun l e he => ?_
  rw [mixed, hsegment e he]

theorem Row.isChain {P : Text → Prop} (h : Row P es) :
    es.IsChain fun e f => ¬ (e.isLit = true ∧ f.isLit = true) := by
  induction h with
  | nil => exact .nil
  | @lit s es _ _ hadjacent _ ih =>
      cases es with
      | nil => exact .singleton _
      | cons f es =>
          refine .cons_cons ?_ ih
          rintro ⟨-, hlit⟩
          cases f with
          | lit t => exact hadjacent t es rfl
          | _ => cases hlit
  | @group b name es _ _ _ ih =>
      have hgroup : (Expr.group b (mixAll name)).isLit = false := by cases b <;> rfl
      cases es with
      | nil => exact .singleton _
      | cons f es => exact .cons_cons (by simp [hgroup]) ih

theorem Row.lit_nil_not_mem {P : Text → Prop} (h : Row P es) : .lit [] ∉ es := by
  intro hmem
  rcases h.isSegment hmem with ⟨s, hne, -, hs⟩ | ⟨b, name, -, hgroup⟩
  · exact hne (Expr.lit.inj hs).symm
  · cases b <;> cases hgroup

theorem Row.last_cases {P : Text → Prop} (h : Row P es) :
    es = [] ∨ (∃ e, es = [e] ∧ IsSegment P e) ∨
      ∃ fs e, es = fs ++ [e] ∧ fs ≠ [] ∧ Row P fs ∧ IsSegment P e := by
  rcases List.eq_nil_or_concat es with rfl | ⟨fs, e, rfl⟩
  · exact Or.inl rfl
  rw [List.concat_eq_append] at h ⊢
  have he : IsSegment P e := h.isSegment (by simp)
  by_cases hfs : fs = []
  · subst hfs
    exact Or.inr (Or.inl ⟨e, rfl, he⟩)
  · exact Or.inr (Or.inr ⟨fs, e, rfl, hfs, h.of_append, he⟩)

/-! ## What stands where -/

/-- What is known of an expression from what it is to the one around it. -/
inductive Placed : Role → Expr → Prop where
  | binding {op : Binding} {name : Text} {items : List Expr} (hne : items ≠ [])
      (hitems : ∀ e ∈ items, ∃ es, FreeRow es ∧ e = mixAll es) : Placed .root (.bind op name items)
  | row {role : Role} {es : List Expr} (h : FreeRow es)
      (hempty : es = [] → role = .item ∨ role = .name) : Placed role (mixAll es)

/-- What is in place has its parts in place. -/
theorem Placed.part {role role' : Role} {f : Expr} (h : Placed role e)
    (hf : (role', f) ∈ e.parts) : Placed role' f := by
  cases h with
  | binding _ hitems =>
      obtain ⟨g, hg, heq⟩ := List.mem_map.1 hf
      obtain ⟨rfl, rfl⟩ := Prod.mk.inj heq
      obtain ⟨es, hes, rfl⟩ := hitems g hg
      exact .row hes fun _ => Or.inl rfl
  | row h _ =>
      rcases h.last_cases with rfl | ⟨e, rfl, he⟩ | ⟨fs, e, rfl, hne, hfs, he⟩
      · cases hf
      · rcases he with ⟨s, -, -, rfl⟩ | ⟨b, name, hname, rfl⟩
        · cases hf
        · rw [mixAll, List.foldl_nil, parts_group] at hf
          obtain ⟨rfl, rfl⟩ := Prod.mk.inj (List.mem_singleton.1 hf)
          exact .row hname fun _ => Or.inr rfl
      · rw [mixAll_concat hne] at hf
        rcases List.mem_pair.1 hf with heq | heq
        · obtain ⟨rfl, rfl⟩ := Prod.mk.inj heq
          exact .row hfs fun h => absurd h hne
        · obtain ⟨rfl, rfl⟩ := Prod.mk.inj heq
          have hright : Placed .right (mixAll [f]) := .row he.row (by simp)
          exact hright

theorem Occurs.placed {whole : Expr} {role : Role} (h : Occurs whole role e)
    (hwhole : Placed .root whole) : Placed role e := by
  induction h with
  | root => exact hwhole
  | part _ hf ih => exact ih.part hf

/-- What an expression that is in place can be. -/
inductive Shaped : Role → Expr → Prop where
  | binding {op : Binding} {name : Text} {items : List Expr} (hne : items ≠ []) :
      Shaped .root (.bind op name items)
  | empty {role : Role} (hrole : role = .item ∨ role = .name) : Shaped role (.lit [])
  | lit {role : Role} {s : Text} (hne : s ≠ []) : Shaped role (.lit s)
  | ref {role : Role} {name : Expr} : Shaped role (.ref name)
  | draw {role : Role} {name : Expr} : Shaped role (.draw name)
  | mix {role : Role} {l r : Expr} (hright : r.isMix = false) (h : FreeRow (mixed (.mix l r))) :
      Shaped role (.mix l r)

theorem Placed.shaped {role : Role} (h : Placed role e) : Shaped role e := by
  cases h with
  | binding hne _ => exact .binding hne
  | row h hempty =>
      rcases h.last_cases with rfl | ⟨e, rfl, he⟩ | ⟨fs, e, rfl, hne, hfs, he⟩
      · exact .empty (hempty rfl)
      · rcases he with ⟨s, hs, -, rfl⟩ | ⟨b, name, -, rfl⟩
        · exact .lit hs
        · cases b with
          | paren => exact .ref
          | brace => exact .draw
      · have hmixed := h.mixed_mixAll (by simp)
        rw [mixAll_concat hne] at hmixed ⊢
        exact .mix he.isMix (hmixed ▸ h)

theorem Stated.placed (h : e.Stated) : Placed .root e := by
  cases h with
  | text h hne => exact .row h fun h => absurd h hne
  | binding _ hne hitems => exact .binding hne hitems

theorem Stated.normal {whole : Expr} (h : whole.Stated) : whole.Normal := by
  have hshaped : ∀ role e, Occurs whole role e → Shaped role e :=
    fun role e ho => (ho.placed h.placed).shaped
  constructor
  case bindings =>
    intro role op name items ho
    cases hshaped role _ ho with
    | binding hne => exact ⟨rfl, hne⟩
  case complete =>
    intro role ho
    cases hshaped role _ ho
  case right =>
    intro role l r ho
    cases hshaped role _ ho with
    | mix hright _ => exact hright
  case operands =>
    intro role l r ho
    cases hshaped role _ ho with
    | mix _ hrow => exact hrow.lit_nil_not_mem
  case literals =>
    intro role l r ho
    cases hshaped role _ ho with
    | mix _ hrow => exact hrow.isChain
  case empty =>
    intro role ho
    cases hshaped role _ ho with
    | empty hrole => exact hrole
    | lit hne => exact absurd rfl hne

end Expr

/-- Every expression that is read from a text is in normal form, whether or not the faults of the
text can be located. -/
theorem Document.parse_normal [Locator] (file text : Text) :
    (∀ e, .ok e ∈ Statement.ofTokens (tokenize text) → e.Normal) ∧
    ∀ d, parse file text = .ok d → ∀ e ∈ d.expressions, e.Normal := by
  constructor
  · intro e he
    exact (Statement.stated_of_mem_ofLines (fun _ => Line.scanned_of_mem_split) he).normal
  · intro d hd e he
    exact (Session.stated_of_mem_expressions hd e he).normal

/-- A literal is empty where it is all of an item, of a block or of a pool name. -/
theorem Document.parse_normal_empty :
    ∃ d first second, parse [] (utf8 "a :: | x()\\tz\nb\n===\np\\(\n  q\n---\n---\n") = .ok d ∧
      d.expressions = [first, second] ∧
      first = .bind .define (utf8 "a") [.lit [],
        .mix (.mix (.lit (utf8 "x")) (.ref (.lit []))) (.lit (utf8 "\tz"))] ∧
      second = .bind .define (utf8 "b") [.lit (utf8 "p( q"), .lit []] ∧
      first.Normal ∧ second.Normal := by
  let first : Expr := .bind .define (utf8 "a") [.lit [],
    .mix (.mix (.lit (utf8 "x")) (.ref (.lit []))) (.lit (utf8 "\tz"))]
  let second : Expr := .bind .define (utf8 "b") [.lit (utf8 "p( q"), .lit []]
  have hd : parse [] (utf8 "a :: | x()\\tz\nb\n===\np\\(\n  q\n---\n---\n") =
      .ok [.ok first, .ok second] := by
    decide +kernel
  have hnormal : ∀ e ∈ [first, second], e.Normal := (parse_normal [] _).2 _ hd
  exact ⟨_, first, second, hd, rfl, rfl, rfl, hnormal first (by simp), hnormal second (by simp)⟩

end PoolProse
