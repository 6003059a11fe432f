import Mathlib.Data.List.Induction
import PoolProse.Expr

/-!
# Chains of mixes

A row of expressions is folded from the left into a chain, after neighbouring literals have been
made one. What a chain spells, holds or is made of is put together from the members of the row.
-/
namespace PoolProse

namespace Expr

/-! ## Folding -/

theorem mixAll_concat {es : List Expr} (hne : es ≠ []) (e : Expr) :
    mixAll (es ++ [e]) = .mix (mixAll es) e := by
  obtain ⟨f, es, rfl⟩ := List.exists_cons_of_ne_nil hne
  rw [List.cons_append, mixAll, mixAll, List.foldl_append, List.foldl_cons, List.foldl_nil]

/-- Rows and their chains, one member at a time. -/
theorem mixAll_induction {motive : List Expr → Expr → Prop} (nil : motive [] (.lit []))
    (single : ∀ e, motive [e] e)
    (concat : ∀ es e l, es ≠ [] → motive es l → motive (es ++ [e]) (.mix l e)) (es : List Expr) :
    motive es (mixAll es) := by
  induction es using List.reverseRecOn with
  | nil => exact nil
  | append_singleton es e ih =>
      by_cases hes : es = []
      · subst hes
        exact single e
      · rw [mixAll_concat hes]
        exact concat es e _ hes ih

theorem mixAll_of_forall {P : Expr → Prop} (empty : P (.lit []))
    (mix : ∀ l r, P l → P r → P (.mix l r)) {es : List Expr} (h : ∀ e ∈ es, P e) :
    P (mixAll es) := by
  refine mixAll_induction (motive := fun es e => (∀ f ∈ es, P f) → P e) (fun _ => empty)
    (fun e he => he e (List.mem_singleton_self e)) ?_ es h
  intro es e l _ ih hmem
  obtain ⟨hes, he⟩ := List.forall_mem_append.1 hmem
  exact mix l e (ih hes) (he e (List.mem_singleton_self e))

/-- A function that takes chains apart at the right gives back the row. -/
theorem parts_mixAll {parts : Expr → List Expr} {es : List Expr} (hne : es ≠ [])
    (single : ∀ e ∈ es, parts e = [e]) (mix : ∀ l, ∀ e ∈ es, parts (.mix l e) = parts l ++ [e]) :
    parts (mixAll es) = es := by
  refine mixAll_induction (motive := fun fs e => fs ≠ [] → (∀ f ∈ fs, f ∈ es) → parts e = fs)
    (fun h _ => absurd rfl h) (fun e _ he => single e (he e (List.mem_singleton_self e))) ?_ es hne
    (fun _ he => he)
  intro fs e l hfs ih _ hmem
  obtain ⟨hfs', he⟩ := List.forall_mem_append.1 hmem
  rw [mix l e (he e (List.mem_singleton_self e)), ih hfs hfs']

/-! ## Merging literals -/

/-- Puts an expression in front, merged with the literal that it meets if it is one. -/
def joinFront : Expr → List Expr → List Expr
  | .lit s, .lit t :: es => .lit (s ++ t) :: es
  | e, es => e :: es

theorem mergeLits_cons (e : Expr) (es : List Expr) :
    mergeLits (e :: es) = joinFront e (mergeLits es) := by
  cases e with
  | lit s =>
      rw [mergeLits]
      split
      · rename_i h
        rw [h, joinFront]
      · rename_i h
        cases hes : mergeLits es with
        | nil => rfl
        | cons f fs =>
            cases f with
            | lit t => exact absurd hes (h t fs)
            | _ => rfl
  | _ => rfl

theorem joinFront_joinFront (s t : Text) (es : List Expr) :
    joinFront (.lit s) (joinFront (.lit t) es) = joinFront (.lit (s ++ t)) es := by
  cases es with
  | nil => rfl
  | cons e es =>
      cases e with
      | lit u => simp [joinFront, List.append_assoc]
      | _ => rfl

theorem mergeLits_lit_lit (s t : Text) (es : List Expr) :
    mergeLits (.lit s :: .lit t :: es) = mergeLits (.lit (s ++ t) :: es) := by
  rw [mergeLits_cons, mergeLits_cons, joinFront_joinFront, ← mergeLits_cons]

theorem mergeLits_append_congr {fs gs : List Expr} (h : mergeLits fs = mergeLits gs)
    (es : List Expr) : mergeLits (es ++ fs) = mergeLits (es ++ gs) := by
  induction es with
  | nil => exact h
  | cons e es ih => rw [List.cons_append, List.cons_append, mergeLits_cons, mergeLits_cons, ih]

/-! ## What a chain spells -/

/-- What `f` says of a mix and of a longer literal is put together by `op` from what it says of the
parts. -/
structure Spells {M : Type} (op : M → M → M) (f : Expr → M) : Prop where
  assoc : ∀ a b c, op (op a b) c = op a (op b c)
  empty_op : ∀ a, op (f (.lit [])) a = a
  op_empty : ∀ a, op a (f (.lit [])) = a
  lit : ∀ s t, f (.lit (s ++ t)) = op (f (.lit s)) (f (.lit t))
  mix : ∀ l r, f (.mix l r) = op (f l) (f r)

namespace Spells

variable {M : Type} {op : M → M → M} {f : Expr → M}

/-- What a row spells. -/
def row (op : M → M → M) (f : Expr → M) (es : List Expr) : M :=
  es.foldr (fun e => op (f e)) (f (.lit []))

theorem row_cons (e : Expr) (es : List Expr) : row op f (e :: es) = op (f e) (row op f es) := rfl

theorem row_concat (h : Spells op f) (es : List Expr) (e : Expr) :
    row op f (es ++ [e]) = op (row op f es) (f e) := by
  induction es with
  | nil =>
      rw [List.nil_append, row_cons]
      exact (h.op_empty _).trans (h.empty_op _).symm
  | cons g es ih => rw [List.cons_append, row_cons, row_cons, ih, h.assoc]

theorem mixAll (h : Spells op f) (es : List Expr) : f (mixAll es) = row op f es := by
  refine mixAll_induction (motive := fun es e => f e = row op f es) rfl
    (fun e => (h.op_empty _).symm) ?_ es
  intro es e l _ ih
  rw [h.mix, h.row_concat, ih]

theorem mergeLits (h : Spells op f) (es : List Expr) : row op f (mergeLits es) = row op f es := by
  induction es with
  | nil => rfl
  | cons e es ih =>
      have hjoin : ∀ gs, row op f (joinFront e gs) = op (f e) (row op f gs) := by
        intro gs
        unfold joinFront
        split
        · rw [row_cons, row_cons, h.lit, h.assoc]
        · rfl
      rw [mergeLits_cons, hjoin, ih, row_cons]

theorem concat (h : Spells op f) (es : List Expr) : f (concat es) = row op f es := by
  rw [Expr.concat, h.mixAll, h.mergeLits]

end Spells

theorem row_append_eq_flatMap {f : Expr → Text} (hempty : f (.lit []) = []) (es : List Expr) :
    Spells.row (· ++ ·) f es = es.flatMap f := by
  induction es with
  | nil => exact hempty
  | cons e es ih => exact congrArg (f e ++ ·) ih

end Expr

end PoolProse
