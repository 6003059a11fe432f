import Mathlib.Data.List.Forall2

/-!
# Lists that are related member by member

Two runs, two environments or two rows of matchers are compared place by place. What is found,
replaced or taken at a place of one list has its counterpart at the same place of the other.
-/
namespace List.Forall₂

variable {α β : Type} {R : α → β → Prop} {as : List α} {bs : List β}

theorem getElem?_cases (h : Forall₂ R as bs) (i : Nat) :
    (as[i]? = none ∧ bs[i]? = none) ∨ ∃ a b, as[i]? = some a ∧ bs[i]? = some b ∧ R a b := by
  induction h generalizing i with
  | nil => exact Or.inl ⟨rfl, rfl⟩
  | @cons a b as bs hab h ih =>
      cases i with
      | zero => exact Or.inr ⟨a, b, rfl, rfl, hab⟩
      | succ i => exact ih i

theorem exists_of_mem (h : Forall₂ R as bs) {a : α} (ha : a ∈ as) : ∃ b ∈ bs, R a b := by
  obtain ⟨i, hi⟩ := List.mem_iff_getElem?.1 ha
  rcases h.getElem?_cases i with ⟨hnone, -⟩ | ⟨a', b, ha', hb, hab⟩
  · cases hi.symm.trans hnone
  · obtain rfl := Option.some.inj (hi.symm.trans ha')
    exact ⟨b, List.mem_of_getElem? hb, hab⟩

theorem set {a : α} {b : β} (h : Forall₂ R as bs) (hab : R a b) (i : Nat) :
    Forall₂ R (as.set i a) (bs.set i b) := by
  induction h generalizing i with
  | nil => exact .nil
  | cons hhead htail ih =>
      cases i with
      | zero => exact .cons hab htail
      | succ i => exact .cons hhead (ih i)

end List.Forall₂
