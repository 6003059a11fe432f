import Mathlib.Data.Fintype.BigOperators
import Mathlib.Data.Fintype.Pigeonhole
import PoolProse.Choice

/-!
# Drawing again

A word that would favour some numbers is passed over and another one is drawn. Nothing bounds how
often that may happen, but the generator has finitely many states: if a word is ever accepted, then
one is before the states repeat themselves.
-/
namespace PoolProse.RandomStream

/-- The loop on its own: `r` is what drawing words in a row comes to in the end. -/
inductive Redraws (n : Nat) : RandomStream → Nat × RandomStream → Prop where
  | accept {s : RandomStream} (h : favours n s.next.1 = false) :
      Redraws n s (scaled n s.next.1, s.next.2)
  | again {s : RandomStream} {r : Nat × RandomStream} (h : favours n s.next.1 = true)
      (hrest : Redraws n s.next.2 r) : Redraws n s r

def after (s : RandomStream) (k : Nat) : RandomStream := (fun s => s.next.2)^[k] s

def word (s : RandomStream) (k : Nat) : UInt64 := (s.after k).next.1

/-- The word with the number `k` is the first that favours no number below `n`. -/
structure IsFirst (n : Nat) (s : RandomStream) (k : Nat) : Prop where
  accepted : favours n (s.word k) = false
  passed : ∀ j < k, favours n (s.word j) = true

variable {n k : Nat} {s : RandomStream} {r : Nat × RandomStream}

theorem after_add (s : RandomStream) (j k : Nat) : s.after (j + k) = (s.after k).after j :=
  Function.iterate_add_apply _ j k s

theorem Redraws.exists_first (h : Redraws n s r) :
    ∃ k, IsFirst n s k ∧ r = (scaled n (s.word k), s.after (k + 1)) := by
  induction h with
  | accept h => exact ⟨0, ⟨h, fun j hj => absurd hj (Nat.not_lt_zero j)⟩, rfl⟩
  | again h hrest ih =>
      obtain ⟨k, ⟨haccepted, hpassed⟩, hr⟩ := ih
      refine ⟨k + 1, ⟨haccepted, ?_⟩, hr⟩
      intro j hj
      cases j with
      | zero => exact h
      | succ j => exact hpassed j (by omega)

theorem scale_of_first {tries : Nat} (h : IsFirst n s k) (hle : k ≤ tries) :
    scale n tries s.next.1 s.next.2 = (scaled n (s.word k), s.after (k + 1)) := by
  induction k generalizing s tries with
  | zero =>
      have haccepted : favours n s.next.1 = false := h.accepted
      cases tries with
      | zero => rfl
      | succ tries =>
          rw [scale, haccepted]
          rfl
  | succ k ih =>
      have hpassed : favours n s.next.1 = true := h.passed 0 (by omega)
      obtain ⟨tries, rfl⟩ : ∃ t, tries = t + 1 := ⟨tries - 1, by omega⟩
      have hrest : IsFirst n s.next.2 k :=
        ⟨h.accepted, fun j hj => h.passed (j + 1) (by omega)⟩
      rw [scale, if_pos hpassed, ih hrest (by omega)]
      rfl

/-! ## The states of a generator -/

/-- What makes up a generator that has handed out at most 32 words of its buffer. -/
abbrev Code := (Fin 8 → Fin (2 ^ 32)) × Fin (2 ^ 32) × (Fin 32 → Fin (2 ^ 64)) × Fin 33

def code (s : RandomStream) : Code :=
  (fun i => s.key[i].toFin, s.counter.toFin, fun i => s.buffer[i].toFin, Fin.ofNat 33 s.used)

theorem card_code : Fintype.card Code ≤ maxTries := by
  calc Fintype.card Code = (2 ^ 32) ^ 8 * (2 ^ 32 * ((2 ^ 64) ^ 32 * 33)) := by
        rw [Fintype.card_prod, Fintype.card_prod, Fintype.card_prod, Fintype.card_fun,
          Fintype.card_fun, Fintype.card_fin, Fintype.card_fin, Fintype.card_fin,
          Fintype.card_fin, Fintype.card_fin]
    _ ≤ maxTries := by decide

theorem code_injective {t : RandomStream} (hs : s.used ≤ 32) (ht : t.used ≤ 32)
    (h : s.code = t.code) : s = t := by
  obtain ⟨key, counter, buffer, used⟩ := s
  obtain ⟨key', counter', buffer', used'⟩ := t
  obtain ⟨hkey, hrest⟩ := Prod.mk.inj h
  obtain ⟨hcounter, hrest⟩ := Prod.mk.inj hrest
  obtain ⟨hbuffer, hused⟩ := Prod.mk.inj hrest
  obtain rfl : key = key' := by
    apply Vector.ext
    intro i hi
    exact UInt32.toFin_inj.1 (congrFun hkey ⟨i, hi⟩)
  obtain rfl : counter = counter' := UInt32.toFin_inj.1 hcounter
  obtain rfl : buffer = buffer' := by
    apply Vector.ext
    intro i hi
    exact UInt64.toFin_inj.1 (congrFun hbuffer ⟨i, hi⟩)
  obtain rfl : used = used' := by
    have hmod : used % 33 = used' % 33 := congrArg Fin.val hused
    change used ≤ 32 at hs
    change used' ≤ 32 at ht
    omega
  rfl

theorem used_next (s : RandomStream) : s.next.2.used ≤ 32 := by
  have havailable : ∀ s : RandomStream, s.available ≤ 32 := by
    intro s
    unfold ChaCha.State.available
    split <;> omega
  have hrefill : s.refill.used = 0 := by
    unfold ChaCha.State.refill
    split <;> rfl
  simp only [ChaCha.State.next]
  split
  case isTrue hlt =>
    have := havailable s
    omega
  case isFalse =>
    rw [hrefill]
    decide

theorem used_after (s : RandomStream) (k : Nat) : (s.after (k + 1)).used ≤ 32 := by
  rw [Nat.add_comm, after_add]
  exact used_next (s.after k)

theorem exists_after_eq (s : RandomStream) :
    ∃ j p, 0 < p ∧ j + p ≤ maxTries + 1 ∧ s.after (j + p) = s.after j := by
  obtain ⟨a, b, hne, hab⟩ := Fintype.exists_ne_map_eq_of_card_lt
    (fun i : Fin (maxTries + 1) => (s.after (i.val + 1)).code)
    (by rw [Fintype.card_fin]; exact Nat.lt_succ_of_le card_code)
  have hafter := code_injective (used_after s a) (used_after s b) hab
  have ha := a.isLt
  have hb := b.isLt
  rcases lt_or_gt_of_ne (Fin.val_ne_of_ne hne) with hlt | hlt
  · refine ⟨a + 1, b - a, by omega, by omega, ?_⟩
    rw [show a.val + 1 + (b.val - a.val) = b.val + 1 by omega, hafter]
  · refine ⟨b + 1, a - b, by omega, by omega, ?_⟩
    rw [show b.val + 1 + (a.val - b.val) = a.val + 1 by omega, hafter]

/-- The first word that is accepted comes before the states repeat themselves. -/
theorem IsFirst.le_maxTries (h : IsFirst n s k) : k ≤ maxTries := by
  obtain ⟨j, p, hp, hle, hsame⟩ := exists_after_eq s
  generalize maxTries = tries at hle ⊢
  by_contra hlt
  have hsooner : s.after k = s.after (k - p) := by
    calc s.after k = (s.after (j + p)).after (k - (j + p)) := by
          rw [← after_add, Nat.sub_add_cancel (by omega)]
      _ = s.after (k - p) := by
          rw [hsame, ← after_add, show k - (j + p) + j = k - p by omega]
  have hpassed := h.passed (k - p) (by omega)
  rw [word, ← hsooner] at hpassed
  exact Bool.false_ne_true (h.accepted.symm.trans hpassed)

/-- The number comes from the first word that favours none, however many words are passed over
before it. -/
theorem below_of_redraws (hn : isPowerOfTwo n = false) (h : Redraws n s r) : below n s = r := by
  obtain ⟨k, hfirst, rfl⟩ := h.exists_first
  have hbelow : below n s = scale n maxTries s.next.1 s.next.2 :=
    if_neg (by rw [hn]; exact Bool.false_ne_true)
  rw [hbelow]
  exact scale_of_first hfirst hfirst.le_maxTries

end PoolProse.RandomStream
