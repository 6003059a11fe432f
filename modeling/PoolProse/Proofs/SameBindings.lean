import Mathlib.Data.List.Perm.Subperm
import PoolProse.Proofs.PlainPools
import PoolProse.Proofs.SafeChoices

/-!
# Environments with the same bindings

An environment is looked at by name. Each change to it is seen under one name only, and two
environments compare as equal just if they answer alike under every name, in whatever order the
names were entered.
-/
namespace PoolProse

/-! ## Looking up after a change -/

namespace Bindings

variable (l : Bindings) (key other : Text) (pool : Pool)

theorem lookup_erase :
    (l.erase key).lookup other = if other = key then none else l.lookup other := by
  induction l with
  | nil => simp [erase]
  | cons b l ih =>
      unfold erase at ih ⊢
      by_cases hb : b.1 = key
      · rw [List.filter_cons_of_neg (by simpa using hb), ih]
        by_cases ho : other = key
        · rw [if_pos ho, if_pos ho]
        · have hne : (other == b.1) = false := by simpa [hb] using ho
          rw [if_neg ho, if_neg ho, List.lookup_cons, hne]
      · rw [List.filter_cons_of_pos (by simpa using hb), List.lookup_cons, ih]
        by_cases ho : other = key
        · have hne : (other == b.1) = false := by simpa [ho] using Ne.symm hb
          rw [if_pos ho, if_pos ho, hne]
        · rw [if_neg ho, if_neg ho]
          exact List.lookup_cons.symm

theorem lookup_map_assign :
    (l.map fun b => if b.1 = key then (key, pool) else b).lookup other =
      if other = key then (l.lookup key).map fun _ => pool else l.lookup other := by
  induction l with
  | nil => simp
  | cons b l ih =>
      rw [List.map_cons, List.lookup_cons, ih]
      by_cases hb : b.1 = key
      · have hhere : (b :: l).lookup key = some b.2 := by
          rw [List.lookup_cons, hb, beq_self_eq_true]
        rw [if_pos hb, hhere]
        by_cases ho : other = key
        · simp [ho]
        · have hne : (other == b.1) = false := by simpa [hb] using ho
          rw [if_neg ho, if_neg ho, beq_eq_false_iff_ne.2 ho, List.lookup_cons, hne]
      · have hhere : (b :: l).lookup key = l.lookup key := by
          rw [List.lookup_cons, beq_eq_false_iff_ne.2 (Ne.symm hb)]
        rw [if_neg hb, hhere]
        by_cases ho : other = key
        · have hne : (other == b.1) = false := by simpa [ho] using Ne.symm hb
          rw [if_pos ho, if_pos ho, hne]
        · rw [if_neg ho, if_neg ho]
          exact List.lookup_cons.symm

theorem lookup_eq_none_iff_not_mem : l.lookup key = none ↔ key ∉ l.map Prod.fst := by
  rw [List.lookup_eq_none_iff, List.mem_map]
  constructor
  · rintro h ⟨b, hb, hkey⟩
    simpa [hkey] using h b hb
  · intro h b hb
    simpa using fun hkey : key = b.1 => h ⟨b, hb, hkey.symm⟩

theorem lookup_assign :
    (l.assign key pool).lookup other = if other = key then some pool else l.lookup other := by
  unfold assign
  split
  case isTrue hkey =>
    rw [lookup_map_assign]
    cases hlookup : l.lookup key with
    | none => exact absurd hkey ((lookup_eq_none_iff_not_mem l key).1 hlookup)
    | some old => rfl
  case isFalse hkey =>
    rw [List.lookup_append, List.lookup_cons, List.lookup_nil]
    by_cases ho : other = key
    · subst ho
      rw [(lookup_eq_none_iff_not_mem l other).2 hkey]
      simp
    · rw [if_neg ho, beq_eq_false_iff_ne.2 ho, Option.or_none]

theorem lookup_put :
    (l.put key pool).lookup other =
      if other = key then (if pool = [] then none else some pool) else l.lookup other := by
  unfold put
  by_cases hpool : pool = []
  · rw [if_pos hpool, if_pos hpool, lookup_erase]
  · rw [if_neg hpool, if_neg hpool, lookup_assign]

theorem erase_put : (l.put key pool).erase key = l.erase key := by
  have hassign : erase (l.map fun b => if b.1 = key then (key, pool) else b) key = l.erase key := by
    unfold erase
    induction l with
    | nil => rfl
    | cons b l ih =>
        rw [List.map_cons]
        by_cases hb : b.1 = key
        · rw [List.filter_cons_of_neg (by simp [hb]), List.filter_cons_of_neg (by simp [hb]), ih]
        · rw [if_neg hb, List.filter_cons_of_pos (by simpa using hb),
            List.filter_cons_of_pos (by simpa using hb), ih]
  unfold put assign
  split
  · simp [erase]
  split
  · exact hassign
  · simp [erase]

end Bindings

namespace Environment

variable {env a b : Environment} {key : Text} {pool : Pool}

theorem get?_empty (key : Text) : empty.get? key = none := by
  simp [get?, empty]

theorem Sound.get?_delete (h : env.Sound) (key other : Text) :
    (env.delete key).get? other = if other = key then none else env.get? other := by
  rw [(h.delete key).get?_eq_lookup, h.get?_eq_lookup, h.delete_entries, Bindings.lookup_erase]

theorem Sound.get?_put (h : env.Sound) (key other : Text) (pool : Pool) :
    (env.put key pool).get? other =
      if other = key then (if pool = [] then none else some pool) else env.get? other := by
  rw [(h.put key pool).get?_eq_lookup, h.get?_eq_lookup, h.put_entries, Bindings.lookup_put]

theorem put_put {old : Pool} (hold : env.get? key = some old) (hpool : pool ≠ []) (pool' : Pool) :
    (env.put key pool).put key pool' = env.put key pool' := by
  obtain ⟨p, hp, -⟩ := exists_index_of_get? hold
  by_cases hpool' : pool' = []
  · simp only [put, delete, List.isEmpty_iff, hpool, hpool', hp, if_true, if_false,
      List.eraseIdx_set_eq]
  · simp only [put, List.isEmpty_iff, hpool, hpool', hp, if_false, List.set_set]

theorem Sound.put_of_get? (h : env.Sound) (hpool : env.get? key = some pool) :
    env.put key pool = env := by
  obtain ⟨p, hp, hentry⟩ := exists_index_of_get? hpool
  obtain ⟨-, pool', -, hget, -⟩ := h.bound hp
  rw [hget] at hentry
  obtain rfl : pool' = pool := Option.some.inj hentry
  have hne := h.pools _ (List.mem_of_getElem? hget)
  obtain ⟨hlt, hget⟩ := List.getElem?_eq_some_iff.1 hget
  simp only [Environment.put, List.isEmpty_iff, hne, hp, if_false, ← hget, List.set_getElem_self]

theorem Sound.remove_of_none (h : env.Sound) (hkey : env.get? key = none) (i : Nat) :
    env.remove key i = .error (.noPool key) := by
  cases hp : env.index[key]? with
  | none => simp only [Environment.remove, hp]
  | some p =>
      obtain ⟨before, pool, after, hentry, -⟩ := h.bound hp
      rw [get?, hp] at hkey
      simp [hentry] at hkey

/-! ## Comparison -/

theorem Sound.get?_of_mem (h : env.Sound) (hmem : (key, pool) ∈ env.entries) :
    env.get? key = some pool := by
  obtain ⟨i, hi⟩ := List.mem_iff_getElem?.1 hmem
  have hkey : env.keys[i]? = some key := by rw [keys, List.getElem?_map, hi]; rfl
  rw [get?, (h.index key i).2 hkey]
  simp only [hi, Option.map_some]

theorem Sound.mem_keys_iff (h : env.Sound) : key ∈ env.keys ↔ ∃ pool, env.get? key = some pool := by
  constructor
  · intro hkey
    obtain ⟨⟨k, pool⟩, hmem, rfl⟩ := List.mem_map.1 hkey
    exact ⟨pool, h.get?_of_mem hmem⟩
  · rintro ⟨pool, hpool⟩
    exact List.mem_map_of_mem (f := Prod.fst) (h.mem_of_get? hpool)

theorem Sound.equals_iff_size (hb : b.Sound) :
    a.equals b = true ↔
      a.size = b.size ∧ ∀ key pool, (key, pool) ∈ a.entries → b.get? key = some pool := by
  rw [equals, Bool.and_eq_true, beq_iff_eq, List.all_eq_true]
  refine and_congr_right fun _ => ?_
  rw [Prod.forall]
  refine forall_congr' fun key => forall_congr' fun pool => imp_congr_right fun _ => ?_
  dsimp only
  rw [get?]
  cases hp : b.index[key]? with
  | none => simp
  | some p =>
      obtain ⟨before, old, after, hold, -⟩ := hb.bound hp
      simp only [hold, Option.map_some, Option.getD_some, Expr.sameAll_iff, Option.some.injEq]
      exact eq_comm

/-- Environments compare as equal just if every name is bound to the same pool in both, or in
neither. -/
theorem Sound.equals_iff (ha : a.Sound) (hb : b.Sound) :
    a.equals b = true ↔ ∀ key, a.get? key = b.get? key := by
  have hlength : ∀ env : Environment, env.size = env.keys.length :=
    fun env => (List.length_map _).symm
  rw [hb.equals_iff_size, hlength, hlength]
  constructor
  · rintro ⟨hsize, hall⟩ key
    have hsubset : a.keys ⊆ b.keys := by
      intro k hk
      obtain ⟨pool, hpool⟩ := ha.mem_keys_iff.1 hk
      exact hb.mem_keys_iff.2 ⟨pool, hall k pool (ha.mem_of_get? hpool)⟩
    -- all names of the first are names of the second, and there are no more of them
    have hperm : a.keys.Perm b.keys :=
      (ha.keys_nodup.subperm hsubset).perm_of_length_le (Nat.le_of_eq hsize.symm)
    cases hkey : a.get? key with
    | some pool => exact (hall key pool (ha.mem_of_get? hkey)).symm
    | none =>
        cases hother : b.get? key with
        | none => rfl
        | some pool =>
            have hmem := hperm.mem_iff.2 (hb.mem_keys_iff.2 ⟨pool, hother⟩)
            obtain ⟨pool', hpool'⟩ := ha.mem_keys_iff.1 hmem
            rw [hkey] at hpool'
            cases hpool'
  · intro hget
    refine ⟨?_, fun key pool hmem => (hget key).symm.trans (ha.get?_of_mem hmem)⟩
    apply List.Perm.length_eq
    apply (List.perm_ext_iff_of_nodup ha.keys_nodup hb.keys_nodup).2
    intro key
    rw [ha.mem_keys_iff, hb.mem_keys_iff, hget]

theorem Sound.mem_entries_iff (h : env.Sound) :
    (key, pool) ∈ env.entries ↔ env.get? key = some pool :=
  ⟨h.get?_of_mem, h.mem_of_get?⟩

/-- Environments with the same bindings have the same rows, up to the order. -/
theorem Sound.equals_iff_perm (ha : a.Sound) (hb : b.Sound) :
    a.equals b = true ↔ a.entries.Perm b.entries := by
  have hnodup : ∀ {env : Environment}, env.Sound → env.entries.Nodup :=
    fun h => List.Nodup.of_map Prod.fst h.keys_nodup
  rw [ha.equals_iff hb, List.perm_ext_iff_of_nodup (hnodup ha) (hnodup hb)]
  constructor
  · rintro hget ⟨key, pool⟩
    rw [ha.mem_entries_iff, hb.mem_entries_iff, hget]
  · intro hmem key
    apply Option.ext
    intro pool
    rw [← ha.mem_entries_iff, ← hb.mem_entries_iff]
    exact hmem (key, pool)

/-- Two look-ups agree: both find nothing, or both find pools of the same length that have the same
tree in each place. -/
inductive Agree : Option Pool → Option Pool → Prop where
  | unbound : Agree none none
  | bound {p q : Pool} (hlength : p.length = q.length)
      (hmember : ∀ (i : Nat) (e f : Expr), p[i]? = some e → q[i]? = some f → e = f) :
      Agree (some p) (some q)

theorem agree_iff {p q : Option Pool} : Agree p q ↔ p = q := by
  constructor
  · intro h
    cases h with
    | unbound => rfl
    | @bound p q hlength hmember =>
        have hpq : p = q := by
          apply List.ext_getElem hlength
          intro i hp hq
          exact hmember i _ _ (List.getElem?_eq_getElem hp) (List.getElem?_eq_getElem hq)
        rw [hpq]
  · rintro rfl
    cases p with
    | none => exact .unbound
    | some p =>
        refine .bound rfl ?_
        intro i e f he hf
        rw [he] at hf
        exact Option.some.inj hf

/-- Comparison decides sameness. Two expressions compare as equal just if they are the same tree,
wherever an operand may be missing. Two environments that can be made compare as equal just if
look-ups of every name agree, and then their rows differ in the order at most. So comparison of such
environments is an equivalence. -/
theorem equals_decides_sameness :
    (∀ x y : Expr, x.same y = true ↔ x = y) ∧
    (∀ a b : Environment, a.Reachable → b.Reachable →
      (a.equals b = true ↔ ∀ key, Agree (a.get? key) (b.get? key)) ∧
      (a.equals b = true ↔ a.entries.Perm b.entries)) ∧
    Equivalence fun a b : { env : Environment // env.Reachable } => a.1.equals b.1 = true := by
  have hiff : ∀ a b : { env : Environment // env.Reachable },
      a.1.equals b.1 = true ↔ ∀ key, a.1.get? key = b.1.get? key :=
    fun a b => a.2.sound.equals_iff b.2.sound
  refine ⟨Expr.same_iff, ?_, ?_⟩
  · intro a b ha hb
    refine ⟨?_, ha.sound.equals_iff_perm hb.sound⟩
    rw [ha.sound.equals_iff hb.sound]
    exact forall_congr' fun key => agree_iff.symm
  · constructor
    · intro a
      exact (hiff a a).2 fun key => rfl
    · intro a b hab
      exact (hiff b a).2 fun key => ((hiff a b).1 hab key).symm
    · intro a b c hab hbc
      exact (hiff a c).2 fun key => ((hiff a b).1 hab key).trans ((hiff b c).1 hbc key)

/-- The second environment starts as a copy of the first, which has one of the two names by then.
The name is deleted and entered again last, with an operand missing in its pool. -/
theorem equals_decides_sameness_copy :
    ∃ a b : Environment, a.Reachable ∧ b.Reachable ∧ a.keys = [utf8 "cat", utf8 "dog"] ∧
      b.keys = [utf8 "dog", utf8 "cat"] ∧ a.equals b = true ∧ b.equals a = true ∧
      a.equals (b.delete (utf8 "cat")) = false := by
  let cats : Pool := [.mix .missing (.lit (utf8 "Tom")), .missing]
  let dogs : Pool := [.lit (utf8 "Rex")]
  let one := empty.put (utf8 "cat") cats
  let a := one.put (utf8 "dog") dogs
  let b := ((one.copy.delete (utf8 "cat")).put (utf8 "dog") dogs).put (utf8 "cat") cats
  have hone : one.Sound := sound_empty.put _ _
  let requests : List Request := [.perform 0 (.put (utf8 "cat") cats), .copy 0,
    .perform 0 (.put (utf8 "dog") dogs), .perform 1 (.delete (utf8 "cat")),
    .perform 1 (.put (utf8 "dog") dogs), .perform 1 (.put (utf8 "cat") cats)]
  have hmade : ∀ more, (interface.run [empty] (requests ++ more)).2 =
      (interface.run [a, b] more).2 := by
    intro more
    simp only [requests, Interface.run, Interface.step, Interface.perform, interface,
      List.getElem?_cons_zero, List.getElem?_cons_succ, List.set_cons_zero, List.set_cons_succ,
      List.cons_append, List.nil_append, a, b, one]
  have ha : a.Reachable := ⟨requests ++ [], by rw [hmade]; simp [Interface.run]⟩
  have hb : b.Reachable := ⟨requests ++ [], by rw [hmade]; simp [Interface.run]⟩
  have hless : (b.delete (utf8 "cat")).Reachable := by
    refine ⟨requests ++ [.perform 1 (.delete (utf8 "cat"))], ?_⟩
    rw [hmade]
    simp [Interface.run, Interface.step, Interface.perform, interface]
  have hrow : a.entries = [(utf8 "cat", cats), (utf8 "dog", dogs)] := by
    rw [hone.put_entries, sound_empty.put_entries]
    rfl
  have hrow' : b.entries = [(utf8 "dog", dogs), (utf8 "cat", cats)] := by
    rw [((hone.copy.delete _).put _ _).put_entries, (hone.copy.delete _).put_entries,
      hone.copy.delete_entries, copy_entries, sound_empty.put_entries]
    rfl
  obtain ⟨-, hequals, hequivalence⟩ := equals_decides_sameness
  have hab : a.equals b = true := by
    rw [(hequals a b ha hb).2, hrow, hrow']
    exact List.Perm.swap _ _ _
  have hdeleted : a.equals (b.delete (utf8 "cat")) = false := by
    rw [← Bool.not_eq_true, (hequals a _ ha hless).2, hrow,
      hb.sound.delete_entries, hrow']
    intro hperm
    cases hperm.length_eq
  clear_value a b
  have hba : b.equals a = true := hequivalence.symm (x := ⟨a, ha⟩) (y := ⟨b, hb⟩) hab
  exact ⟨a, b, ha, hb, by rw [keys, hrow]; rfl, by rw [keys, hrow']; rfl, hab, hba, hdeleted⟩

end Environment

end PoolProse
