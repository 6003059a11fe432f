import Mathlib.Data.List.InsertIdx
import Mathlib.Data.List.Nodup
import PoolProse.Environment
import PoolProse.Proofs.RelatedLists

/-!
# Environments are ordered maps

An environment keeps its bindings twice: in a row, and by name in an index. Whatever is done to it,
it answers as the row alone would, without an index: a name is looked up by going through the row, a
new binding comes last, and a binding that is replaced stays in its place.
-/
namespace PoolProse

open Environment (RemoveFailure)

/-! ## Bindings without an index -/

abbrev Bindings := List (Text × Pool)

namespace Bindings

def erase (l : Bindings) (key : Text) : Bindings := l.filter fun b => b.1 ≠ key

def assign (l : Bindings) (key : Text) (pool : Pool) : Bindings :=
  if key ∈ l.map Prod.fst then l.map fun b => if b.1 = key then (key, pool) else b
  else l ++ [(key, pool)]

def put (l : Bindings) (key : Text) (pool : Pool) : Bindings :=
  if pool = [] then l.erase key else l.assign key pool

def member? (pool : Pool) : Int → Option Expr
  | .ofNat i => pool[i]?
  | .negSucc _ => none

def remove (l : Bindings) (key : Text) (i : Int) : Except RemoveFailure (Expr × Bindings) :=
  match l.lookup key with
  | none => .error (.noPool key)
  | some pool =>
    match member? pool i with
    | none => .error .noMember
    | some e => .ok (e, l.put key (pool.eraseIdx i.toNat))

variable {before after : Bindings} {key : Text} {pool : Pool}

theorem erase_of_forall_ne {l : Bindings} (h : ∀ b ∈ l, b.1 ≠ key) : l.erase key = l := by
  apply List.filter_eq_self.2
  intro b hb
  simpa using h b hb

theorem erase_append (hbefore : ∀ b ∈ before, b.1 ≠ key) (hafter : ∀ b ∈ after, b.1 ≠ key) :
    erase (before ++ (key, pool) :: after) key = before ++ after := by
  have hfirst := erase_of_forall_ne hbefore
  have hlast := erase_of_forall_ne hafter
  unfold erase at hfirst hlast ⊢
  rw [List.filter_append, hfirst, List.filter_cons_of_neg (by simp), hlast]

theorem assign_of_forall_ne {l : Bindings} (h : ∀ b ∈ l, b.1 ≠ key) :
    l.assign key pool = l ++ [(key, pool)] := by
  have hkey : key ∉ l.map Prod.fst := by
    intro hmem
    obtain ⟨b, hb, hfst⟩ := List.mem_map.1 hmem
    exact h b hb hfst
  rw [assign, if_neg hkey]

theorem assign_append (old : Pool) (hbefore : ∀ b ∈ before, b.1 ≠ key)
    (hafter : ∀ b ∈ after, b.1 ≠ key) :
    assign (before ++ (key, old) :: after) key pool = before ++ (key, pool) :: after := by
  have hsame : ∀ l : Bindings, (∀ b ∈ l, b.1 ≠ key) →
      l.map (fun b => if b.1 = key then (key, pool) else b) = l := by
    intro l hl
    calc
      l.map (fun b => if b.1 = key then (key, pool) else b) = l.map id := by
        apply List.map_congr_left
        intro b hb
        rw [if_neg (hl b hb), id]
      _ = l := List.map_id l
  rw [assign, if_pos (by simp), List.map_append, hsame before hbefore, List.map_cons,
    hsame after hafter, if_pos rfl]

theorem lookup_append (hbefore : ∀ b ∈ before, b.1 ≠ key) :
    (before ++ (key, pool) :: after).lookup key = some pool := by
  apply List.lookup_eq_some_iff.2
  refine ⟨before, after, rfl, ?_⟩
  intro b hb
  simpa using (hbefore b hb).symm

end Bindings

/-! ## Sequences of operations -/

namespace Environment

inductive Operation where
  | put (key : Text) (pool : Pool)
  | delete (key : Text)
  | remove (key : Text) (i : Int)
  | get (key : Text)
  | includes (key : Text)
  | size
  | isEmpty
  | keys
  | pairs

inductive Answer where
  | done
  | pool (p : Option Pool)
  | member (e : Expr)
  | refused (f : RemoveFailure)
  | truth (b : Bool)
  | number (n : Nat)
  | names (ks : List Text)
  | pairs (ps : List (Text × Pool))
  /-- No environment has the number that was given. -/
  | nowhere

/-- An operation on one of several environments, or one more environment that is a copy of it. -/
inductive Request where
  | perform (n : Nat) (op : Operation)
  | copy (n : Nat)

structure Interface (σ : Type) where
  put : σ → Text → Pool → σ
  /-- The pool that was bound, and the environment without it. -/
  delete : σ → Text → Option Pool × σ
  /-- A refusal leaves an environment too. -/
  remove : Text → Int → EStateM RemoveFailure σ Expr
  copy : σ → σ
  get : σ → Text → Option Pool
  includes : σ → Text → Bool
  size : σ → Nat
  isEmpty : σ → Bool
  keys : σ → List Text
  pairs : σ → List (Text × Pool)

namespace Interface

variable {σ τ : Type}

def perform (I : Interface σ) (s : σ) : Operation → Answer × σ
  | .put key pool => (.done, I.put s key pool)
  | .delete key => (.pool (I.delete s key).1, (I.delete s key).2)
  | .remove key i =>
    match I.remove key i s with
    | .ok e s' => (.member e, s')
    | .error f s' => (.refused f, s')
  | .get key => (.pool (I.get s key), s)
  | .includes key => (.truth (I.includes s key), s)
  | .size => (.number (I.size s), s)
  | .isEmpty => (.truth (I.isEmpty s), s)
  | .keys => (.names (I.keys s), s)
  | .pairs => (.pairs (I.pairs s), s)

def step (I : Interface σ) (all : List σ) : Request → Answer × List σ
  | .perform n op =>
    match all[n]? with
    | none => (.nowhere, all)
    | some s => ((I.perform s op).1, all.set n (I.perform s op).2)
  | .copy n =>
    match all[n]? with
    | none => (.nowhere, all)
    | some s => (.number all.length, all ++ [I.copy s])

/-- The answers to requests made in a row, and the environments after them. -/
def run (I : Interface σ) (all : List σ) : List Request → List Answer × List σ
  | [] => ([], all)
  | r :: rs => ((I.step all r).1 :: (I.run (I.step all r).2 rs).1, (I.run (I.step all r).2 rs).2)

/-- Related environments give the same answers, and what is made of them is related again. -/
structure Refines (I : Interface σ) (J : Interface τ) (R : σ → τ → Prop) : Prop where
  put : ∀ {s t}, R s t → ∀ key pool, R (I.put s key pool) (J.put t key pool)
  delete : ∀ {s t}, R s t → ∀ key, (I.delete s key).1 = (J.delete t key).1 ∧
    R (I.delete s key).2 (J.delete t key).2
  remove : ∀ {s t}, R s t → ∀ key i,
    (∃ e s' t', I.remove key i s = .ok e s' ∧ J.remove key i t = .ok e t' ∧ R s' t') ∨
      ∃ f s' t', I.remove key i s = .error f s' ∧ J.remove key i t = .error f t' ∧ R s' t'
  copy : ∀ {s t}, R s t → R (I.copy s) (J.copy t)
  get : ∀ {s t}, R s t → ∀ key, I.get s key = J.get t key
  includes : ∀ {s t}, R s t → ∀ key, I.includes s key = J.includes t key
  size : ∀ {s t}, R s t → I.size s = J.size t
  isEmpty : ∀ {s t}, R s t → I.isEmpty s = J.isEmpty t
  keys : ∀ {s t}, R s t → I.keys s = J.keys t
  pairs : ∀ {s t}, R s t → I.pairs s = J.pairs t

variable {I : Interface σ} {J : Interface τ} {R : σ → τ → Prop}

theorem perform_refines (hIJ : I.Refines J R) {s : σ} {t : τ} (h : R s t) (op : Operation) :
    (I.perform s op).1 = (J.perform t op).1 ∧ R (I.perform s op).2 (J.perform t op).2 := by
  cases op with
  | put key pool => exact ⟨rfl, hIJ.put h key pool⟩
  | delete key =>
      obtain ⟨hanswer, hrel⟩ := hIJ.delete h key
      exact ⟨congrArg Answer.pool hanswer, hrel⟩
  | remove key i =>
      rcases hIJ.remove h key i with ⟨e, s', t', hI, hJ, hrel⟩ | ⟨f, s', t', hI, hJ, hrel⟩
      · simp only [perform, hI, hJ, true_and]
        exact hrel
      · simp only [perform, hI, hJ, true_and]
        exact hrel
  | get key => exact ⟨congrArg Answer.pool (hIJ.get h key), h⟩
  | includes key => exact ⟨congrArg Answer.truth (hIJ.includes h key), h⟩
  | size => exact ⟨congrArg Answer.number (hIJ.size h), h⟩
  | isEmpty => exact ⟨congrArg Answer.truth (hIJ.isEmpty h), h⟩
  | keys => exact ⟨congrArg Answer.names (hIJ.keys h), h⟩
  | pairs => exact ⟨congrArg Answer.pairs (hIJ.pairs h), h⟩

theorem step_refines (hIJ : I.Refines J R) {all : List σ} {all' : List τ}
    (h : List.Forall₂ R all all') (r : Request) :
    (I.step all r).1 = (J.step all' r).1 ∧
      List.Forall₂ R (I.step all r).2 (J.step all' r).2 := by
  cases r with
  | perform n op =>
      rcases h.getElem?_cases n with ⟨hs, ht⟩ | ⟨s, t, hs, ht, hst⟩
      · simp only [step, hs, ht, true_and]
        exact h
      · obtain ⟨hanswer, hrel⟩ := perform_refines hIJ hst op
        simp only [step, hs, ht, hanswer, true_and]
        exact h.set hrel n
  | copy n =>
      rcases h.getElem?_cases n with ⟨hs, ht⟩ | ⟨s, t, hs, ht, hst⟩
      · simp only [step, hs, ht, true_and]
        exact h
      · simp only [step, hs, ht, h.length_eq, true_and]
        exact List.rel_append h (.cons (hIJ.copy hst) .nil)

theorem run_refines (hIJ : I.Refines J R) (rs : List Request) {all : List σ} {all' : List τ}
    (h : List.Forall₂ R all all') :
    (I.run all rs).1 = (J.run all' rs).1 ∧ List.Forall₂ R (I.run all rs).2 (J.run all' rs).2 := by
  induction rs generalizing all all' with
  | nil => exact ⟨rfl, h⟩
  | cons r rs ih =>
      obtain ⟨hanswer, hrel⟩ := step_refines hIJ h r
      obtain ⟨hanswers, hrest⟩ := ih hrel
      exact ⟨congrArg₂ List.cons hanswer hanswers, hrest⟩

end Interface

/-! ## The index is kept right -/

/-- The index leads from every name to the place of its binding and no pool is empty. -/
structure Sound (env : Environment) : Prop where
  index : ∀ (key : Text) (i : Nat), env.index[key]? = some i ↔ env.keys[i]? = some key
  pools : ∀ b ∈ env.entries, b.2 ≠ []

variable {env : Environment} {key : Text} {pool : Pool} {p : Nat}

theorem sound_empty : Sound empty where
  index key i := by simp [empty, keys]
  pools b hb := by cases hb

theorem Sound.keys_nodup (h : env.Sound) : env.keys.Nodup := by
  apply List.nodup_iff_getElem?_ne_getElem?.2
  intro i j hij hj heq
  have hget : env.keys[j]? = some env.keys[j] := List.getElem?_eq_getElem hj
  have hi := (h.index _ i).2 (heq.trans hget)
  have hj := (h.index _ j).2 hget
  have : i = j := Option.some.inj (hi.symm.trans hj)
  omega

theorem Sound.unbound (h : env.Sound) (hkey : env.index[key]? = none) :
    ∀ b ∈ env.entries, b.1 ≠ key := by
  rintro b hb rfl
  obtain ⟨i, hi⟩ := List.mem_iff_getElem?.1 (List.mem_map_of_mem (f := Prod.fst) hb)
  have hsome := (h.index b.1 i).2 hi
  rw [hkey] at hsome
  cases hsome

theorem Sound.bound (h : env.Sound) (hkey : env.index[key]? = some p) :
    ∃ before pool after, env.entries[p]? = some (key, pool) ∧
      env.entries = before ++ (key, pool) :: after ∧ before.length = p ∧
      (∀ b ∈ before, b.1 ≠ key) ∧ ∀ b ∈ after, b.1 ≠ key := by
  have hp := (h.index key p).1 hkey
  rw [keys, List.getElem?_map] at hp
  obtain ⟨⟨k, pool⟩, hentry, rfl⟩ := Option.map_eq_some_iff.1 hp
  obtain ⟨hlt, hget⟩ := List.getElem?_eq_some_iff.1 hentry
  have hother : ∀ i b, env.entries[i]? = some b → b.1 = k → i = p := by
    intro i b hb hfst
    have hi : env.keys[i]? = some k := by rw [keys, List.getElem?_map, hb, ← hfst]; rfl
    exact Option.some.inj (((h.index k i).2 hi).symm.trans hkey)
  refine ⟨env.entries.take p, pool, env.entries.drop (p + 1), hentry, ?_, ?_, ?_, ?_⟩
  · rw [← hget, ← List.drop_eq_getElem_cons hlt, List.take_append_drop]
  · rw [List.length_take]
    omega
  · intro b hb hfst
    obtain ⟨i, hi⟩ := List.mem_iff_getElem?.1 hb
    have hip : i < p := by
      by_contra hge
      rw [List.getElem?_take, if_neg hge] at hi
      cases hi
    rw [List.getElem?_take, if_pos hip] at hi
    have := hother i b hi hfst
    omega
  · intro b hb hfst
    obtain ⟨i, hi⟩ := List.mem_iff_getElem?.1 hb
    rw [List.getElem?_drop] at hi
    have := hother _ b hi hfst
    omega

theorem Sound.delete (h : env.Sound) (key : Text) : (env.delete key).Sound := by
  unfold Environment.delete
  split
  case h_1 => exact h
  case h_2 p hkey =>
    have hp := (h.index key p).1 hkey
    refine ⟨?_, fun b hb => h.pools b (List.mem_of_mem_eraseIdx hb)⟩
    intro k i
    have hkeys : (keys ⟨env.entries.eraseIdx p, (env.index.erase key).map fun _ q =>
        if p < q then q - 1 else q⟩)[i]? = if i < p then env.keys[i]? else env.keys[i + 1]? := by
      rw [← List.getElem?_eraseIdx, keys, keys, ← List.eraseIdx_map]
    rw [hkeys, Std.HashMap.getElem?_map, Std.HashMap.getElem?_erase]
    by_cases hk : key = k
    · subst hk
      simp only [beq_self_eq_true, if_true, Option.map_none, reduceCtorEq, false_iff]
      intro hi
      split at hi
      · have := Option.some.inj (((h.index key i).2 hi).symm.trans hkey)
        omega
      · have := Option.some.inj (((h.index key (i + 1)).2 hi).symm.trans hkey)
        omega
    · rw [if_neg (by simpa using hk), Option.map_eq_some_iff]
      constructor
      · rintro ⟨q, hq, rfl⟩
        have hqk := (h.index k q).1 hq
        have hne : q ≠ p := by
          rintro rfl
          exact hk (Option.some.inj (hp.symm.trans hqk))
        by_cases hlt : p < q
        · rw [if_pos hlt, if_neg (by omega), Nat.sub_add_cancel (by omega), hqk]
        · rw [if_neg hlt, if_pos (by omega), hqk]
      · intro hi
        split at hi
        case isTrue hlt => exact ⟨i, (h.index k i).2 hi, if_neg (by omega)⟩
        case isFalse hge => exact ⟨i + 1, (h.index k (i + 1)).2 hi, if_pos (by omega)⟩

theorem Sound.set (h : env.Sound) (hkey : env.index[key]? = some p) (hpool : pool ≠ []) :
    Sound { env with entries := env.entries.set p (key, pool) } := by
  have hp := (h.index key p).1 hkey
  obtain ⟨hlt, hget⟩ := List.getElem?_eq_some_iff.1 hp
  have hkeys : (env.entries.set p (key, pool)).map Prod.fst = env.keys := by
    rw [List.map_set, ← keys, ← hget, List.set_getElem_self]
  refine ⟨?_, ?_⟩
  · intro k i
    rw [keys, hkeys]
    exact h.index k i
  · intro b hb
    rcases List.mem_or_eq_of_mem_set hb with hb | rfl
    · exact h.pools b hb
    · exact hpool

theorem Sound.put (h : env.Sound) (key : Text) (pool : Pool) : (env.put key pool).Sound := by
  unfold Environment.put
  split
  case isTrue => exact h.delete key
  case isFalse hpool =>
    have hne : pool ≠ [] := by simpa using hpool
    split
    case h_1 p hkey => exact h.set hkey hne
    case h_2 hkey =>
      refine ⟨?_, ?_⟩
      · intro k i
        have hlength : env.keys.length = env.entries.length := List.length_map _
        rw [Std.HashMap.getElem?_insert, keys, List.map_append, ← keys, List.getElem?_append,
          hlength]
        by_cases hk : key = k
        · subst hk
          rw [if_pos (beq_self_eq_true key), Option.some.injEq]
          constructor
          · rintro rfl
            simp
          · intro hi
            split at hi
            · rw [← h.index, hkey] at hi
              cases hi
            · have := (List.getElem?_eq_some_iff.1 hi).1
              simp only [List.map_cons, List.map_nil, List.length_singleton] at this
              omega
        · rw [if_neg (by simpa using hk), h.index]
          split
          · rfl
          case isFalse hge =>
            rw [List.getElem?_eq_none (by omega), List.map_cons, List.map_nil,
              List.getElem?_singleton]
            simp [hk]
      · intro b hb
        rcases List.mem_append.1 hb with hb | hb
        · exact h.pools b hb
        · obtain rfl := List.mem_singleton.1 hb
          exact hne

/-! ## The row alone gives the same answers -/

theorem Sound.get?_eq_lookup (h : env.Sound) (key : Text) :
    env.get? key = env.entries.lookup key := by
  unfold get?
  split
  case h_1 hkey =>
    symm
    apply List.lookup_eq_none_iff.2
    intro b hb
    simpa using (h.unbound hkey b hb).symm
  case h_2 p hkey =>
    obtain ⟨before, pool, after, hentry, hentries, -, hbefore, -⟩ := h.bound hkey
    rw [hentry, hentries, Bindings.lookup_append hbefore]
    rfl

theorem Sound.includes_eq (h : env.Sound) (key : Text) :
    env.includes key = (env.entries.lookup key).isSome := by
  rw [includes, Std.HashMap.contains_eq_isSome_getElem?, ← h.get?_eq_lookup, get?]
  cases hkey : env.index[key]? with
  | none => rfl
  | some p =>
      obtain ⟨before, pool, after, hentry, -⟩ := h.bound hkey
      simp only [hentry, Option.map_some, Option.isSome_some]

theorem Sound.delete_entries (h : env.Sound) (key : Text) :
    (env.delete key).entries = Bindings.erase env.entries key := by
  unfold Environment.delete
  split
  case h_1 hkey => exact (Bindings.erase_of_forall_ne (h.unbound hkey)).symm
  case h_2 p hkey =>
    obtain ⟨before, pool, after, -, hentries, hlength, hbefore, hafter⟩ := h.bound hkey
    simp only [hentries, Bindings.erase_append hbefore hafter]
    rw [List.eraseIdx_append_of_length_le (by omega), hlength, Nat.sub_self,
      List.eraseIdx_cons_zero]

theorem Sound.set_entries (h : env.Sound) (hkey : env.index[key]? = some p) (pool : Pool) :
    env.entries.set p (key, pool) = Bindings.assign env.entries key pool := by
  obtain ⟨before, old, after, -, hentries, hlength, hbefore, hafter⟩ := h.bound hkey
  rw [hentries, Bindings.assign_append old hbefore hafter, List.set_append_right _ _ (by omega),
    hlength, Nat.sub_self, List.set_cons_zero]

theorem Sound.put_entries (h : env.Sound) (key : Text) (pool : Pool) :
    (env.put key pool).entries = Bindings.put env.entries key pool := by
  unfold Environment.put Bindings.put
  by_cases hpool : pool = []
  · rw [if_pos hpool, if_pos (by simp [hpool]), h.delete_entries]
  · rw [if_neg hpool, if_neg (by simp [hpool])]
    split
    case h_1 p hkey => exact h.set_entries hkey pool
    case h_2 hkey => exact (Bindings.assign_of_forall_ne (h.unbound hkey)).symm

theorem eraseIdx_eq_nil_iff {pool : Pool} {i : Nat} (hi : i < pool.length) :
    pool.eraseIdx i = [] ↔ pool.length = 1 := by
  rw [← List.length_eq_zero_iff, List.length_eraseIdx_of_lt hi]
  omega

theorem exists_index_of_get? (hpool : env.get? key = some pool) :
    ∃ p, env.index[key]? = some p ∧ env.entries[p]?.map Prod.snd = some pool := by
  unfold get? at hpool
  cases hp : env.index[key]? with
  | none => rw [hp] at hpool; cases hpool
  | some p => exact ⟨p, rfl, by rwa [hp] at hpool⟩

/-- To take a member out of a pool is to bind the name to the others. -/
theorem remove_of_get? (hpool : env.get? key = some pool) (i : Nat) :
    env.remove key i =
      match pool[i]? with
      | none => .error .noMember
      | some e => .ok (e, env.put key (pool.eraseIdx i)) := by
  obtain ⟨p, hp, hentry⟩ := exists_index_of_get? hpool
  simp only [remove, hp, hentry, Option.getD_some]
  cases hi : pool[i]? with
  | none => rfl
  | some e =>
      have hnil := eraseIdx_eq_nil_iff (List.getElem?_eq_some_iff.1 hi).1
      by_cases hone : pool.length = 1
      · simp only [hone, if_true, put, hnil.2 hone, List.isEmpty_nil]
      · have hne : pool.eraseIdx i ≠ [] := fun h => hone (hnil.1 h)
        simp only [hone, if_false, put, List.isEmpty_iff, hne, hp]

theorem Sound.remove (h : env.Sound) (key : Text) (i : Nat) :
    (∃ e env', env.remove key i = .ok (e, env') ∧
        Bindings.remove env.entries key i = .ok (e, env'.entries) ∧ env'.Sound) ∨
      ∃ f, env.remove key i = .error f ∧ Bindings.remove env.entries key i = .error f := by
  unfold Environment.remove Bindings.remove
  rw [← h.get?_eq_lookup, get?]
  cases hkey : env.index[key]? with
  | none => exact Or.inr ⟨_, rfl, rfl⟩
  | some p =>
      obtain ⟨before, pool, after, hentry, -⟩ := h.bound hkey
      simp only [hentry, Option.map_some, Option.getD_some, Bindings.member?, Int.toNat_natCast]
      cases hmember : pool[i]? with
      | none => exact Or.inr ⟨_, rfl, rfl⟩
      | some e =>
          have hi := (List.getElem?_eq_some_iff.1 hmember).1
          have hnil := eraseIdx_eq_nil_iff hi
          left
          by_cases hone : pool.length = 1
          · refine ⟨e, env.delete key, if_pos hone, ?_, h.delete key⟩
            rw [Bindings.put, if_pos (hnil.2 hone), h.delete_entries]
          · have hne : pool.eraseIdx i ≠ [] := fun heq => hone (hnil.1 heq)
            refine ⟨e, { env with entries := env.entries.set p (key, pool.eraseIdx i) },
              if_neg hone, ?_, h.set hkey hne⟩
            rw [Bindings.put, if_neg hne, h.set_entries hkey]

theorem Sound.removeAt (h : env.Sound) (key : Text) (i : Int) :
    (∃ e env', env.removeAt key i = .ok (e, env') ∧
        Bindings.remove env.entries key i = .ok (e, env'.entries) ∧ env'.Sound) ∨
      ∃ f, env.removeAt key i = .error f ∧ Bindings.remove env.entries key i = .error f := by
  cases i with
  | ofNat i => exact h.remove key i
  | negSucc i =>
      right
      unfold Environment.removeAt Bindings.remove
      rw [h.includes_eq]
      cases env.entries.lookup key with
      | none => exact ⟨_, rfl, rfl⟩
      | some pool => exact ⟨_, rfl, rfl⟩

/-! ## Removing in place and copying -/

/-- Takes a member out in place. A refusal leaves what has been written when it is raised. -/
def takeOut (key : Text) (i : Int) : EStateM RemoveFailure Environment Expr := do
  let some p := (← get).index[key]? | throw (.noPool key)
  let pool := ((← get).entries[p]?.map Prod.snd).getD []
  let some e := if i < 0 then none else pool[i.toNat]? | throw .noMember
  if pool.length = 1 then
    modify fun env => env.delete key
  else
    modify fun env => { env with entries := env.entries.set p (key, pool.eraseIdx i.toNat) }
  return e

/-- A refusal comes before anything is written. -/
theorem takeOut_eq_removeAt (env : Environment) (key : Text) (i : Int) :
    takeOut key i env =
      match env.removeAt key i with
      | .ok (e, env') => .ok e env'
      | .error f => .error f env := by
  have hbound : env.includes key = (env.index[key]?).isSome :=
    Std.HashMap.contains_eq_isSome_getElem?
  have hget : ∀ f : Environment → EStateM RemoveFailure Environment Expr,
      (get >>= f) env = f env env := fun _ => rfl
  rw [takeOut, hget]
  cases hkey : env.index[key]? with
  | none =>
      rw [hkey] at hbound
      cases i <;> simp only [removeAt, remove, hkey, hbound] <;> rfl
  | some p =>
      rw [hkey] at hbound
      simp only [hget]
      cases i with
      | negSucc i =>
          simp only [removeAt, hbound, Int.negSucc_lt_zero]
          rfl
      | ofNat i =>
          simp only [removeAt, remove, hkey, Int.ofNat_eq_natCast, Int.toNat_natCast,
            if_neg (Int.not_lt.2 (Int.natCast_nonneg i))]
          generalize (env.entries[p]?.map Prod.snd).getD [] = pool
          cases hmember : pool[i]? with
          | none => rfl
          | some e =>
              by_cases hone : pool.length = 1
              · simp only [hone, if_true]
                rfl
              · simp only [hone, if_false]
                rfl

/-- A second environment with the same bindings, whose index is built anew. -/
def copy (env : Environment) : Environment where
  entries := env.entries.map fun (key, pool) => (key, pool)
  index := .ofList env.index.toList

theorem copy_entries (env : Environment) : env.copy.entries = env.entries := List.map_id _

theorem copy_index (env : Environment) (key : Text) : env.copy.index[key]? = env.index[key]? := by
  cases hkey : env.index[key]? with
  | none =>
      apply Std.HashMap.getElem?_ofList_of_contains_eq_false
      rw [Std.HashMap.map_fst_toList_eq_keys]
      simpa using hkey
  | some p =>
      exact Std.HashMap.getElem?_ofList_of_mem (beq_self_eq_true key)
        Std.HashMap.distinct_keys_toList (Std.HashMap.mem_toList_iff_getElem?_eq_some.2 hkey)

theorem Sound.copy (h : env.Sound) : env.copy.Sound where
  index key i := by rw [copy_index, keys, copy_entries, h.index, keys]
  pools b hb := h.pools b (by rwa [copy_entries] at hb)

/-! ## Both give the same answers -/

def interface : Interface Environment where
  put := put
  delete env key := (env.get? key, env.delete key)
  remove := takeOut
  copy := copy
  get := get?
  includes := includes
  size := size
  isEmpty := isEmpty
  keys := keys
  pairs := entries

end Environment

def Bindings.interface : Environment.Interface Bindings where
  put := Bindings.put
  delete l key := (l.lookup key, l.erase key)
  remove key i l :=
    match l.remove key i with
    | .ok (e, l') => .ok e l'
    | .error f => .error f l
  copy := id
  get l key := l.lookup key
  includes l key := (l.lookup key).isSome
  size := List.length
  isEmpty := List.isEmpty
  keys l := l.map Prod.fst
  pairs := id

namespace Environment

theorem interface_refines :
    interface.Refines Bindings.interface fun env l => env.Sound ∧ env.entries = l where
  put := by
    rintro env _ ⟨h, rfl⟩ key pool
    exact ⟨h.put key pool, h.put_entries key pool⟩
  delete := by
    rintro env _ ⟨h, rfl⟩ key
    exact ⟨h.get?_eq_lookup key, h.delete key, h.delete_entries key⟩
  remove := by
    rintro env _ ⟨h, rfl⟩ key i
    simp only [interface, Bindings.interface, takeOut_eq_removeAt]
    rcases h.removeAt key i with ⟨e, env', henv, hrow, hsound⟩ | ⟨f, henv, hrow⟩
    · simp only [henv, hrow]
      exact Or.inl ⟨e, env', env'.entries, rfl, rfl, hsound, rfl⟩
    · simp only [henv, hrow]
      exact Or.inr ⟨f, env, env.entries, rfl, rfl, h, rfl⟩
  copy := by
    rintro env _ ⟨h, rfl⟩
    exact ⟨h.copy, env.copy_entries⟩
  get := by
    rintro env _ ⟨h, rfl⟩ key
    exact h.get?_eq_lookup key
  includes := by
    rintro env _ ⟨h, rfl⟩ key
    exact h.includes_eq key
  size := by
    rintro env _ ⟨-, rfl⟩
    rfl
  isEmpty := by
    rintro env _ ⟨-, rfl⟩
    rfl
  keys := by
    rintro env _ ⟨-, rfl⟩
    rfl
  pairs := by
    rintro env _ ⟨-, rfl⟩
    rfl

/-- Requests made in a row, of an empty environment and of copies made on the way, are answered as
by rows of bindings without an index. Afterwards every environment holds just the bindings of its
row, its names are distinct, its index gives the place of each of them and no pool is empty. -/
theorem run_eq_bindings (rs : List Request) :
    (interface.run [empty] rs).1 = (Bindings.interface.run [[]] rs).1 ∧
      List.Forall₂
        (fun env l => env.entries = l ∧ env.keys.Nodup ∧
          (∀ (key : Text) (i : Nat), env.index[key]? = some i ↔ env.keys[i]? = some key) ∧
          ∀ b ∈ env.entries, b.2 ≠ [])
        (interface.run [empty] rs).2 (Bindings.interface.run [[]] rs).2 := by
  obtain ⟨hanswers, hrel⟩ :=
    Interface.run_refines interface_refines rs (.cons ⟨sound_empty, rfl⟩ .nil)
  refine ⟨hanswers, hrel.imp ?_⟩
  rintro env l ⟨h, hentries⟩
  exact ⟨hentries, h.keys_nodup, h.index, h.pools⟩

end Environment

end PoolProse
