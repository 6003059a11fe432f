import Mathlib.Data.List.Nodup
import Mathlib.Data.List.Perm.Basic
import Mathlib.Data.List.Sigma
import PoolProse.Proofs.Grouping
import PoolProse.Proofs.SafeChoices

/-!
# Draws exhaust a pool

A member that is drawn leaves its pool. So draws from a pool of literals give every member once, in
an order that the source decides, and what is left keeps its order until nothing is left. The
members are followed by their places in the pool, since a pool may hold the same text twice.
-/
namespace PoolProse

/-! ## Taking members away -/

section

variable {members drawn : List (Text × Nat)}

theorem eraseIdx_eq_filter_ne (h : members.Nodup) {i : Nat} (hi : i < members.length) :
    members.eraseIdx i = members.filter (· ≠ members[i]) := by
  rw [← h.erase_getElem i hi, h.erase_eq_filter]
  exact List.filter_congr fun m _ => by rw [bne, beq_eq_decide, decide_not]

theorem filter_not_mem_take_perm (hperm : drawn.Perm members) (h : members.Nodup)
    (i : Nat) : (members.filter (· ∉ drawn.take i)).Perm (drawn.drop i) := by
  have hdrawn := hperm.nodup_iff.2 h
  rw [← List.take_append_drop i drawn] at hdrawn
  have hrest : ∀ m ∈ drawn.drop i, m ∉ drawn.take i :=
    fun m hm hm' => List.disjoint_of_nodup_append hdrawn hm' hm
  have hfilter : drawn.filter (· ∉ drawn.take i) = drawn.drop i :=
    calc drawn.filter (· ∉ drawn.take i)
        = (drawn.take i).filter (· ∉ drawn.take i) ++ (drawn.drop i).filter (· ∉ drawn.take i) := by
          rw [← List.filter_append, List.take_append_drop]
      _ = drawn.drop i := by
          rw [List.filter_eq_nil_iff.2 (by simp), List.nil_append,
            List.filter_eq_self.2 fun m hm => decide_eq_true (hrest m hm)]
  rw [← hfilter]
  exact (hperm.filter _).symm

end

/-! ## Draws in a row -/

def literals (members : List (Text × Nat)) : Pool := members.map fun m => .lit m.1

theorem literals_zipIdx (texts : List Text) : literals texts.zipIdx = texts.map .lit := by
  conv_rhs => rw [← List.zipIdx_map_fst 0 texts, List.map_map]
  rfl

section

variable {σ : Type} {src : Source σ} {max : Nat} {env : Environment} {key : Text}

/-- A draw from a pool of literals gives the text of some member and takes away just that one. -/
theorem evaluate_draw_literals (hsrc : src.Lawful) (hmax : 0 < max) {members : List (Text × Nat)}
    (hne : members ≠ []) (hpool : env.get? key = some (literals members)) (source : σ) :
    ∃ (i : Nat) (hi : i < members.length) (source' : σ) (asked : List Nat),
      evaluate src (.atMost max) (.draw (.lit key)) env source =
        ⟨.ok (some members[i].1), env.put key (literals (members.eraseIdx i)), source', asked,
          []⟩ := by
  have hlength : (literals members).length = members.length := List.length_map ..
  have hi := hsrc members.length source (List.length_pos_iff.2 hne)
  generalize hchoose : src.choose members.length source = chosen at hi
  obtain ⟨i, source'⟩ := chosen
  have hmember : (literals members)[i]? = some (.lit members[i].1) := by
    rw [literals, List.getElem?_map, List.getElem?_eq_getElem hi]
    rfl
  have htake : Eval.takeOut src key (literals members) { env, source } =
      .ok (.lit members[i].1) { env := env.put key (literals (members.eraseIdx i)),
                                source := source', asked := [members.length] } := by
    rw [Eval.takeOut_apply, Environment.remove_of_get? hpool, hlength, hchoose, hmember, literals,
      List.eraseIdx_map]
    rfl
  have hlimit : (Limit.atMost max).isBeyond (0 + 1) = false := by
    simp only [Limit.isBeyond, decide_eq_false_iff_not]
    omega
  have hrun : Eval.Evaluates src (.atMost max) 0 (.draw (.lit key)) { env, source } _ _ :=
    .draw .lit hpool htake (.within hlimit .lit)
  exact ⟨i, hi, source', [members.length], hrun.evaluate_eq⟩

theorem evaluate_draw_unbound (src : Source σ) (limit : Limit) (hkey : env.get? key = none)
    (source : σ) :
    (evaluate src limit (.draw (.lit key)) env source).result =
      .error (.fault (.undefinedDraw key)) := by
  rw [evaluate_eq_limited, limited, Eval.expr_draw_undefined rfl hkey]
  rfl

/-- There is an order of the members of a pool in which they are drawn one after the other, and the
pool then holds those that were not drawn. -/
theorem exists_draws (hsrc : src.Lawful) (hmax : 0 < max) {old : Pool}
    (hold : env.get? key = some old) (henv : env.Sound) (members : List (Text × Nat))
    (hnodup : members.Nodup) (source : σ) :
    ∃ drawn : List (Text × Nat), drawn.Perm members ∧ ∀ i ≤ members.length, ∃ source',
      Session.Steps src (.atMost max) (env.put key (literals members)) source
        (List.replicate i (.draw (.lit key))) (((drawn.take i).map Prod.fst).map some) []
        (env.put key (literals (members.filter (· ∉ drawn.take i)))) source' := by
  induction hn : members.length generalizing members source with
  | zero =>
      obtain rfl := List.length_eq_zero_iff.1 hn
      refine ⟨[], .nil, fun i hi => ⟨source, ?_⟩⟩
      obtain rfl := Nat.le_zero.1 hi
      exact .nil
  | succ n ih =>
      have hne : members ≠ [] := List.length_pos_iff.1 (by omega)
      have hliterals : literals members ≠ [] := by simpa [literals] using hne
      have hpool : (env.put key (literals members)).get? key = some (literals members) := by
        rw [henv.get?_put, if_pos rfl, if_neg hliterals]
      obtain ⟨j, hj, source₁, asked, hdraw⟩ :=
        evaluate_draw_literals hsrc hmax hne hpool source
      -- all that was put before under this name is forgotten, so `env` stays fixed
      rw [Environment.put_put hold hliterals] at hdraw
      have hrest : (members.eraseIdx j).length = n := by
        rw [List.length_eraseIdx_of_lt hj]
        omega
      obtain ⟨drawn, hperm, hsteps⟩ := ih _ (hnodup.eraseIdx j) source₁ hrest
      refine ⟨members[j] :: drawn, (hperm.cons _).trans (List.getElem_cons_eraseIdx_perm hj), ?_⟩
      intro i hi
      cases i with
      | zero => exact ⟨source, by simpa using .nil⟩
      | succ i =>
          obtain ⟨source', hsteps⟩ := hsteps i (by omega)
          have hleft : (members.eraseIdx j).filter (· ∉ drawn.take i) =
              members.filter (· ∉ (members[j] :: drawn).take (i + 1)) := by
            rw [eraseIdx_eq_filter_ne hnodup hj, List.filter_filter]
            simp [and_comm]
          rw [hleft] at hsteps
          exact ⟨source', .cons hdraw hsteps⟩

end

/-! ## Draws inside one text -/

/-- A piece of text, or a draw in its place. -/
def Expr.orDraw (key : Text) : Option Text → Expr
  | some t => .lit t
  | none => .draw (.lit key)

def fillGaps : List (Option Text) → List Text → List Text
  | [], _ => []
  | some t :: parts, ts => t :: fillGaps parts ts
  | none :: parts, [] => fillGaps parts []
  | none :: parts, t :: ts => t :: fillGaps parts ts

section

variable {σ : Type} {src : Source σ} {limit : Limit} {env env' : Environment} {source source' : σ}
  {key : Text} {parts : List (Option Text)} {n : Nat} {ts : List Text} {log : Log}

theorem Session.Steps.fillGaps
    (h : Steps src limit env source (List.replicate n (.draw (.lit key))) (ts.map some) log env'
      source') (hcount : parts.count none = n) :
    Steps src limit env source (parts.map (Expr.orDraw key))
      ((PoolProse.fillGaps parts ts).map some) log env' source' := by
  induction parts generalizing n ts env source log with
  | nil =>
      subst hcount
      cases ts with
      | nil => exact h
      | cons t ts => cases h
  | cons part parts ih =>
      cases part with
      | some t =>
          have hlit : evaluate src limit (.lit t) env source =
              ⟨.ok (some t), env, source, [], []⟩ := by
            rw [evaluate_eq_limited]
            rfl
          exact .cons hlit (ih h (by simpa using hcount))
      | none =>
          rw [List.count_cons_self] at hcount
          subst hcount
          cases ts with
          | nil => cases h
          | cons t ts =>
              cases h with
              | cons hdraw hrest => exact .cons hdraw (ih hrest rfl)

theorem Session.Steps.evaluate_filled {e : Expr}
    (h : Steps src limit env source (List.replicate n (.draw (.lit key))) (ts.map some) log env'
      source') (hmixed : e.mixed = parts.map (Expr.orDraw key)) (hcount : parts.count none = n) :
    ∃ asked, evaluate src limit e env source =
      ⟨.ok (some (PoolProse.fillGaps parts ts).flatten), env', source', asked, log⟩ := by
  have hfilled := h.fillGaps hcount
  rw [← hmixed] at hfilled
  obtain ⟨v, asked, hv, htext, hnone⟩ := hfilled.evaluate_mixed
  refine ⟨asked, ?_⟩
  cases v with
  | none =>
      have hvalues := hnone rfl
      rw [List.map_eq_singleton_iff] at hvalues
      obtain ⟨t, -, ht⟩ := hvalues
      cases ht
  | some t =>
      have htexts : Value.text ∘ some = id := rfl
      rw [List.map_map, htexts, List.map_id] at htext
      rw [hv, ← htext]
      rfl

theorem exists_gap (h : n < parts.count none) :
    ∃ before after, parts = before ++ none :: after ∧ before.count none = n := by
  induction parts generalizing n with
  | nil => cases h
  | cons part parts ih =>
      cases part with
      | some t =>
          obtain ⟨before, after, rfl, hcount⟩ := ih (n := n) (by simpa using h)
          exact ⟨some t :: before, after, rfl, by simpa using hcount⟩
      | none =>
          cases n with
          | zero => exact ⟨[], parts, rfl, rfl⟩
          | succ n =>
              rw [List.count_cons_self] at h
              obtain ⟨before, after, rfl, rfl⟩ := ih (Nat.lt_of_succ_lt_succ h)
              exact ⟨none :: before, after, rfl, List.count_cons_self⟩

theorem Session.Steps.evaluate_overdrawn {e : Expr}
    (h : Steps src limit env source (List.replicate n (.draw (.lit key))) (ts.map some) log env'
      source') (hkey : env'.get? key = none) (hmixed : e.mixed = parts.map (Expr.orDraw key))
    (hcount : n < parts.count none) :
    (evaluate src limit e env source).result = .error (.fault (.undefinedDraw key)) := by
  obtain ⟨before, after, rfl, hbefore⟩ := exists_gap hcount
  rw [List.map_append] at hmixed
  exact (h.fillGaps hbefore).evaluate_mixed_error hmixed
    (evaluate_draw_unbound src limit hkey source')

end

/-- Draws exhaust a pool. Its members are drawn in some order, each of them once. After some draws
the pool holds the members that were not drawn, in the order they had, and after the last one the
name is unbound and the next draw fails and changes nothing. All other bindings stay as they are and
where they are. The same holds of draws that are made inside one text, with or without pieces of
text between them and however it is grouped: it is put together from the same members, and leaves
the same environment; with one draw too many it fails, and leaves the environment that was there. -/
theorem draws_exhaust_pool {σ : Type} {src : Source σ} (hsrc : src.Lawful) {env : Environment}
    (henv : env.Reachable) {key : Text} {texts : List Text}
    (hpool : env.get? key = some (texts.map .lit)) {max : Nat} (hmax : 0 < max) (source : σ) :
    ∃ drawn : List (Text × Nat), drawn.Perm texts.zipIdx ∧ (drawn.map Prod.fst).Perm texts ∧
      (∀ i ≤ texts.length, ∃ env' source',
        Session.Steps src (.atMost max) env source (List.replicate i (.draw (.lit key)))
          (((drawn.take i).map Prod.fst).map some) [] env' source' ∧
        (i < texts.length →
          env'.get? key = some (literals (texts.zipIdx.filter (· ∉ drawn.take i)))) ∧
        (i = texts.length → env'.get? key = none ∧
          (evaluate src (.atMost max) (.draw (.lit key)) env' source').result =
            .error (.fault (.undefinedDraw key)) ∧
          (evaluate src (.atMost max) (.draw (.lit key)) env' source').env = env') ∧
        Bindings.erase env'.entries key = Bindings.erase env.entries key ∧
        ∀ (parts : List (Option Text)) (e : Expr), e.mixed = parts.map (Expr.orDraw key) →
          parts.count none = i →
          (evaluate src (.atMost max) e env source).result =
            .ok (some (fillGaps parts ((drawn.take i).map Prod.fst)).flatten) ∧
          (evaluate src (.atMost max) e env source).env = env' ∧
          (evaluate src (.atMost max) e env source).source = source') ∧
      (∀ (parts : List (Option Text)) (e : Expr), e.mixed = parts.map (Expr.orDraw key) →
        texts.length < parts.count none →
        (evaluate src (.atMost max) e env source).result = .error (.fault (.undefinedDraw key)) ∧
        (evaluate src (.atMost max) e env source).env = env) ∧
      (Fault.undefinedDraw key).code = "INVOCAT_UNDEFINED_DRAW" := by
  have hsound := henv.sound
  have hnodup : texts.zipIdx.Nodup := .of_map Prod.snd (List.nodup_zipIdx_map_snd texts)
  obtain ⟨drawn, hperm, hsteps⟩ := exists_draws hsrc hmax hpool hsound texts.zipIdx hnodup source
  rw [literals_zipIdx, hsound.put_of_get? hpool, List.length_zipIdx] at hsteps
  have hlength : ∀ i, (texts.zipIdx.filter (· ∉ drawn.take i)).length = texts.length - i := by
    intro i
    rw [(filter_not_mem_take_perm hperm hnodup i).length_eq, List.length_drop, hperm.length_eq,
      List.length_zipIdx]
  have hgone : (env.put key (literals (texts.zipIdx.filter (· ∉ drawn.take texts.length)))).get?
      key = none := by
    rw [List.length_eq_zero_iff.1 ((hlength texts.length).trans (Nat.sub_self _)), hsound.get?_put,
      if_pos rfl]
    rfl
  refine ⟨drawn, hperm, ?_, ?_, ?_, rfl⟩
  · have hfst := hperm.map Prod.fst
    rwa [List.zipIdx_map_fst] at hfst
  · intro i hi
    obtain ⟨source', hdraws⟩ := hsteps i hi
    refine ⟨_, source', hdraws, ?_, ?_, ?_, ?_⟩
    · intro hlt
      have hleft : literals (texts.zipIdx.filter (· ∉ drawn.take i)) ≠ [] := by
        rw [← List.length_pos_iff, literals, List.length_map, hlength]
        omega
      rw [hsound.get?_put, if_pos rfl, if_neg hleft]
    · rintro rfl
      have hfails := evaluate_draw_unbound src (.atMost max) hgone source'
      exact ⟨hgone, hfails, evaluate_env_of_error hfails⟩
    · rw [hsound.put_entries, Bindings.erase_put]
    · intro parts e hmixed hcount
      obtain ⟨asked, he⟩ := hdraws.evaluate_filled hmixed hcount
      rw [he]
      exact ⟨rfl, rfl, rfl⟩
  · intro parts e hmixed hcount
    obtain ⟨source', hdraws⟩ := hsteps texts.length (Nat.le_refl _)
    have hfails := hdraws.evaluate_overdrawn hgone hmixed hcount
    exact ⟨hfails, evaluate_env_of_error hfails⟩

/-- A pool of three members, two of them the same, before another pool. Three draws inside one text
give all of them and leave the other pool. A fourth one fails and leaves both. -/
theorem draws_exhaust_pool_pets :
    ∃ (src : Source Nat) (env : Environment) (draw three : Expr), src.Lawful ∧ env.Reachable ∧
      env.get? (utf8 "pet") = some ([utf8 "cat", utf8 "dog", utf8 "cat"].map .lit) ∧
      draw = .draw (.lit (utf8 "pet")) ∧ three = .mix draw (.mix draw draw) ∧
      (∃ a b c, [a, b, c].Perm [utf8 "cat", utf8 "dog", utf8 "cat"] ∧
        (evaluate src (.atMost 1) three env 0).result = .ok (some (a ++ (b ++ c))) ∧
        (evaluate src (.atMost 1) three env 0).env.get? (utf8 "pet") = none ∧
        Bindings.erase (evaluate src (.atMost 1) three env 0).env.entries (utf8 "pet") =
          [(utf8 "tree", [.lit (utf8 "elm")])]) ∧
      (evaluate src (.atMost 1) (.mix three draw) env 0).result =
        .error (.fault (.undefinedDraw (utf8 "pet"))) ∧
      (evaluate src (.atMost 1) (.mix three draw) env 0).env = env := by
  let src : Source Nat := ⟨fun n s => ((s + 1) % n, s + 1)⟩
  let pets : List Text := [utf8 "cat", utf8 "dog", utf8 "cat"]
  let env := (Environment.empty.put (utf8 "pet") (pets.map .lit)).put (utf8 "tree")
    [.lit (utf8 "elm")]
  let draw : Expr := .draw (.lit (utf8 "pet"))
  let three : Expr := .mix draw (.mix draw draw)
  have hsrc : src.Lawful := fun _ _ hn => Nat.mod_lt _ hn
  have henv : env.Reachable :=
    ⟨[.perform 0 (.put (utf8 "pet") (pets.map .lit)),
      .perform 0 (.put (utf8 "tree") [.lit (utf8 "elm")])], List.mem_singleton.2 rfl⟩
  have hempty := Environment.sound_empty
  have hpets : env.get? (utf8 "pet") = some (pets.map .lit) := by
    rw [(hempty.put _ _).get?_put, hempty.get?_put]
    rfl
  have hentries : Bindings.erase env.entries (utf8 "pet") =
      [(utf8 "tree", [.lit (utf8 "elm")])] := by
    rw [(hempty.put _ _).put_entries, hempty.put_entries]
    rfl
  obtain ⟨drawn, -, hperm, hdraws, hover, -⟩ :=
    draws_exhaust_pool hsrc henv hpets Nat.one_pos 0
  obtain ⟨env', source', -, -, hgone, hothers, hfilled⟩ := hdraws 3 (Nat.le_refl 3)
  obtain ⟨htext, rfl, -⟩ := hfilled [none, none, none] three rfl rfl
  obtain ⟨a, b, c, hdrawn⟩ := List.length_eq_three.1 hperm.length_eq
  rw [List.map_take, hdrawn] at htext
  rw [hdrawn] at hperm
  obtain ⟨hfails, hsame⟩ := hover [none, none, none, none] (.mix three draw) rfl (Nat.lt_add_one 3)
  refine ⟨src, env, draw, three, hsrc, henv, hpets, rfl, rfl,
    ⟨a, b, c, hperm, ?_, (hgone rfl).1, hothers.trans hentries⟩, hfails, hsame⟩
  rw [htext]
  simp [fillGaps]

end PoolProse
