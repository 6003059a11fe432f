import PoolProse.Proofs.BigStep
import PoolProse.Proofs.NormalForm
import PoolProse.Proofs.SameBindings

/-!
# Texts without bindings

What is evaluated is found in pools, under names that are put together on the way. If no binding
occurs in the expression or in any pool, then all that can happen to the pools is that members are
drawn from them, and if no draw occurs either, nothing happens to them.
-/
namespace PoolProse

/-! ## What occurs in an expression -/

namespace Expr

def isDraw : Expr → Bool
  | .draw _ => true
  | _ => false

/-- Nothing that occurs in the expression passes the test. -/
def Lacks (node : Expr → Bool) (e : Expr) : Prop := ∀ role f, e.Occurs role f → node f = false

variable {node : Expr → Bool} {e f : Expr}

theorem Occurs.of_part {g : Expr} {role role' : Role} (hf : (role', f) ∈ e.parts)
    (h : f.Occurs role g) : ∃ role, e.Occurs role g := by
  induction h with
  | root => exact ⟨_, .part .root hf⟩
  | part _ hg ih =>
      obtain ⟨role, h⟩ := ih
      exact ⟨_, h.part hg⟩

theorem Occurs.eq_or_part {g : Expr} {role : Role} (h : e.Occurs role g) :
    g = e ∨ ∃ p ∈ e.parts, ∃ role, p.2.Occurs role g := by
  induction h with
  | root => exact Or.inl rfl
  | @part role role' f g _ hg ih =>
      rcases ih with rfl | ⟨p, hp, role'', hf⟩
      · exact Or.inr ⟨_, hg, _, .root⟩
      · exact Or.inr ⟨p, hp, _, hf.part hg⟩

theorem lacks_iff : e.Lacks node ↔ node e = false ∧ ∀ p ∈ e.parts, p.2.Lacks node := by
  constructor
  · intro h
    refine ⟨h _ e .root, fun p hp role f hf => ?_⟩
    obtain ⟨role', hf⟩ := hf.of_part hp
    exact h role' f hf
  · rintro ⟨he, hparts⟩ role f hf
    rcases hf.eq_or_part with rfl | ⟨p, hp, role', hf⟩
    · exact he
    · exact hparts p hp role' f hf

theorem Lacks.part (h : e.Lacks node) {role : Role} (hf : (role, f) ∈ e.parts) : f.Lacks node :=
  (lacks_iff.1 h).2 _ hf

theorem Lacks.or {node' : Expr → Bool} (h : e.Lacks node) (h' : e.Lacks node') :
    e.Lacks fun f => node f || node' f :=
  fun role f hf => Bool.or_eq_false_iff.2 ⟨h role f hf, h' role f hf⟩

theorem lacks_lit {t : Text} (h : node (.lit t) = false) : (lit t).Lacks node :=
  lacks_iff.2 ⟨h, by simp [parts]⟩

end Expr

/-! ## What draws leave -/

namespace Environment

/-- Nothing that occurs in a pool member passes the test. -/
def Lacks (node : Expr → Bool) (env : Environment) : Prop :=
  ∀ b ∈ env.entries, ∀ e ∈ b.2, e.Lacks node

/-- Some of the bindings that were there are left, in order, and each with some of its members, in
order. -/
def LeftOf (after before : Environment) : Prop :=
  List.SublistForall₂ (fun b b' : Text × Pool => b.1 = b'.1 ∧ b.2.Sublist b'.2) after.entries
    before.entries

variable {env env' : Environment} {key : Text} {pool pool' : Pool} {node : Expr → Bool}

theorem leftOf_refl (env : Environment) : env.LeftOf env :=
  List.sublistForall₂_iff.2
    ⟨env.entries, List.forall₂_same.2 fun b _ => ⟨rfl, List.Sublist.refl b.2⟩, List.Sublist.refl _⟩

theorem LeftOf.trans {a b c : Environment} (h : a.LeftOf b) (h' : b.LeftOf c) : a.LeftOf c := by
  have : IsTrans (Text × Pool) fun b b' => b.1 = b'.1 ∧ b.2.Sublist b'.2 :=
    ⟨fun _ _ _ h h' => ⟨h.1.trans h'.1, h.2.trans h'.2⟩⟩
  exact List.SublistForall₂.is_trans.trans _ _ _ h h'

theorem Sound.put_leftOf (h : env.Sound) (hpool : env.get? key = some pool)
    (hsub : pool'.Sublist pool) : (env.put key pool').LeftOf env := by
  have hrefl : ∀ b : Text × Pool, b.1 = b.1 ∧ b.2.Sublist b.2 := fun b => ⟨rfl, .refl b.2⟩
  rw [LeftOf, h.put_entries, Bindings.put, List.sublistForall₂_iff]
  split
  case isTrue =>
    exact ⟨_, List.forall₂_same.2 fun b _ => hrefl b, List.filter_sublist⟩
  case isFalse =>
    have hkey : key ∈ env.entries.map Prod.fst := h.mem_keys_iff.2 ⟨pool, hpool⟩
    refine ⟨env.entries, ?_, .refl _⟩
    rw [Bindings.assign, if_pos hkey, List.forall₂_map_left_iff, List.forall₂_same]
    intro b hb
    split
    case isTrue hb' =>
      have hold : env.get? b.1 = some b.2 := h.get?_of_mem hb
      rw [hb', hpool] at hold
      exact ⟨hb'.symm, Option.some.inj hold ▸ hsub⟩
    case isFalse => exact hrefl b

theorem LeftOf.keys (h : env'.LeftOf env) : env'.keys.Sublist env.keys := by
  obtain ⟨l, hall, hl⟩ := List.sublistForall₂_iff.1 h
  have hkeys : List.Forall₂ Eq env'.keys (l.map Prod.fst) := by
    rw [Environment.keys, List.forall₂_map_left_iff, List.forall₂_map_right_iff]
    exact hall.imp fun _ _ h => h.1
  rw [List.forall₂_eq_eq_eq] at hkeys
  rw [hkeys]
  exact hl.map Prod.fst

theorem LeftOf.exists_mem (h : env'.LeftOf env) {b : Text × Pool} (hb : b ∈ env'.entries) :
    ∃ b' ∈ env.entries, b.1 = b'.1 ∧ b.2.Sublist b'.2 := by
  unfold LeftOf at h
  generalize env'.entries = l' at h hb
  generalize env.entries = l at h
  induction h with
  | nil => cases hb
  | @cons b₁ b₂ _ _ hrel _ ih =>
      rcases List.mem_cons.1 hb with rfl | hb
      · exact ⟨b₂, List.mem_cons_self, hrel⟩
      · obtain ⟨b', hb', hrel'⟩ := ih hb
        exact ⟨b', List.mem_cons_of_mem _ hb', hrel'⟩
  | cons_right _ ih =>
      obtain ⟨b', hb', hrel'⟩ := ih hb
      exact ⟨b', List.mem_cons_of_mem _ hb', hrel'⟩

theorem LeftOf.get? (h : env'.LeftOf env) (hsound : env.Sound) (hsound' : env'.Sound)
    (hpool : env'.get? key = some pool) : ∃ old, env.get? key = some old ∧ pool.Sublist old := by
  obtain ⟨⟨k, old⟩, hmem, hkey, hsub⟩ := h.exists_mem (hsound'.mem_of_get? hpool)
  obtain rfl : key = k := hkey
  exact ⟨old, hsound.get?_of_mem hmem, hsub⟩

theorem Lacks.put (h : env.Lacks node) (hpool : ∀ e ∈ pool, e.Lacks node) (key : Text) :
    (env.put key pool).Lacks node := by
  intro b hb
  rcases mem_put_entries hb with hb | rfl
  · exact h b hb
  · exact hpool

end Environment

/-! ## Evaluation -/

/-- Where nothing is met that passes the test, no binding is, and a draw keeps `Inv`. -/
structure KeptByDraws (node : Expr → Bool) (Inv : Environment → Prop) : Prop where
  lit : ∀ t, node (.lit t) = false
  bind : ∀ op name items, node (.bind op name items) = true
  pool : ∀ {env key pool}, Inv env → env.get? key = some pool →
    pool ≠ [] ∧ ∀ e ∈ pool, e.Lacks node
  draw : ∀ {env name key pool i}, node (.draw name) = false → Inv env →
    env.get? key = some pool → i < pool.length → Inv (env.put key (pool.eraseIdx i))

namespace KeptByDraws

variable {σ : Type} {node : Expr → Bool} {Inv : Environment → Prop}

def contract (h : KeptByDraws node Inv) (src : Source σ) : Eval.Contract src where
  Inv w := Inv w.env
  Fine e := e.Lacks node
  Answer _ := True
  Failing _ := True
  lit t := Expr.lacks_lit (h.lit t)
  mix he := ⟨he.part List.mem_cons_self, he.part (List.mem_cons_of_mem _ List.mem_cons_self)⟩
  ref he := he.part List.mem_cons_self
  draw he := he.part List.mem_cons_self
  bind he := by
    have hbind := he _ _ .root
    rw [h.bind] at hbind
    cases hbind
  text _ := trivial
  missing _ := trivial
  undefined _ := trivial
  note _ hw := hw
  choose _ hw := ⟨Or.inr ⟨trivial, fun _ => trivial⟩, hw⟩
  pool hw hpool := h.pool hw hpool
  remove hname hw hpool hi := by
    rw [Environment.remove_of_get? hpool, List.getElem?_eq_getElem hi]
    exact ⟨_, _, rfl, (h.pool hw hpool).2 _ (List.getElem_mem hi),
      h.draw (hname _ _ .root) hw hpool hi⟩

/-- What every draw keeps, evaluation keeps. -/
theorem evaluate (h : KeptByDraws node Inv) (src : Source σ) (limit : Limit) {e : Expr}
    (he : e.Lacks node) {env : Environment} (henv : Inv env) (source : σ) :
    Inv (evaluate src limit e env source).env := by
  have hkeeps : (h.contract src).Keeps (fun _ => True)
      (Eval.expr src (Eval.memberAt src limit limit.budget) e) :=
    Eval.Contract.keeps_expr (Eval.Contract.keeps_memberAt trivial limit.budget) he
  have hkept := hkeeps { env, source } henv
  rw [evaluate_eq_limited, limited]
  generalize Eval.expr src (Eval.memberAt src limit limit.budget) e { env, source } = r at hkept
  cases hkept with
  | ok hw _ => exact hw
  | error _ _ => exact henv

end KeptByDraws

theorem leftOf_keptByDraws (before : Environment) :
    KeptByDraws Expr.isBinding fun env =>
      env.Sound ∧ env.Lacks Expr.isBinding ∧ env.LeftOf before where
  lit _ := rfl
  bind _ _ _ := rfl
  pool := by
    rintro env key pool ⟨hsound, hlacks, -⟩ hpool
    have hmem := hsound.mem_of_get? hpool
    exact ⟨hsound.pools _ hmem, hlacks _ hmem⟩
  draw := by
    rintro env name key pool i - ⟨hsound, hlacks, hleft⟩ hpool hi
    have hmembers := hlacks _ (hsound.mem_of_get? hpool)
    refine ⟨hsound.put _ _, ?_, ?_⟩
    · exact hlacks.put (fun e he => hmembers e (List.mem_of_mem_eraseIdx he)) key
    · exact (hsound.put_leftOf hpool (List.eraseIdx_sublist pool i)).trans hleft

theorem eq_keptByDraws {before : Environment} (hsound : before.Sound)
    (hlacks : before.Lacks fun e => e.isBinding || e.isDraw) :
    KeptByDraws (fun e => e.isBinding || e.isDraw) fun env => env = before where
  lit _ := rfl
  bind _ _ _ := rfl
  pool := by
    rintro env key pool rfl hpool
    have hmem := hsound.mem_of_get? hpool
    exact ⟨hsound.pools _ hmem, hlacks _ hmem⟩
  draw hname := by cases hname

/-- Without bindings there is nothing but draws. If no binding occurs in the expression or in a
member of a pool, then evaluation leaves some of the names, in order, and each bound to some of the
members that it had, in order. If no draw occurs either, it leaves the environment as it was. -/
theorem evaluate_only_draws {σ : Type} (src : Source σ) (limit : Limit) {env : Environment}
    (henv : env.Sound) (hmembers : env.Lacks Expr.isBinding) {e : Expr}
    (he : e.Lacks Expr.isBinding) (source : σ) :
    (evaluate src limit e env source).env.keys.Sublist env.keys ∧
      (∀ key pool, (evaluate src limit e env source).env.get? key = some pool →
        ∃ old, env.get? key = some old ∧ pool.Sublist old) ∧
      (env.Lacks Expr.isDraw → e.Lacks Expr.isDraw →
        (evaluate src limit e env source).env = env) := by
  obtain ⟨hsound, -, hleft⟩ := (leftOf_keptByDraws env).evaluate src limit he
    ⟨henv, hmembers, Environment.leftOf_refl env⟩ source
  refine ⟨hleft.keys, fun key pool hpool => hleft.get? henv hsound hpool, ?_⟩
  intro hdraws hedraws
  have hboth : env.Lacks fun e => e.isBinding || e.isDraw :=
    fun b hb m hm => (hmembers b hb m hm).or (hdraws b hb m hm)
  exact (eq_keptByDraws henv hboth).evaluate src limit (he.or hedraws) rfl source

/-- The only member of a pool is drawn and draws from another pool itself. The first name goes and
the second pool keeps the rest. A reference to it then leaves all as it is. -/
theorem evaluate_only_draws_pet :
    ∃ (src : Source Unit) (env left : Environment) (e e' : Expr), env.Sound ∧
      env.Lacks Expr.isBinding ∧ e.Lacks Expr.isBinding ∧
      env.entries = [(utf8 "pet", [.draw (.lit (utf8 "cat"))]),
        (utf8 "cat", [.lit (utf8 "Tom"), .lit (utf8 "Kit")])] ∧
      (evaluate src (.atMost 9) e env ()).env = left ∧
      left.entries = [(utf8 "cat", [.lit (utf8 "Kit")])] ∧ left.keys.Sublist env.keys ∧
      (∃ old, env.get? (utf8 "cat") = some old ∧ [Expr.lit (utf8 "Kit")].Sublist old) ∧
      left.Lacks Expr.isDraw ∧ e'.Lacks Expr.isDraw ∧
      (evaluate src (.atMost 9) e' left ()).env = left := by
  let src : Source Unit := ⟨fun _ s => (0, s)⟩
  let pets : Pool := [.draw (.lit (utf8 "cat"))]
  let cats : Pool := [.lit (utf8 "Tom"), .lit (utf8 "Kit")]
  let env := (Environment.empty.put (utf8 "pet") pets).put (utf8 "cat") cats
  let fewer := env.put (utf8 "pet") []
  let left := fewer.put (utf8 "cat") [.lit (utf8 "Kit")]
  have hempty := Environment.sound_empty
  have henv : env.Sound := (hempty.put _ _).put _ _
  have hfewer : fewer.Sound := henv.put _ _
  have hleft : left.Sound := hfewer.put _ _
  have hentries : env.entries = [(utf8 "pet", pets), (utf8 "cat", cats)] := by
    rw [(hempty.put _ _).put_entries, hempty.put_entries]
    rfl
  have hfewerEntries : fewer.entries = [(utf8 "cat", cats)] := by
    rw [henv.put_entries, hentries]
    rfl
  have hleftEntries : left.entries = [(utf8 "cat", [.lit (utf8 "Kit")])] := by
    rw [hfewer.put_entries, hfewerEntries]
    rfl
  have hpet : env.get? (utf8 "pet") = some pets := henv.get?_of_mem (by simp [hentries])
  have hcat : fewer.get? (utf8 "cat") = some cats := hfewer.get?_of_mem (by simp [hfewerEntries])
  have hkit : left.get? (utf8 "cat") = some [.lit (utf8 "Kit")] :=
    hleft.get?_of_mem (by simp [hleftEntries])
  have hdraw : ∀ t, (Expr.draw (.lit t)).Lacks Expr.isBinding := fun t =>
    Expr.lacks_iff.2 ⟨rfl, List.forall_mem_singleton.2 (Expr.lacks_lit rfl)⟩
  have href : ∀ node : Expr → Bool, node (.lit (utf8 "cat")) = false →
      node (.ref (.lit (utf8 "cat"))) = false → (Expr.ref (.lit (utf8 "cat"))).Lacks node :=
    fun node hlit h => Expr.lacks_iff.2 ⟨h, List.forall_mem_singleton.2 (Expr.lacks_lit hlit)⟩
  have hmembers : env.Lacks Expr.isBinding := by
    rw [Environment.Lacks, hentries]
    refine List.forall_mem_cons.2 ⟨List.forall_mem_singleton.2 (hdraw _),
      List.forall_mem_singleton.2 (List.forall_mem_cons.2 ⟨Expr.lacks_lit rfl, ?_⟩)⟩
    exact List.forall_mem_singleton.2 (Expr.lacks_lit rfl)
  have hliterals : ∀ node : Expr → Bool, node (.lit (utf8 "Kit")) = false → left.Lacks node := by
    intro node hnode
    rw [Environment.Lacks, hleftEntries]
    exact List.forall_mem_singleton.2 (List.forall_mem_singleton.2 (Expr.lacks_lit hnode))
  have htake : Eval.takeOut src (utf8 "pet") pets { env, source := () } =
      .ok (.draw (.lit (utf8 "cat"))) { env := fewer, source := (), asked := [1] } := by
    rw [Eval.takeOut_apply, Environment.remove_of_get? hpet]
    rfl
  have htake' : Eval.takeOut src (utf8 "cat") cats { env := fewer, source := (), asked := [1] } =
      .ok (.lit (utf8 "Tom")) { env := left, source := (), asked := [2, 1] } := by
    rw [Eval.takeOut_apply, Environment.remove_of_get? hcat]
    rfl
  have hrun : Eval.Evaluates src (.atMost 9) 0 (.draw (.lit (utf8 "pet")))
      { env, source := () } _ _ :=
    .draw .lit hpet htake (.within rfl (.draw .lit hcat htake' (.within rfl .lit)))
  have hresult : (evaluate src (.atMost 9) (.draw (.lit (utf8 "pet"))) env ()).env = left := by
    rw [hrun.evaluate_eq]
    rfl
  obtain ⟨hkeys, hpools, -⟩ :=
    evaluate_only_draws src (.atMost 9) henv hmembers (hdraw (utf8 "pet")) ()
  obtain ⟨-, -, hsame⟩ :=
    evaluate_only_draws src (.atMost 9) hleft (hliterals _ rfl) (href _ rfl rfl) ()
  exact ⟨src, env, left, .draw (.lit (utf8 "pet")), .ref (.lit (utf8 "cat")), henv, hmembers,
    hdraw _, hentries, hresult, hleftEntries, hresult ▸ hkeys, hpools _ _ (hresult ▸ hkit),
    hliterals _ rfl, href _ rfl rfl, hsame (hliterals _ rfl) (href _ rfl rfl)⟩

end PoolProse
