import PoolProse.Proofs.Simulation

/-!
# Evaluation with something kept beside the source

A count or a record of what evaluation does is kept with the state of the source of choices. It has
no part in what is chosen, and no step of evaluation looks at it, so evaluation with it is compared
with evaluation without it at the places where it is changed on purpose.
-/
namespace PoolProse

structure Extended (σ κ : Type) where
  state : σ
  extra : κ

/-- The source makes its choices without regard to what is kept, and `note` tells it the bound and
the answer. -/
def Extended.source {σ κ : Type} (src : Source σ) (note : Nat → Nat → κ → κ) :
    Source (Extended σ κ) where
  choose n s :=
    ((src.choose n s.state).1,
      ⟨(src.choose n s.state).2, note n (src.choose n s.state).1 s.extra⟩)

def Extended.silent {σ : Type} (κ : Type) (src : Source σ) : Source (Extended σ κ) :=
  source src fun _ _ => id

namespace World

variable {σ κ : Type}

def adjust (f : κ → κ) (w : World (Extended σ κ)) : World (Extended σ κ) :=
  { w with source := { w.source with extra := f w.source.extra } }

def bare (w : World (Extended σ κ)) : World σ where
  env := w.env
  source := w.source.state
  asked := w.asked
  log := w.log

end World

namespace Eval

variable {σ κ : Type} {α β : Type}

theorem bind_apply (m : Eval σ α) (f : α → Eval σ β) (w : World σ) :
    (m >>= f) w =
      match m w with
      | .ok a u => f a u
      | .error e u => .error e u := by
  change EStateM.bind m f w = _
  unfold EStateM.bind
  cases m w <;> rfl

theorem look_apply (f : World σ → Eval σ α) (w : World σ) : (get >>= f) w = f w w := rfl

theorem takeOut_apply (src : Source σ) (key : Text) (pool : Pool) (w : World σ) :
    takeOut src key pool w =
      match w.env.remove key (src.choose pool.length w.source).1 with
      | .ok (e, env) =>
        .ok e { env, source := (src.choose pool.length w.source).2,
                asked := pool.length :: w.asked, log := w.log }
      | .error f =>
        .error (.badRemoval f) { w with source := (src.choose pool.length w.source).2,
                                        asked := pool.length :: w.asked } := by
  unfold takeOut
  change (match w.env.remove key (src.choose pool.length w.source).1 with
    | .ok (e, env) => _
    | .error f => _ : Eval σ Expr) _ = _
  cases w.env.remove key (src.choose pool.length w.source).1 <;> rfl

/-- Both computations end in the same way, and what is kept is as it was in `w`. -/
inductive Untouched (R : α → β → Prop) (w : World (Extended σ κ)) :
    EStateM.Result Failure (World (Extended σ κ)) β →
      EStateM.Result Failure (World σ) α → Prop where
  | ok {a : α} {b : β} {u : World (Extended σ κ)} (h : R a b)
      (hu : u.source.extra = w.source.extra) : Untouched R w (.ok b u) (.ok a u.bare)
  | error {f : Failure} {u : World (Extended σ κ)} (hu : u.source.extra = w.source.extra) :
      Untouched R w (.error f u) (.error f u.bare)

/-- A relation that computations are in as long as they do not touch what is kept, and that goes on
from one computation to the next, is kept by every step of evaluation. -/
def beside (src : Source σ)
    (Rel : ∀ {α β : Type}, (α → β → Prop) → Eval σ α → Eval (Extended σ κ) β → Prop)
    (bind : ∀ {α β γ δ : Type} {R : α → β → Prop} {T : γ → δ → Prop} {m : Eval σ α}
      {m' : Eval (Extended σ κ) β} {f : α → Eval σ γ} {f' : β → Eval (Extended σ κ) δ},
      Rel R m m' → (∀ a b, R a b → Rel T (f a) (f' b)) → Rel T (m >>= f) (m' >>= f'))
    (untouched : ∀ {α β : Type} {R : α → β → Prop} {m : Eval σ α} {m' : Eval (Extended σ κ) β},
      (∀ w, Untouched R w (m' w) (m w.bare)) → Rel R m m') :
    Simulation src (Extended.silent κ src) where
  Rel := Rel
  pure h := untouched fun _ => .ok h rfl
  throw _ := untouched fun _ => .error rfl
  bind := bind
  look := untouched fun _ => .ok (fun _ => rfl) rfl
  choose _ := untouched fun _ => .ok rfl rfl
  put _ _ := untouched fun _ => .ok rfl rfl
  delete _ := untouched fun _ => .ok rfl rfl
  takeOut key pool := untouched fun w => by
    rw [takeOut_apply, takeOut_apply]
    simp only [World.bare, Extended.silent, Extended.source]
    cases w.env.remove key (src.choose pool.length w.source.state).1 with
    | ok taken => exact .ok rfl rfl
    | error f => exact .error rfl
  note _ _ := untouched fun _ => .ok rfl rfl

end Eval

end PoolProse
