import PoolProse.Expr
import Std.Data.HashMap

/-!
# Environments

An environment binds names to pools and remembers the order in which the names were entered. A name
is bound only while its pool has members. An index finds the entry of a name.
-/
namespace PoolProse

structure Environment where
  entries : List (Text × Pool)
  /-- The position in `entries` of every bound name. -/
  index : Std.HashMap Text Nat

namespace Environment

def empty : Environment := ⟨[], ∅⟩

instance : Inhabited Environment := ⟨empty⟩

/-! ## Looking up -/

def get? (env : Environment) (key : Text) : Option Pool :=
  match env.index[key]? with
  | none => none
  | some p => env.entries[p]?.map Prod.snd

def includes (env : Environment) (key : Text) : Bool := env.index.contains key

def size (env : Environment) : Nat := env.entries.length

def isEmpty (env : Environment) : Bool := env.entries.isEmpty

def keys (env : Environment) : List Text := env.entries.map Prod.fst

/-! ## Changing -/

def delete (env : Environment) (key : Text) : Environment :=
  match env.index[key]? with
  | none => env
  | some p =>
    { entries := env.entries.eraseIdx p
      index := (env.index.erase key).map fun _ q => if p < q then q - 1 else q }

/-- Binds a name, in its old place if it has one and at the end otherwise. The empty pool unbinds
it. -/
def put (env : Environment) (key : Text) (pool : Pool) : Environment :=
  if pool.isEmpty then env.delete key
  else
    match env.index[key]? with
    | some p => { env with entries := env.entries.set p (key, pool) }
    | none =>
      { entries := env.entries ++ [(key, pool)]
        index := env.index.insert key env.entries.length }

inductive RemoveFailure where
  | noPool (key : Text)
  | noMember
  deriving DecidableEq, Repr

def RemoveFailure.message? : RemoveFailure → Option Text
  | .noPool key => some (utf8 "attempt to remove from a pool that doesn't exist: " ++ key)
  | .noMember => none

/-- Takes a member out of a pool. The last member takes the name with it. -/
def remove (env : Environment) (key : Text) (i : Nat) :
    Except RemoveFailure (Expr × Environment) :=
  match env.index[key]? with
  | none => .error (.noPool key)
  | some p =>
    let pool := (env.entries[p]?.map Prod.snd).getD []
    match pool[i]? with
    | none => .error .noMember
    | some e =>
      if pool.length = 1 then .ok (e, env.delete key)
      else .ok (e, { env with entries := env.entries.set p (key, pool.eraseIdx i) })

def removeAt (env : Environment) (key : Text) : Int → Except RemoveFailure (Expr × Environment)
  | .ofNat i => env.remove key i
  | .negSucc _ => if env.includes key then .error .noMember else .error (.noPool key)

/-! ## Comparison and source -/

/-- Whether two environments bind the same names to the same pools, in any order. -/
def equals (a b : Environment) : Bool :=
  a.size == b.size &&
    a.entries.all fun (key, pool) =>
      match b.index[key]? with
      | none => false
      | some p => Expr.sameAll pool ((b.entries[p]?.map Prod.snd).getD [])

def renderEntry (key : Text) (pool : Pool) : Text :=
  key ++ utf8 " => [" ++ Text.joinWith (utf8 " | ") (pool.map Expr.render) ++ utf8 "]"

def render (env : Environment) : Text :=
  utf8 "\x7b" ++
    Text.joinWith (utf8 ", ") (env.entries.map fun (key, pool) => renderEntry key pool) ++
    utf8 "\x7d"

def isComplete (env : Environment) : Bool := env.entries.all fun (_, pool) => Expr.allComplete pool

end Environment

end PoolProse
