import PoolProse.Files
import PoolProse.Settings
import PoolProse.Text.Base64
import PoolProse.Yaml.Node
import PoolProse.Yaml.Scalar

/-!
# Loading settings

Settings are the fields of a YAML mapping. A field that is left out keeps its default. All fields
that do not fit are reported together.
-/
namespace PoolProse

namespace Settings

open Yaml (Node Error Meaning shortTag standardTag)

/-! ## Scalars -/

inductive Content where
  | null
  | text (t : Text)
  | int (n : Int)
  | float (d : Yaml.Decimal)
  | other
  deriving Repr

def isResolvable (tag : Text) : Bool :=
  tag.isEmpty ||
    (["str", "bool", "int", "float", "null", "timestamp"].map standardTag).contains tag

def contentOf (value : Text) : Meaning → Content
  | .null => .null
  | .bool => .other
  | .int n => .int n
  | .float d => .float d
  | .timestamp => .other
  | .str => .text value

/-- What a scalar holds, and its tag. A tag that does not fit the text is an error, except that a
whole number may be a float. -/
def content (tag : Text) (implicit : Bool) (value : Text) : Except Error (Text × Content) :=
  if tag.isEmpty && !implicit then .ok (standardTag "str", .text value)
  else if !isResolvable tag then
    if tag == standardTag "binary" then
      match Base64.decode value with
      | some t => .ok (tag, .text t)
      | none => .error .badBase64
    else .ok (tag, .text value)
  else
    let meaning :=
      if tag == standardTag "str" then .str
      else Meaning.ofText (tag.isEmpty || tag == standardTag "timestamp") value
    if tag.isEmpty || tag == standardTag "str" || tag == meaning.tag then
      .ok (meaning.tag, contentOf value meaning)
    else
      let mismatch := Error.wrongTag (shortTag meaning.tag) value (shortTag tag)
      match meaning with
      | .int n =>
        if tag == standardTag "float" && n < Int.pow 2 63 then
          .ok (tag, .float (.finite (n < 0) n.natAbs 0))
        else .error mismatch
      | _ => .error mismatch

/-! ## Nodes -/

/-- Messages about fields that do not fit, in order. A failure ends the loading. -/
abbrev Loading := StateT (List Text) (Except Error)

def report (message : Text) : Loading Unit := modify (· ++ [message])

def lineText (line : Nat) : Text := utf8 "line " ++ Text.ofNat (line + 1) ++ utf8 ": "

/-- A tag and a value as they are shown in messages. Only the value of what is said to be a
collection is not quoted. -/
def described (tag value : Text) : Text :=
  let shown :=
    if tag == standardTag "seq" || tag == standardTag "map" then value
    else if 10 < value.length then utf8 " `" ++ value.take 7 ++ utf8 "...`"
    else utf8 " `" ++ value ++ utf8 "`"
  shortTag tag ++ shown

def reportType (line : Nat) (what : Text) (type : String) : Loading Unit :=
  report (lineText line ++ utf8 "cannot unmarshal " ++ what ++ utf8 " into " ++ utf8 type)

def reportNode (type : String) (found : Text) : Node → Loading Unit
  | .scalar line tag _ value =>
    reportType line (described (if tag.isEmpty then found else tag) value) type
  | .sequence line _ => reportType line (utf8 "!!seq") type
  | .mapping line _ => reportType line (utf8 "!!map") type
  | .alias line .. => reportType line found type

/-- The node that an alias stands for. -/
def follow (anchored : Yaml.Anchored) : Node → Node
  | .alias line name target serial =>
    (anchored.node? target).getD (.alias line name target serial)
  | n => n

def loadText (n : Node) : Loading (Option Text) := do
  match n with
  | .scalar _ tag implicit value =>
    let (_, c) ← content tag implicit value
    match c with
    | .null => return some []
    | .text t => return some t
    | _ => return some value
  | n =>
    reportNode "string" [] n
    return none

def loadOptional (n : Node) : Loading (Option (Option Text)) := do
  match n with
  | .scalar _ tag implicit value =>
    let absent :=
      tag == standardTag "null" ||
        (tag.isEmpty && implicit && [utf8 "null", utf8 "~", []].contains value)
    let t ← loadText n
    return if absent then some none else t.map some
  | n => return (← loadText n).map some

def leastInt : Int := -Int.pow 2 63

def wholeOf : Yaml.Decimal → Option Int
  | .undefined => none
  | .infinite negative => if negative then some leastInt else none
  | .finite negative digits exponent =>
    match (Yaml.Decimal.finite negative digits exponent).truncate? with
    | none => none
    | some n =>
      if Int.pow 2 63 < n then none
      else if n = Int.pow 2 63 || n < leastInt then some leastInt
      else some n

def loadInt (n : Node) : Loading (Option Int) := do
  match n with
  | .scalar _ tag implicit value =>
    let (found, c) ← content tag implicit value
    let result :=
      match c with
      | .null => some 0
      | .int i => if i < Int.pow 2 63 then some i else none
      | .float d => wholeOf d
      | _ => none
    if result.isNone then reportNode "int" found n
    return result
  | n =>
    reportNode "int" [] n
    return none

/-! ## Settings -/

def typeName : String := "settings.Settings"

inductive Field where
  | seed
  | requires
  | logLevel
  | maxDepth
  deriving DecidableEq, Repr

def Field.ofName? (t : Text) : Option Field :=
  [(utf8 "seed", Field.seed), (utf8 "requires", .requires), (utf8 "log_level", .logLevel),
    (utf8 "max_depth", .maxDepth)].lookup t

def loadField (anchored : Yaml.Anchored) (s : Settings) (f : Field) (value : Node) :
    Loading Settings := do
  let n := follow anchored value
  match f with
  | .seed => return { s with seed := (← loadOptional n).getD s.seed }
  | .requires => return { s with requires := (← loadText n).getD s.requires }
  | .logLevel => return { s with logLevel := (← loadText n).getD s.logLevel }
  | .maxDepth => return { s with maxDepth := (← loadInt n).getD s.maxDepth }

def isMerge : Node → Bool
  | .scalar _ tag implicit value =>
    value == utf8 "<<" && (implicit || tag == standardTag "merge")
  | _ => false

def lineOf : Node → Nat
  | .scalar line .. => line
  | .sequence line _ => line
  | .mapping line _ => line
  | .alias line .. => line

def isMapping : Node → Bool
  | .mapping .. => true
  | _ => false

/-- Whether a node may be merged. An alias may if the latest node with its anchor is a mapping, even
if an earlier one is meant. -/
def isMergeable (anchored : Yaml.Anchored) : Node → Bool
  | .alias _ name _ _ => ((anchored.latest? name).map isMapping).getD true
  | n => isMapping n

mutual

/-- Settings from a node. `open_` holds the aliases that are being followed. -/
def loadNode (anchored : Yaml.Anchored) :
    (fuel : Nat) → (open_ : List Nat) → Settings → Node → Loading Settings
  | 0, _, s, _ => return s
  | fuel + 1, open_, s, n => do
    match n with
    | .alias _ name _ serial =>
      if open_.contains serial then throw (.anchorContainsItself name)
      else loadNode anchored fuel (serial :: open_) s (follow anchored n)
    | .scalar _ tag implicit value =>
      let (found, c) ← content tag implicit value
      match c with
      | .null => return { seed := none, requires := [], logLevel := [], maxDepth := 0 }
      | _ =>
        reportNode typeName found n
        return s
    | .sequence .. =>
      reportNode typeName [] n
      return s
    | .mapping _ pairs => loadPairs anchored fuel open_ [] s pairs

/-- Settings from the pairs of a mapping. `done` holds the fields that have been set. -/
def loadPairs (anchored : Yaml.Anchored) :
    (fuel : Nat) → (open_ : List Nat) → (done : List Field) → Settings → List (Node × Node) →
      Loading Settings
  | 0, _, _, s, _ => return s
  | _, _, _, s, [] => return s
  | fuel + 1, open_, done, s, (k, v) :: rest => do
    if isMerge k then
      let s ← merge anchored fuel open_ s v
      loadPairs anchored fuel open_ done s rest
    else
      match ← loadText (follow anchored k) with
      | none => loadPairs anchored fuel open_ done s rest
      | some name =>
        match Field.ofName? name with
        | none =>
          report (lineText (lineOf k) ++ utf8 "field " ++ name ++ utf8 " not found in type " ++
            utf8 typeName)
          loadPairs anchored fuel open_ done s rest
        | some f =>
          if done.contains f then
            report (lineText (lineOf k) ++ utf8 "field " ++ name ++ utf8 " already set in type " ++
              utf8 typeName)
            loadPairs anchored fuel open_ done s rest
          else
            let s ← loadField anchored s f v
            loadPairs anchored fuel open_ (f :: done) s rest

/-- Settings from the value of a merge: a mapping, or mappings of which earlier ones win. -/
def merge (anchored : Yaml.Anchored) :
    (fuel : Nat) → (open_ : List Nat) → Settings → Node → Loading Settings
  | 0, _, s, _ => return s
  | fuel + 1, open_, s, n => do
    match n with
    | .sequence _ items => mergeItems anchored fuel open_ s items.reverse
    | n =>
      if isMergeable anchored n then loadNode anchored fuel open_ s n
      else throw .badMerge

def mergeItems (anchored : Yaml.Anchored) :
    (fuel : Nat) → (open_ : List Nat) → Settings → List Node → Loading Settings
  | 0, _, s, _ => return s
  | _, _, s, [] => return s
  | fuel + 1, open_, s, n :: rest => do
    if isMergeable anchored n then
      let s ← loadNode anchored fuel open_ s n
      mergeItems anchored fuel open_ s rest
    else throw .badMerge

end

def decode (t : Text) : Except Text Settings :=
  match Node.parse t with
  | .error e => .error e.message
  | .ok (none, _) => .ok {}
  | .ok (some n, anchored) =>
    match loadNode anchored (Nat.pow (t.length + 4) 2) [] {} n [] with
    | .error e => .error e.message
    | .ok (s, []) => .ok s
    | .ok (_, messages) =>
      .error (utf8 "yaml: unmarshal errors:\n  " ++ Text.joinWith (utf8 "\n  ") messages)

def load (source t : Text) : Except SettingsError Settings := do
  match decode t with
  | .error detail => throw (.unreadable source detail)
  | .ok s =>
    s.validate
    return s

def textSource : Text := utf8 "<string>"

def loadFile (read : FileReader) (path : Text) : Except SettingsError Settings :=
  match read path with
  | .error e => .error (.unreadable path e.message)
  | .ok t => load path t

end Settings

end PoolProse
