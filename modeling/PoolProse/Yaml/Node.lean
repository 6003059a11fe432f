import PoolProse.Yaml.Scalar
import PoolProse.Yaml.Scan

/-!
# YAML nodes

The first document of a stream as a tree of scalars, sequences and mappings. An alias names the
number of the anchored node that it stands for.
-/
namespace PoolProse.Yaml

inductive Node where
  /-- A scalar is implicit if it is plain and has no tag. -/
  | scalar (line : Nat) (tag : Text) (implicit : Bool) (value : Text)
  | sequence (line : Nat) (items : List Node)
  | mapping (line : Nat) (pairs : List (Node × Node))
  /-- `serial` tells the aliases of a document apart. -/
  | alias (line : Nat) (name : Text) (target serial : Nat)
  deriving Repr, Inhabited

structure Anchored where
  nodes : List (Nat × Node) := []
  /-- The number of the latest node with each anchor. -/
  latest : List (Text × Nat) := []
  deriving Repr

namespace Anchored

def node? (a : Anchored) (number : Nat) : Option Node := a.nodes.lookup number

def latest? (a : Anchored) (name : Text) : Option Node :=
  (a.latest.lookup name).bind a.node?

end Anchored

namespace Node

/-- What is known while a document is read. -/
structure Reader where
  scanner : Scanner
  /-- What the handles of tags stand for. -/
  handles : List (Text × Text) := []
  anchored : Anchored := {}
  /-- The number of anchors and aliases so far. -/
  count : Nat := 0

abbrev Read := StateT Reader (Except Error)

namespace Read

def lift {α : Type} (m : Scan α) : Read α := fun r =>
  match m r.scanner with
  | .ok (a, s) => .ok (a, { r with scanner := s })
  | .error e => .error e

def peek : Read Token := lift Scan.peek

def take : Read Unit := lift Scan.take

/-- Reports a problem at a token. On the first line, the place of the surrounding part is given. -/
def failAt {α : Type} (p : Problem) (m context : Mark) : Read α :=
  throw (.problem p (if m.line = 0 then context.line else m.line))

def blank (m : Mark) : Node := .scalar m.line [] true []

/-- Gives a number to an anchor before the node that it marks is read. -/
def declare (anchor : Option Text) : Read Nat := do
  let r ← get
  match anchor with
  | none => return r.count
  | some name =>
    let a := r.anchored
    let latest := (name, r.count) :: a.latest
    set { r with anchored := { a with latest }, count := r.count + 1 }
    return r.count

def define (anchor : Option Text) (number : Nat) (n : Node) : Read Node := do
  if anchor.isSome then
    modify fun r =>
      { r with anchored := { r.anchored with nodes := (number, n) :: r.anchored.nodes } }
  return n

def aliasNode (m : Mark) (name : Text) : Read Node := do
  let r ← get
  match r.anchored.latest.lookup name with
  | none => throw (.unknownAnchor name)
  | some target =>
    set { r with count := r.count + 1 }
    return .alias m.line name target r.count

/-! ## Anchors and tags before a node -/

structure Properties where
  anchor : Option Text := none
  tag : Option (Text × Text × Mark) := none

def properties : Read Properties := do
  let t ← peek
  match t.kind with
  | .anchor name =>
    take
    let u ← peek
    match u.kind with
    | .tag handle suffix =>
      take
      return ⟨some name, some (handle, suffix, u.start)⟩
    | _ => return ⟨some name, none⟩
  | .tag handle suffix =>
    take
    let u ← peek
    match u.kind with
    | .anchor name =>
      take
      return ⟨some name, some (handle, suffix, t.start)⟩
    | _ => return ⟨none, some (handle, suffix, t.start)⟩
  | _ => return {}

def resolveTag (start : Mark) (p : Properties) : Read Text := do
  match p.tag with
  | none => return []
  | some (handle, suffix, m) =>
    if handle.isEmpty then return suffix
    else
      match (← get).handles.lookup handle with
      | some lead => return lead ++ suffix
      | none => failAt .undefinedTagHandle m start

/-! ## Nodes -/

def isOneOf (t : Token) (kinds : List TokenKind) : Bool := kinds.contains t.kind

mutual

/-- A node. Outside of flow collections it may be a block collection, and as a value of a mapping a
sequence that is not indented. -/
def node : (fuel : Nat) → (block indentless : Bool) → Read Node
  | 0, _, _ => throw (.problem .tooManyTokens 0)
  | fuel + 1, block, indentless => do
    let first ← peek
    match first.kind with
    | .alias name =>
      take
      aliasNode first.start name
    | _ =>
      let start := first.start
      let props ← properties
      let t ← peek
      let tag ← resolveTag start props
      let number ← declare props.anchor
      let line := start.line
      match t.kind with
      | .scalar value plain =>
        take
        let implicit := (tag.isEmpty && plain) || tag == utf8 "!"
        define props.anchor number (.scalar line tag implicit value)
      | .flowSequenceStart =>
        take
        let items ← flowSequence fuel t.start true
        define props.anchor number (.sequence line items)
      | .flowMappingStart =>
        take
        let pairs ← flowMapping fuel t.start true
        define props.anchor number (.mapping line pairs)
      | k =>
        if indentless && k == .blockEntry then
          let items ← indentlessSequence fuel
          define props.anchor number (.sequence line items)
        else if block && k == .blockSequenceStart then
          take
          let items ← blockSequence fuel t.start
          define props.anchor number (.sequence line items)
        else if block && k == .blockMappingStart then
          take
          let pairs ← blockMapping fuel t.start
          define props.anchor number (.mapping line pairs)
        else if props.anchor.isSome || !tag.isEmpty then
          define props.anchor number (.scalar line tag tag.isEmpty [])
        else failAt .missingContent t.start start

def blockSequence : (fuel : Nat) → (start : Mark) → Read (List Node)
  | 0, _ => throw (.problem .tooManyTokens 0)
  | fuel + 1, start => do
    let t ← peek
    match t.kind with
    | .blockEntry =>
      take
      let u ← peek
      let n ←
        if isOneOf u [.blockEntry, .blockEnd] then pure (blank t.start) else node fuel true false
      return n :: (← blockSequence fuel start)
    | .blockEnd =>
      take
      return []
    | _ => failAt .missingDash t.start start

/-- The entries of a sequence at the indentation of the mapping around it. -/
def indentlessSequence : (fuel : Nat) → Read (List Node)
  | 0 => throw (.problem .tooManyTokens 0)
  | fuel + 1 => do
    let t ← peek
    match t.kind with
    | .blockEntry =>
      take
      let u ← peek
      let n ←
        if isOneOf u [.blockEntry, .key, .value, .blockEnd] then pure (blank t.start)
        else node fuel true false
      return n :: (← indentlessSequence fuel)
    | _ => return []

def blockMapping : (fuel : Nat) → (start : Mark) → Read (List (Node × Node))
  | 0, _ => throw (.problem .tooManyTokens 0)
  | fuel + 1, start => do
    let t ← peek
    match t.kind with
    | .key =>
      take
      let u ← peek
      let k ←
        if isOneOf u [.key, .value, .blockEnd] then pure (blank t.start) else node fuel true true
      let v ← blockValue fuel
      return (k, v) :: (← blockMapping fuel start)
    | .blockEnd =>
      take
      return []
    | _ => failAt .missingKey t.start start

def blockValue : (fuel : Nat) → Read Node
  | 0 => throw (.problem .tooManyTokens 0)
  | fuel + 1 => do
    let t ← peek
    match t.kind with
    | .value =>
      take
      let u ← peek
      if isOneOf u [.key, .value, .blockEnd] then return blank t.start else node fuel true true
    | _ => return blank t.start

def flowSequence : (fuel : Nat) → (start : Mark) → (first : Bool) → Read (List Node)
  | 0, _, _ => throw (.problem .tooManyTokens 0)
  | fuel + 1, start, first => do
    let t ← peek
    if t.kind == .flowSequenceEnd then
      take
      return []
    else
      unless first do
        if t.kind == .flowEntry then take else failAt .missingCommaOrBracket t.start start
      let t ← peek
      match t.kind with
      | .key =>
        take
        let n ← singlePair fuel t.start
        return n :: (← flowSequence fuel start false)
      | .flowSequenceEnd =>
        take
        return []
      | _ =>
        let n ← node fuel false false
        return n :: (← flowSequence fuel start false)

/-- A pair in a flow sequence, which is a mapping of its own. -/
def singlePair : (fuel : Nat) → (start : Mark) → Read Node
  | 0, _ => throw (.problem .tooManyTokens 0)
  | fuel + 1, start => do
    let t ← peek
    let k ←
      if isOneOf t [.value, .flowEntry, .flowSequenceEnd] then
        take
        pure (blank t.start)
      else node fuel false false
    let t ← peek
    let v ←
      if t.kind == .value then
        take
        let u ← peek
        if isOneOf u [.flowEntry, .flowSequenceEnd] then pure (blank u.start)
        else node fuel false false
      else pure (blank t.start)
    return .mapping start.line [(k, v)]

def flowMapping : (fuel : Nat) → (start : Mark) → (first : Bool) → Read (List (Node × Node))
  | 0, _, _ => throw (.problem .tooManyTokens 0)
  | fuel + 1, start, first => do
    let t ← peek
    if t.kind == .flowMappingEnd then
      take
      return []
    else
      unless first do
        if t.kind == .flowEntry then take else failAt .missingCommaOrBrace t.start start
      let t ← peek
      match t.kind with
      | .key =>
        take
        let u ← peek
        let k ←
          if isOneOf u [.value, .flowEntry, .flowMappingEnd] then pure (blank u.start)
          else node fuel false false
        let v ← flowValue fuel
        return (k, v) :: (← flowMapping fuel start false)
      | .flowMappingEnd =>
        take
        return []
      | _ =>
        let k ← node fuel false false
        let u ← peek
        return (k, blank u.start) :: (← flowMapping fuel start false)

def flowValue : (fuel : Nat) → Read Node
  | 0 => throw (.problem .tooManyTokens 0)
  | fuel + 1 => do
    let t ← peek
    if t.kind == .value then
      take
      let u ← peek
      if isOneOf u [.flowEntry, .flowMappingEnd] then return blank u.start
      else node fuel false false
    else return blank t.start

end

/-! ## Documents -/

def directives : (fuel : Nat) → (versioned : Bool) → Read Unit
  | 0, _ => throw (.problem .tooManyTokens 0)
  | fuel + 1, versioned => do
    let t ← peek
    match t.kind with
    | .version major minor =>
      if versioned then failAt .duplicateVersion t.start {}
      else if major != 1 || minor != 1 then failAt .incompatibleVersion t.start {}
      else
        take
        directives fuel true
    | .tagDirective handle lead =>
      let r ← get
      if (r.handles.lookup handle).isSome then failAt .duplicateTagDirective t.start {}
      else
        set { r with handles := (handle, lead) :: r.handles }
        take
        directives fuel versioned
    | _ => return

/-- Adds the handles that need no directive, unless one was given for them. -/
def defaultHandles : Read Unit :=
  modify fun r =>
    { r with handles := r.handles ++ [(utf8 "!", utf8 "!"), (utf8 "!!", tagBase)] }

def root (fuel : Nat) : Read Node := do
  let t ← peek
  match t.kind with
  | .version .. | .tagDirective .. | .documentStart | .documentEnd | .streamEnd =>
    return blank t.start
  | _ => node fuel true false

def document (fuel : Nat) : Read (Option Node) := do
  take
  let t ← peek
  match t.kind with
  | .streamEnd => return none
  | .version .. | .tagDirective .. | .documentStart =>
    directives fuel false
    defaultHandles
    let t ← peek
    if t.kind == .documentStart then
      take
      let n ← root fuel
      let _ ← peek
      return some n
    else failAt .missingDocumentStart t.start {}
  | _ =>
    defaultHandles
    let n ← node fuel true false
    let _ ← peek
    return some n

def stream (fuel : Nat) : Read (Option Node) := do
  let _ ← peek
  document fuel

end Read

/-- The root of the first document of a text, if there is one, and the nodes that are anchored. -/
def parse (t : Text) : Except Error (Option Node × Anchored) := do
  match Read.stream (10 * t.length + 50) { scanner := .ofText t } with
  | .error e => throw e
  | .ok (n, r) => return (n, r.anchored)

end Node

end PoolProse.Yaml
