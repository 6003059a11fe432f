import PoolProse.Text.CodePoint

/-!
# Arguments of the command line

Options are single letters behind a dash and may be written together. A letter that takes an
argument takes the rest of its word, or the next word if nothing is left.
-/
namespace PoolProse

namespace CommandLine

inductive Flag where
  | seed (value : Text)
  | settings (path : Text)
  | count (value : Text)
  | text (value : Text)
  | dump
  | verbose
  | help
  deriving DecidableEq, Repr

inductive Letter where
  | alone (f : Flag)
  | withArgument (f : Text → Flag)

def Letter.ofChar? : Char → Option Letter
  | 's' => some (.withArgument .seed)
  | 'c' => some (.withArgument .settings)
  | 'n' => some (.withArgument .count)
  | 'e' => some (.withArgument .text)
  | 'd' => some (.alone .dump)
  | 'v' => some (.alone .verbose)
  | 'h' => some (.alone .help)
  | _ => none

inductive ArgumentError where
  | unknownOption (letter : CodePoint)
  | missingArgument (letter : CodePoint)
  deriving Repr

def ArgumentError.message : ArgumentError → Text
  | .unknownOption r => utf8 "invocat: unknown option -" ++ CodePoint.encode r.code
  | .missingArgument r => utf8 "invocat: expected argument for -" ++ CodePoint.encode r.code

/-- The options in one word. If the last of them still needs its argument, its letter and what it
becomes are given apart. -/
def wordFlags :
    List CodePoint → Except ArgumentError (List Flag × Option (CodePoint × (Text → Flag)))
  | [] => .ok ([], none)
  | r :: rs =>
    match Letter.ofChar? (Char.ofNat r.code) with
    | none => .error (.unknownOption r)
    | some (.alone f) => (wordFlags rs).map fun (fs, open_) => (f :: fs, open_)
    | some (.withArgument f) =>
      if rs.isEmpty then .ok ([], some (r, f)) else .ok ([f (Text.ofCodePoints rs)], none)

def isOption : Text → Bool
  | b :: _ :: _ => b == 0x2D
  | _ => false

/-- The options, and the words that follow them. -/
def arguments : List Text → Except ArgumentError (List Flag × List Text)
  | [] => .ok ([], [])
  | word :: rest =>
    if word == utf8 "--" then .ok ([], rest)
    else if !isOption word then .ok ([], word :: rest)
    else
      match wordFlags (Text.codePoints word.tail), rest with
      | .error e, _ => .error e
      | .ok (fs, none), rest => (arguments rest).map fun (gs, ws) => (fs ++ gs, ws)
      | .ok (_, some (r, _)), [] => .error (.missingArgument r)
      | .ok (fs, some (_, f)), value :: rest =>
        (arguments rest).map fun (gs, ws) => (fs ++ f value :: gs, ws)

end CommandLine

end PoolProse
