import PoolProse.Text

/-!
# Files

A directory of files, as far as reading them goes. Names may have directories in them.
-/
namespace PoolProse

abbrev Files := List (Text × Text)

inductive FileError where
  | notFound (path : Text)
  | notDirectory (path : Text)
  | isDirectory (path : Text)
  | denied (path : Text)
  | invalid (path : Text)
  | tooLong (path : Text)
  deriving DecidableEq, Repr

def FileError.message : FileError → Text
  | .notFound path => utf8 "open " ++ path ++ utf8 ": no such file or directory"
  | .notDirectory path => utf8 "open " ++ path ++ utf8 ": not a directory"
  | .isDirectory path => utf8 "read " ++ path ++ utf8 ": is a directory"
  | .denied path => utf8 "open " ++ path ++ utf8 ": permission denied"
  | .invalid path => utf8 "open " ++ path ++ utf8 ": invalid argument"
  | .tooLong path => utf8 "open " ++ path ++ utf8 ": file name too long"

abbrev FileReader := Text → Except FileError Text

namespace Files

def slash : UInt8 := 0x2F

def components : Text → List Text
  | [] => [[]]
  | b :: t =>
    match components t with
    | [] => [[b]]
    | c :: cs => if b == slash then [] :: c :: cs else (b :: c) :: cs

/-- The directory at `dirs`, the innermost first, as the beginning of names in it. -/
def nameOf (dirs : List Text) : Text := Text.joinWith [slash] dirs.reverse

def isDirectory (files : Files) (dirs : List Text) : Bool :=
  files.any fun (name, _) => (nameOf dirs ++ [slash]).isPrefixOf name

def longestName : Nat := 255

def longestPath : Nat := 4095

/-- Walks along a path from a directory around the current one. Such directories hold no files. -/
def walkOutside (path : Text) : List Text → Except FileError Text
  | [] => .error (.isDirectory path)
  | c :: cs =>
    if c.isEmpty || c == utf8 "." || c == utf8 ".." then walkOutside path cs
    else if longestName < c.length then .error (.tooLong path)
    else .error (.notFound path)

def walk (files : Files) (path : Text) (dirs : List Text) : List Text → Except FileError Text
  | [] => .error (.isDirectory path)
  | c :: cs =>
    if c.isEmpty || c == utf8 "." then walk files path dirs cs
    else if c == utf8 ".." then
      match dirs with
      | [] => walkOutside path cs
      | _ :: ds => walk files path ds cs
    else if longestName < c.length then .error (.tooLong path)
    else
      match files.lookup (nameOf (c :: dirs)) with
      | some t => if cs.isEmpty then .ok t else .error (.notDirectory path)
      | none =>
        if isDirectory files (c :: dirs) then walk files path (c :: dirs) cs
        else .error (.notFound path)

/-- The content of the file at a path. No path has a NUL byte. -/
def read (files : Files) : FileReader := fun path =>
  match path with
  | [] => .error (.notFound path)
  | b :: t =>
    if path.contains Ascii.nul then .error (.invalid path)
    else if longestPath < path.length then .error (.tooLong path)
    else if b == slash then walkOutside path (components t)
    else walk files path [] (components path)

end Files

end PoolProse
