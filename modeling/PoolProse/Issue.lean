import PoolProse.Text

/-!
# Issues

A problem that is reported to the user: a message, how severe it is, and where it was found.
-/
namespace PoolProse

inductive Severity where
  | notice
  | deprecation
  | warning
  | error
  deriving DecidableEq, Repr

namespace Severity

def ofNumber (n : Int) : Severity :=
  if n = 4 then .error
  else if n = 3 then .warning
  else if n = 2 then .deprecation
  else .notice

def label : Severity → String
  | .notice => "notice"
  | .deprecation => "deprecation"
  | .warning => "warning"
  | .error => "error"

end Severity

/-- A place in a file. A line or column that is not positive is unknown. -/
structure Location where
  file : Text
  line : Int
  column : Int
  deriving DecidableEq, Repr

/-- The location as `(file: f, line: l, column: c)`, without the parts that are unknown. -/
def Location.render (l : Location) : Text :=
  if l.file.isEmpty && l.line ≤ 0 then []
  else
    let file := if l.file.isEmpty then [] else utf8 "file: " ++ l.file
    let comma := if l.file.isEmpty || l.line ≤ 0 then [] else utf8 ", "
    let line := if l.line ≤ 0 then [] else utf8 "line: " ++ Text.ofInt l.line
    let column :=
      if l.line ≤ 0 || l.column ≤ 0 then [] else utf8 ", column: " ++ Text.ofInt l.column
    utf8 "(" ++ file ++ comma ++ line ++ column ++ utf8 ")"

structure Issue where
  severity : Severity
  text : Text
  location : Option Location := none
  deriving DecidableEq, Repr

def Issue.message (i : Issue) : Text :=
  match i.location with
  | none => i.text
  | some l => i.text ++ utf8 " " ++ l.render

end PoolProse
