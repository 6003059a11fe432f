import PoolProse.Issue

/-!
# Logs

Log entries have a level. A collected log keeps all of them; a written log prints those at or above
a threshold, the quiet levels to one place and the loud ones to another.
-/
namespace PoolProse

inductive LogLevel where
  | debug
  | info
  | notice
  | warning
  | err
  deriving DecidableEq, Repr

namespace LogLevel

def all : List LogLevel := [.debug, .info, .notice, .warning, .err]

def label : LogLevel → String
  | .debug => "debug"
  | .info => "info"
  | .notice => "notice"
  | .warning => "warning"
  | .err => "err"

def severity : LogLevel → Nat
  | .debug => 0
  | .info => 1
  | .notice => 2
  | .warning => 3
  | .err => 4

def ofName? (t : Text) : Option LogLevel := all.find? fun l => utf8 l.label == t

/-- The severity of a level given by name, -1 if there is none of that name. -/
def severityOf (t : Text) : Int :=
  match ofName? t with
  | some l => l.severity
  | none => -1

/-- The level at which an issue is logged. -/
def ofSeverity : Severity → LogLevel
  | .error => .err
  | .warning => .warning
  | .deprecation => .warning
  | .notice => .notice

def isQuiet : LogLevel → Bool
  | .debug | .info | .notice => true
  | .warning | .err => false

end LogLevel

structure LogEntry where
  level : LogLevel
  message : Text
  deriving DecidableEq, Repr

def Issue.toLogEntry (i : Issue) : LogEntry := ⟨.ofSeverity i.severity, i.message⟩

abbrev Log := List LogEntry

namespace Log

def messages (log : Log) (level : LogLevel) : List Text :=
  (log.filter (·.level == level)).map LogEntry.message

/-- The lowest level that is written. A name that is no level counts as `notice`. -/
def threshold (name : Text) : LogLevel := (LogLevel.ofName? name).getD .notice

def line (e : LogEntry) : Text := utf8 e.level.label ++ utf8 ": " ++ e.message ++ utf8 "\n"

def isWritten (lowest : LogLevel) (e : LogEntry) : Bool := lowest.severity ≤ e.level.severity

def output (lowest : LogLevel) (log : Log) : Text :=
  (log.filter fun e => isWritten lowest e && e.level.isQuiet).flatMap line

def errors (lowest : LogLevel) (log : Log) : Text :=
  (log.filter fun e => isWritten lowest e && !e.level.isQuiet).flatMap line

end Log

end PoolProse
