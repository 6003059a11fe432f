import PoolProse.CommandLine.Arguments
import PoolProse.Session
import PoolProse.Settings.Load

/-!
# The command line

A run evaluates files in order in one session, then a text from the command line as often as asked.
What it writes depends on nothing but the arguments, the files and the source of choices.
-/
namespace PoolProse

namespace CommandLine

def usage : Text :=
  ["usage: invocat [-s seed] [-c settings.yaml] [-n count] [-e text] [-d] [-v] [file...]",
    "",
    "Evaluates each file in order through one interpreter and prints the output,",
    "then evaluates the -e text count times.",
    "",
    "  -s seed   make the output reproducible",
    "  -c file   read settings from a YAML file",
    "  -n count  number of times to evaluate the -e text (default 1)",
    "  -e text   text to evaluate after all files",
    "  -d        dump the final environment as YAML",
    "  -v        log debug output",
    "  -h        show this help"].flatMap fun line => utf8 line ++ utf8 "\n"

/-! ## Writing -/

structure Written where
  stdout : Text := []
  stderr : Text := []
  deriving DecidableEq, Repr

/-- A failure that no message of the program covers. -/
inductive Crash where
  | position (f : Position.Failure)
  | evaluation (f : Failure)
  deriving DecidableEq, Repr

def Crash.message? : Crash → Option Text
  | .position f => f.message?
  | .evaluation f => f.message?

inductive Stop where
  | exit (status : Nat)
  | crash (c : Crash)
  deriving DecidableEq, Repr

abbrev Command := EStateM Stop Written

def print (t : Text) : Command Unit := modify fun w => { w with stdout := w.stdout ++ t }

def complain (t : Text) : Command Unit := modify fun w => { w with stderr := w.stderr ++ t }

def printLine (t : Text) : Command Unit := print (t ++ utf8 "\n")

def complainLine (t : Text) : Command Unit := complain (t ++ utf8 "\n")

/-! ## Options -/

structure Plan where
  settings : Settings := {}
  seed : Option Text := none
  text : Option Text := none
  count : Nat := 1
  dump : Bool := false
  verbose : Bool := false
  deriving DecidableEq, Repr

/-- A whole number of 64 bits that is not negative, in decimal. It may have a sign. -/
def count? (t : Text) : Option Nat :=
  match t with
  | 0x2D :: ds => (Text.digits? ds).filter (· == 0)
  | 0x2B :: ds => (Text.digits? ds).filter (· < Nat.pow 2 63)
  | ds => (Text.digits? ds).filter (· < Nat.pow 2 63)

/-- Takes in an option. Later options go before earlier ones. -/
def Plan.add (read : FileReader) (p : Plan) : Flag → Command Plan
  | .seed value => return { p with seed := some value }
  | .settings path =>
    match Settings.loadFile read path with
    | .ok settings => return { p with settings }
    | .error e => do
      complainLine e.message
      throw (.exit 1)
  | .count value =>
    match count? value with
    | some count => return { p with count }
    | none => do
      complainLine (utf8 "invalid -n parameter '" ++ value ++ utf8 "'")
      throw (.exit 2)
  | .text value => return { p with text := some value }
  | .dump => return { p with dump := true }
  | .verbose => return { p with verbose := true }
  | .help => do
    print usage
    throw (.exit 0)

def Plan.sessionSettings (p : Plan) : Settings :=
  let s := (p.seed.map p.settings.withSeed).getD p.settings
  if p.verbose then { s with logLevel := utf8 LogLevel.debug.label } else s

/-! ## Evaluation -/

structure Course where
  session : Session RandomStream
  ok : Bool := true

def evalAndPrint (lowest : LogLevel) (c : Course) (file text : Text) : Command Course := do
  match c.session.eval RandomStream.source file text with
  | .error f => throw (.crash (.position f))
  | .ok (report, session) =>
    print (report.log.output lowest)
    complain (report.log.errors lowest)
    match report.failure with
    | none =>
      report.outputs.forM printLine
      return { c with session }
    | some (.fault f) =>
      report.outputs.forM printLine
      complainLine f.message
      return ⟨session, false⟩
    | some f => throw (.crash (.evaluation f))

def evalFile (read : FileReader) (lowest : LogLevel) (c : Course) (path : Text) :
    Command Course := do
  match read path with
  | .ok t => evalAndPrint lowest c path t
  | .error e =>
    complainLine e.message
    throw (.exit 1)

def textName : Text := utf8 "<command line>"

def evalRepeatedly (lowest : LogLevel) (text : Text) : (count : Nat) → Course → Command Course
  | 0, c => return c
  | n + 1, c => do evalRepeatedly lowest text n (← evalAndPrint lowest c textName text)

/-- A run as far as its status. Without a seed, choices come from `stream`. -/
def command (read : FileReader) (stream : RandomStream) (args : List Text) : Command Nat := do
  match arguments args with
  | .error e =>
    complainLine e.message
    complain usage
    return 2
  | .ok (flags, paths) =>
    let plan ← flags.foldlM (Plan.add read) {}
    let settings := plan.sessionSettings
    let lowest := Log.threshold settings.logLevel
    let c ← paths.foldlM (evalFile read lowest) { session := .ofSettings settings stream }
    let c ←
      match plan.text with
      | some t => evalRepeatedly lowest t plan.count c
      | none => pure c
    if plan.dump then print c.session.dump
    return if c.ok then 0 else 1

/-- What a run wrote, and its status unless it crashed. -/
def run (read : FileReader) (stream : RandomStream) (args : List Text) :
    Except Crash Nat × Written :=
  match command read stream args {} with
  | .ok status w => (.ok status, w)
  | .error (.exit status) w => (.ok status, w)
  | .error (.crash c) w => (.error c, w)

def paths (args : List Text) : List Text :=
  match arguments args with
  | .error _ => []
  | .ok (flags, files) =>
    let settings := flags.filterMap fun
      | .settings path => some path
      | _ => none
    settings ++ files

end CommandLine

end PoolProse
