import PoolProse.CommandLine

/-!
# The program

Reads the files that the arguments name, runs the command line on them and writes what it wrote.
-/
namespace PoolProse

def toBytes (t : Text) : ByteArray := ⟨t.toArray⟩

def readFile (path : String) : IO (Except FileError Text) := do
  let name := utf8 path
  try
    return .ok (← IO.FS.readBinFile path).data.toList
  catch
    | .noFileOrDirectory .. => return .error (.notFound name)
    | .permissionDenied .. => return .error (.denied name)
    | .invalidArgument .. => return .error (.invalid name)
    | .inappropriateType .. =>
      return .error (if path.endsWith "/" then .notDirectory name else .isDirectory name)
    | _ => return .error (.notFound name)

end PoolProse

open PoolProse in
def main (args : List String) : IO UInt32 := do
  let args := args.map utf8
  let files ← (CommandLine.paths args).mapM fun path => do
    match String.fromUTF8? (toBytes path) with
    | some name => return (path, ← readFile name)
    | none => return (path, .error (.notFound path))
  let read (path : Text) := (files.lookup path).getD (.error (.notFound path))
  let stream := RandomStream.ofSeed (← IO.getRandomBytes 32).data.toList
  let (outcome, written) := CommandLine.run read stream args
  (← IO.getStdout).write (toBytes written.stdout)
  (← IO.getStderr).write (toBytes written.stderr)
  match outcome with
  | .ok status => return status.toUInt32
  | .error c =>
    (← IO.getStderr).write (toBytes ((c.message?.getD (utf8 "failure")) ++ utf8 "\n"))
    return 2
