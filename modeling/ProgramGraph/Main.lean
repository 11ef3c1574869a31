import ProgramGraph.Command.Run
import Std.Time.DateTime

/-! The program on the file system: inputs are read, a run is computed, its outputs are written. -/
namespace ProgramGraph.Command

private def padded (width n : Nat) : String :=
  let digits := toString n
  String.ofList (List.replicate (width - digits.length) '0') ++ digits

/-- A date as year, month and day, joined by hyphens. -/
def dateText (year month day : Nat) : String :=
  "-".intercalate [padded 4 year, padded 2 month, padded 2 day]

/-- The date in Greenwich. -/
def today : IO String := do
  let date := Std.Time.PlainDate.ofEpochDay (← Std.Time.Timestamp.now).toDaysSinceUnixEpoch
  return dateText date.year.toInt.toNat date.month.val.toNat date.day.val.toNat

/-- The text of a file that can be read. -/
def textAt? (path : String) : IO (Option String) := do
  try return some (← IO.FS.readFile path) catch _ => return none

def isDirectory (path : String) : IO Bool := do
  try
    discard <| IO.FS.realPath (path ++ "/.")
    return true
  catch _ => return false

/-- A path and what it begins with, up to each of its slashes. -/
def beginnings (path : String) : List String :=
  (List.range (parts path).length).map fun n => "/".intercalate ((parts path).take (n + 1))

/-- What surrounds a run with the given options: all that its paths lead through, from the directory
that the program runs in. No interpreter is at hand. -/
def environment (options : Options) : IO Environment := do
  let paths := (options.files ++ [options.pgmFile, options.lambdaFile]).flatMap beginnings
  let directories ← paths.filterM isDirectory
  let texts ← (paths.filter (!directories.contains ·)).filterMapM fun path => do
    return (← textAt? path).map fun text => (path, text)
  let here := (← IO.currentDir).toString
  return ⟨fun _ => .error "no interpreter", ← today,
    .ofList texts directories (if here = "/" then "" else here)⟩

end ProgramGraph.Command

open ProgramGraph.Command in
def main (args : List String) : IO UInt32 := do
  let options := (parse args).options
  let env ← environment options
  let run := run env args
  IO.print run.stdout
  IO.eprint run.stderr
  for path in [options.pgmFile, options.lambdaFile] do
    if let some text := run.files.read? path then
      if env.files.read? path != some text then IO.FS.writeFile path text
  match run.ending with
  | .exit code => return code.toUInt32
  | .cannotOpen failure =>
    IO.eprintln (cannotOpenText failure)
    return 1
