import ProgramGraph.Bridge
import ProgramGraph.Command.Files
import ProgramGraph.Command.Log
import ProgramGraph.Command.Options
import ProgramGraph.Graph.Encoding
import ProgramGraph.Json.Printer
import ProgramGraph.Lowering.Program
import ProgramGraph.Syntax.Outline

/-! A run of the program on a file tree. -/
namespace ProgramGraph.Command

def usage : String := "\n".intercalate [
  "Usage: pgmgen -f <file...> [options]",
  "",
  "Translate Python sources (.py) or dumped syntax trees (.json) into a PGM document.",
  "",
  "Options:",
  "  -f, --files <paths...>    Input files, lowered together into one document",
  "  -p, --pgm-file <path>     PGM document output (default: pgm.json)",
  "  -l, --lambda-file <path>  Lambda source output (default: lambdas.py)",
  "  -a, --print-ast           Print the normalized syntax tree of each input",
  "  -v, --verbose             Debug logging",
  "      --no-validate         Write the document without validating it",
  "  -h, --help                Show this help"]

/-- What surrounds a run. -/
structure Environment where
  interpreter : Bridge.Interpreter
  /-- The date of new documents. -/
  today : String
  files : Files

/-- A file that the system does not open. -/
structure AccessFailure where
  path : String
  error : AccessError
deriving DecidableEq

def cannotOpenText (f : AccessFailure) : String := f.error.message f.path

/-- How a run ends. -/
inductive Ending where
  | exit (code : Nat)
  /-- A file that cannot be opened ends the run at once. -/
  | cannotOpen (failure : AccessFailure)
deriving DecidableEq

structure Run where
  ending : Ending
  stdout : String := ""
  stderr : String := ""
  files : Files

/-- The text of a document, with a final newline. -/
def documentText (d : Graph.Document) : String := d.toJson.pretty 0 ++ "\n"

/-- Why an input does not become a module. -/
inductive LoadFailure where
  | cannotOpen (failure : AccessFailure)
  | refused (d : Diagnostic)

/-- The module of an input: a program goes through the interpreter, anything else is taken to be
a syntax tree. -/
def loadModule (env : Environment) (path : String) : Except LoadFailure Module :=
  match env.files.read path with
  | .error e => .error (.cannotOpen ⟨path, e⟩)
  | .ok text =>
    if isProgram path then (Bridge.parse env.interpreter text).mapError .refused
    else (Module.parse text).mapError fun m => .refused m.diagnostic

/-- Load inputs up to the first failure, noting each one before it is opened. -/
def loadAll (env : Environment) (logger : Logger) :
    List String → String × Except LoadFailure (List Module)
  | [] => ("", .ok [])
  | path :: rest =>
    let note := logger.print .debug ("Reading " ++ path)
    match loadModule env path with
    | .error failure => (note, .error failure)
    | .ok m =>
      let (notes, result) := loadAll env logger rest
      (note ++ notes, result.map (m :: ·))

/-- The document is written before the lambdas. -/
def writeOutputs (options : Options) (logger : Logger) (l : Lowered) (run : Run) : Run :=
  match run.files.write options.pgmFile (documentText l.document) with
  | .error e => { run with ending := .cannotOpen ⟨options.pgmFile, e⟩ }
  | .ok files =>
    match files.write options.lambdaFile l.lambdaText with
    | .error e => { run with ending := .cannotOpen ⟨options.lambdaFile, e⟩, files := files }
    | .ok files =>
      let message := "Wrote " ++ options.pgmFile ++ " (" ++
        toString l.document.functions.length ++ " functions) and " ++ options.lambdaFile
      { run with
        ending := .exit 0
        stderr := run.stderr ++ logger.print .info message
        files := files }

/-- Validation, if it is asked for: the diagnostic that ends the run, or the functions that the
document calls and does not define. -/
def checkDocument (options : Options) (d : Graph.Document) : Except Diagnostic (List String) :=
  if options.validate then
    let verdict := Graph.validate d.toJson
    if verdict.isValid then .ok verdict.externals else .error (.validation verdict.problems)
  else .ok []

/-- Lower modules and write the result. -/
def finish (env : Environment) (options : Options) (logger : Logger) (modules : List Module)
    (run : Run) : Run :=
  let fail (run : Run) (d : Diagnostic) : Run :=
    { run with ending := .exit 1, stderr := run.stderr ++ logger.print .error d.describe }
  let outlines := if options.printAst
    then String.join (modules.map fun m => m.outline "  " ++ "\n") else ""
  let outcome := Outcome.ofModules modules options.pgmFile env.today
  let run := { run with
    stdout := run.stdout ++ outlines
    stderr := run.stderr ++ String.join (outcome.log.map (logger.print .debug)) }
  match outcome.result with
  | .error fault => fail run fault.diagnostic
  | .ok l =>
    match checkDocument options l.document with
    | .error d => fail run d
    | .ok externals =>
      let warning (name : String) :=
        logger.print .warn ("'" ++ name ++ "' is not defined in the document")
      writeOutputs options logger l
        { run with stderr := run.stderr ++ String.join (externals.map warning) }

/-- Run on arguments: 0 on success, 1 if an input or its graph is refused, 2 on wrong usage. -/
def run (env : Environment) (args : List String) : Run :=
  let parsed := parse args
  let options := parsed.options
  let logger := Logger.default options.verbose
  if options.help then ⟨.exit 0, usage ++ "\n", "", env.files⟩
  else
    let wrong := parsed.problems.map ArgumentProblem.message ++
      options.problems.map Problem.message
    if !wrong.isEmpty then
      ⟨.exit 2, "", String.join (wrong.map (logger.print .error)) ++ usage ++ "\n", env.files⟩
    else
      match loadAll env logger options.files with
      | (notes, .error (.cannotOpen failure)) => ⟨.cannotOpen failure, "", notes, env.files⟩
      | (notes, .error (.refused d)) =>
        ⟨.exit 1, "", notes ++ logger.print .error d.describe, env.files⟩
      | (notes, .ok modules) =>
        finish env options logger modules ⟨.exit 0, "", notes, env.files⟩

end ProgramGraph.Command
