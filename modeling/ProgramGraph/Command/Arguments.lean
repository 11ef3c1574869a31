/-! The command line: options and input files. -/
namespace ProgramGraph.Command

structure Options where
  files : List String := []
  pgmFile : String := "pgm.json"
  lambdaFile : String := "lambdas.py"
  printAst : Bool := false
  verbose : Bool := false
  validate : Bool := true
  help : Bool := false
deriving DecidableEq

inductive ArgumentProblem where
  | missingPaths (option : String)
  | missingPath (option : String)
  | unknown (option : String)
deriving DecidableEq

def ArgumentProblem.message : ArgumentProblem → String
  | missingPaths option => option ++ " requires at least one path"
  | missingPath option => option ++ " requires a path"
  | unknown option => "Unknown option: " ++ option

structure Parsed where
  options : Options := {}
  problems : List ArgumentProblem := []
deriving DecidableEq

def isOption (arg : String) : Bool := arg.startsWith "-"

inductive Output where
  | document
  | lambdas
deriving DecidableEq

/-- Name a path for an output. -/
def Output.setPath (path : String) : Output → Options → Options
  | document, o => { o with pgmFile := path }
  | lambdas, o => { o with lambdaFile := path }

/-- The values that an option takes. -/
inductive Values where
  | paths
  | path (output : Output)
deriving DecidableEq

/-- The flag that an argument spells. -/
def flag? (arg : String) : Option (Options → Options) :=
  match arg with
  | "--verbose" | "-v" => some fun o => { o with verbose := true }
  | "--print-ast" | "-a" => some fun o => { o with printAst := true }
  | "--no-validate" => some fun o => { o with validate := false }
  | "--help" | "-h" => some fun o => { o with help := true }
  | _ => none

/-- The values that are due behind an argument. -/
def values? (arg : String) : Option Values :=
  match arg with
  | "--files" | "-f" => some .paths
  | "--pgm-file" | "-p" => some (.path .document)
  | "--lambda-file" | "-l" => some (.path .lambdas)
  | _ => none

namespace Parsed

def set (p : Parsed) (f : Options → Options) : Parsed := { p with options := f p.options }

def complain (p : Parsed) (problem : ArgumentProblem) : Parsed :=
  { p with problems := p.problems ++ [problem] }

def addFiles (p : Parsed) (paths : List String) : Parsed :=
  p.set fun o => { o with files := o.files ++ paths }

end Parsed

/-- The values that follow a position, up to the next option. -/
def valuesBehind (args : List String) (i : Nat) : List String :=
  (args.drop (i + 1)).takeWhile (!isOption ·)

/-- Take in the arguments from a position on. An option takes its values with it; those that are for
one path leave the others behind. -/
def parseFrom (args : List String) (i : Nat) (p : Parsed) : Parsed :=
  if h : i < args.length then
    let arg := args[i]
    match flag? arg, values? arg with
    | some f, _ => parseFrom args (i + 1) (p.set f)
    | none, some .paths =>
      let paths := valuesBehind args i
      let p := if paths.isEmpty then p.complain (.missingPaths arg) else p
      parseFrom args (i + 1 + paths.length) (p.addFiles paths)
    | none, some (.path output) =>
      match (valuesBehind args i).head? with
      | none => parseFrom args (i + 1) (p.complain (.missingPath arg))
      | some path => parseFrom args (i + 2) (p.set (output.setPath path))
    | none, none =>
      parseFrom args (i + 1) (if isOption arg then p.complain (.unknown arg) else p.addFiles [arg])
  else p
termination_by args.length - i

/-- The options that arguments spell, and what is wrong with them. -/
def parse (args : List String) : Parsed := parseFrom args 0 {}

end ProgramGraph.Command
