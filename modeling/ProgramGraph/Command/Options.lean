import ProgramGraph.Command.Arguments
import ProgramGraph.Diagnostic
import ProgramGraph.Graph.Validation

/-! Options that describe a run that can be made. -/
namespace ProgramGraph.Command

open Shape

/-- Input files and outputs are needed, and the outputs must differ. The latter is looked at only
where both have the right type. -/
def optionsShape : Of Unit := fun j =>
  let fields := record (fun ms =>
    (fun _ p l => (p, l)) <$>
      member ms "files" (nonEmpty (list filled) "no input files given (use --files)") <*>
      member ms "pgmFile" filled <*> member ms "lambdaFile" filled) j
  let output? (key : String) := (j.bind (·.member? key)).bind fun
    | .string s => some s
    | _ => none
  let same : List Issue :=
    if fields.issues.all (·.violation.isSoft) && output? "pgmFile" == output? "lambdaFile" then
      [⟨[.key "lambdaFile"], .relation "PGM and lambda outputs must be different files"⟩]
    else []
  ((fun _ => ()) <$> fields).also same

/-- What is wrong with options given as a data tree. -/
def optionProblems (j : Json) : List Problem :=
  (optionsShape (some j)).issues.map (·.problem)

def Options.toJson (o : Options) : Json :=
  .object [("files", .array (o.files.map .string)), ("pgmFile", .string o.pgmFile),
    ("lambdaFile", .string o.lambdaFile), ("printAst", .bool o.printAst),
    ("verbose", .bool o.verbose), ("validate", .bool o.validate), ("help", .bool o.help)]

def Options.problems (o : Options) : List Problem := optionProblems o.toJson

end ProgramGraph.Command
