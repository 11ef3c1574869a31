/-! Tagged lines for the user. -/
namespace ProgramGraph.Command

inductive Level where
  | debug | info | warn | error
deriving DecidableEq

namespace Level

def all : List Level := [debug, info, warn, error]

def name : Level → String
  | debug => "debug"
  | info => "info"
  | warn => "warn"
  | error => "error"

def ofName? (s : String) : Option Level := all.find? (·.name = s)

/-- What stands before the message. -/
def mark : Level → String
  | debug | info => ""
  | warn => "warning: "
  | error => "error: "

end Level

inductive Logger where
  | silent
  /-- Details are shown only if it is verbose. -/
  | console (tag : String) (verbose : Bool)
deriving DecidableEq

/-- A logger of this program. -/
def Logger.default (verbose : Bool) : Logger := .console "pgmgen" verbose

/-- What a message prints. -/
def Logger.print (l : Logger) (level : Level) (message : String) : String :=
  match l with
  | .silent => ""
  | .console tag verbose =>
    if level = .debug && !verbose then ""
    else "[" ++ tag ++ "] " ++ level.mark ++ message ++ "\n"

end ProgramGraph.Command
