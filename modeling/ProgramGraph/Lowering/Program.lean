import ProgramGraph.Lowering.Stmt

/-! Lowering of whole programs: function definitions are lowered, the first call at top level is
the start. -/
namespace ProgramGraph

mutual

/-- Statements at top level. The body of an `if` is part of it, for a guard may hold the start;
its test and its other branch are not. -/
def Stmt.topLevel (s : Stmt) : List Stmt :=
  match s with
  | .branch _ body _ _ => topLevelOf body
  | s => [s]

def Stmt.topLevelOf (block : List Stmt) : List Stmt :=
  match block with
  | [] => []
  | s :: rest => s.topLevel ++ topLevelOf rest

end

/-- Statements at top level of all modules, in order. -/
def Module.topLevel (ms : List Module) : List Stmt :=
  ms.flatMap fun m => Stmt.topLevelOf m.body

/-- A program lowered so far. -/
structure Assembly where
  registry : Registry := .empty
  start : Option String := none
  fragment : Fragment := ∅
  /-- What was left out, one line each. -/
  log : List String := []

namespace Assembly

private def lineText : Option Int → String
  | some n => toString n
  | none => "?"

def note (a : Assembly) (message : String) : Assembly := { a with log := a.log ++ [message] }

/-- The first call becomes the start. -/
def recordCall (a : Assembly) (callee : String) : Assembly :=
  match a.start with
  | none => { a with start := some callee }
  | some start =>
    a.note ("Ignoring additional top-level call '" ++ callee ++ "'; start is '" ++ start ++ "'")

/-- Take in a statement at top level. -/
def add (a : Assembly) (s : Stmt) : Except Fault Assembly :=
  match s with
  | .functionDef .. =>
    match s.lower ⟨.top, a.registry⟩ with
    | .ok (f, state) => .ok { a with registry := state.registry, fragment := a.fragment ++ f }
    | .error fault => .error fault
  | .expr (.call func _ _ _) line => do return a.recordCall (← func.callee line)
  | s => .ok (a.note ("Ignoring top-level " ++ s.typeName ++ " at line " ++ lineText s.line))

/-- Take in statements up to the first one that is refused. -/
def addAll (a : Assembly) : List Stmt → Assembly × Option Fault
  | [] => (a, none)
  | s :: rest =>
    match a.add s with
    | .ok a => a.addAll rest
    | .error fault => (a, some fault)

/-- Go on where nothing was refused. -/
def proceed (next : Assembly → Assembly × Option Fault) : Assembly × Option Fault →
    Assembly × Option Fault
  | (a, none) => next a
  | (a, some fault) => (a, some fault)

mutual

/-- Take in what stands at top level of a statement: a guard is entered. -/
def visit (a : Assembly) (s : Stmt) : Assembly × Option Fault :=
  match s with
  | .branch _ body _ _ => a.visitBlock body
  | s =>
    match a.add s with
    | .ok a => (a, none)
    | .error fault => (a, some fault)

def visitBlock (a : Assembly) (block : List Stmt) : Assembly × Option Fault :=
  match block with
  | [] => (a, none)
  | s :: rest => proceed (fun a => a.visitBlock rest) (a.visit s)

end

/-- Take in modules one after another. -/
def visitModules (a : Assembly) : List Module → Assembly × Option Fault
  | [] => (a, none)
  | m :: rest => proceed (fun a => a.visitModules rest) (a.visitBlock m.body)

end Assembly

/-- A document and the texts of the lambdas that it refers to. -/
structure Lowered where
  document : Graph.Document
  lambdas : List String

def Lowered.lambdaText (l : Lowered) : String := String.join l.lambdas

def Assembly.document (a : Assembly) (name dateCreated : String) : Graph.Document where
  start := a.start.getD ""
  name := name
  dateCreated := dateCreated
  functions := a.fragment.functions
  body := a.fragment.records

/-- The lines logged, and the graph or the first fault. -/
structure Outcome where
  log : List String
  result : Except Fault Lowered

/-- Lower modules into one document. -/
def Outcome.ofModules (modules : List Module) (name dateCreated : String) : Outcome :=
  match ({} : Assembly).visitModules modules with
  | (a, some fault) => ⟨a.log, .error fault⟩
  | (a, none) =>
    let summary := "Lowered " ++ toString a.fragment.functions.length ++ " functions and " ++
      toString a.registry.sink.length ++ " lambdas"
    ⟨a.log ++ [summary], .ok ⟨a.document name dateCreated, a.registry.sink⟩⟩

end ProgramGraph
