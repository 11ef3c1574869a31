import ProgramGraph.Diagnostic
import ProgramGraph.Graph.Schema
import ProgramGraph.Lowering.Operand

/-! Validation of documents: the shape first, then unique names and references that fit. -/
namespace ProgramGraph.Graph

/-- The owner of a body: the document, or the function at a position. -/
inductive BodyOwner where
  | document
  | function (position : Nat)
deriving DecidableEq

/-- A record in a body. -/
structure RecordPlace where
  owner : BodyOwner
  position : Nat
deriving DecidableEq

def RecordPlace.text (p : RecordPlace) : String :=
  let body := match p.owner with
    | .document => "body"
    | .function i => "functions." ++ toString i ++ ".body"
  body ++ "." ++ toString p.position

/-- What is wrong with a document that has the right shape. -/
inductive Defect where
  | duplicate (position : Nat) (name : String)
  | undefined (place : RecordPlace) (name : String)
  | notLoopPlate (place : RecordPlace) (name kind : String)
  | notValue (place : RecordPlace) (name kind : String)
  | otherTarget (place : RecordPlace) (output target function : String)
  | startKind (name kind : String)
deriving DecidableEq

def Defect.problem : Defect → Problem
  | duplicate i name =>
    ⟨"functions." ++ toString i ++ ".name", "Duplicate function name: " ++ name, some name⟩
  | undefined p name =>
    ⟨p.text ++ ".name", "Reference to undefined function: " ++ name, some name⟩
  | notLoopPlate p name kind =>
    ⟨p.text ++ ".name", "Loop call must reference a loop_plate, got " ++ kind, some name⟩
  | notValue p name kind =>
    ⟨p.text ++ ".name",
      "Value record must reference an assign or decision function, got " ++ kind, some name⟩
  | otherTarget p output target function =>
    ⟨p.text ++ ".output",
      "Output variable '" ++ output ++ "' does not match target '" ++ target ++ "' of " ++ function,
      none⟩
  | startKind name kind =>
    ⟨"start", "Start must reference a container, got " ++ kind, some name⟩

namespace Document

/-- The first function of a name is the one that it refers to. -/
def find? (d : Document) (name : String) : Option Function :=
  d.functions.find? (·.name = name)

private def duplicatesFrom (position : Nat) (seen : List String) : List Function → List Defect
  | [] => []
  | f :: rest =>
    if seen.contains f.name then
      .duplicate position f.name :: duplicatesFrom (position + 1) seen rest
    else duplicatesFrom (position + 1) (f.name :: seen) rest

def duplicates (d : Document) : List Defect := duplicatesFrom 0 [] d.functions

theorem duplicates_eq_nil_iff {d : Document} :
    d.duplicates = [] ↔ (d.functions.map Function.name).Nodup := by
  have hfrom : ∀ (fs : List Function) (position : Nat) (seen : List String),
      duplicatesFrom position seen fs = [] ↔
        (fs.map Function.name).Nodup ∧ ∀ f ∈ fs, f.name ∉ seen := by
    intro fs
    induction fs with
    | nil => exact fun _ _ => iff_of_true rfl ⟨.nil, nofun⟩
    | cons f rest ih =>
      intro position seen
      rw [List.map_cons, List.nodup_cons, List.forall_mem_cons, duplicatesFrom]
      by_cases hf : f.name ∈ seen
      · rw [List.contains_iff_mem.mpr hf]
        exact iff_of_false nofun fun h => h.2.1 hf
      · have hcontains : seen.contains f.name = false := by simpa using hf
        rw [hcontains]
        refine (ih (position + 1) (f.name :: seen)).trans ?_
        simp only [List.mem_cons, not_or]
        constructor
        · rintro ⟨hnodup, hrest⟩
          refine ⟨⟨?_, hnodup⟩, hf, fun g hg => (hrest g hg).2⟩
          intro hmem
          obtain ⟨g, hg, hname⟩ := List.mem_map.mp hmem
          exact (hrest g hg).1 hname
        · rintro ⟨⟨hname, hnodup⟩, -, hrest⟩
          exact ⟨hnodup, fun g hg => ⟨fun he => hname (he ▸ List.mem_map_of_mem hg), hrest g hg⟩⟩
  refine (hfrom d.functions 0 []).trans (and_iff_left ?_)
  exact fun _ _ => List.not_mem_nil

/-- Every record of the document with its place, in order. -/
def records (d : Document) : List (RecordPlace × Record) :=
  let inBody (owner : BodyOwner) (body : List Record) :=
    body.zipIdx.map fun (r, i) => (⟨owner, i⟩, r)
  inBody .document d.body ++
    d.functions.zipIdx.flatMap fun (f, i) => inBody (.function i) f.body

/-- A record refers to a function of the kind and for the variable that it needs. -/
def recordDefect? (d : Document) (place : RecordPlace) : Record → Option Defect
  | .call .. => none
  | .loop name _ =>
    match d.find? name with
    | none => some (.undefined place name)
    | some (.loopPlate ..) => none
    | some f => some (.notLoopPlate place name f.kind)
  | .value name output _ =>
    match d.find? name with
    | none => some (.undefined place name)
    | some f =>
      match f.target? with
      | none => some (.notValue place name f.kind)
      | some target =>
        if target = output.name then none else some (.otherTarget place output.name target f.name)

/-- The start may be empty or defined elsewhere; a function of the document has to be a
container. -/
def startDefect? (d : Document) : Option Defect :=
  if d.start = "" then none
  else match d.find? d.start with
    | none | some (.container ..) => none
    | some f => some (.startKind d.start f.kind)

def defects (d : Document) : List Defect :=
  d.duplicates ++ d.records.filterMap (fun (p, r) => d.recordDefect? p r) ++ d.startDefect?.toList

/-- Names of functions that are called, the start last. -/
def callees (d : Document) : List String :=
  (d.records.filterMap fun (_, r) => match r with
    | .call function _ => some function
    | _ => none) ++ if d.start = "" then [] else [d.start]

/-- Called functions that the document does not define, in order of first use. -/
def externals (d : Document) : List String :=
  distinct (d.callees.filter fun name => (d.find? name).isNone)

end Document

/-- The verdict on a data tree. -/
structure Verdict where
  problems : List Problem
  externals : List String
  /-- The document, if it is valid. -/
  document : Option Document

def Verdict.isValid (v : Verdict) : Bool := v.document.isSome

end Graph

/-- An issue as a problem; the tree itself is at `$`. -/
def Shape.Issue.problem (i : Shape.Issue) : Problem :=
  ⟨if i.path.isEmpty then "$" else Shape.joinSegments i.path, i.violation.message, none⟩

/-- Validate a data tree as a document. -/
def Graph.validate (j : Json) : Graph.Verdict :=
  match Graph.Document.schema (some j) with
  | .failed issues => ⟨issues.map (·.problem), [], none⟩
  | .ok d =>
    match d.defects with
    | [] => ⟨[], d.externals, some d⟩
    | defects => ⟨defects.map (·.problem), d.externals, none⟩

end ProgramGraph
