import Mathlib.Logic.ExistsUnique
import ProgramGraph.Command.Arguments

/-! Arguments are read each in its place: what one is for depends on nothing but itself and the
arguments right before and right after it. -/
namespace ProgramGraph.Command

inductive Flag where
  | verbose | printAst | noValidate | help
deriving DecidableEq

namespace Flag

def spellings : Flag → List String
  | verbose => ["--verbose", "-v"]
  | printAst => ["--print-ast", "-a"]
  | noValidate => ["--no-validate"]
  | help => ["--help", "-h"]

def isSet (o : Options) : Flag → Bool
  | verbose => o.verbose
  | printAst => o.printAst
  | noValidate => !o.validate
  | help => o.help

end Flag

namespace Output

def spellings : Output → List String
  | document => ["--pgm-file", "-p"]
  | lambdas => ["--lambda-file", "-l"]

def path (o : Options) : Output → String
  | document => o.pgmFile
  | lambdas => o.lambdaFile

theorem path_setPath (path : String) (o o' : Output) (options : Options) :
    o.path (o'.setPath path options) = if o = o' then path else o.path options := by
  cases o <;> cases o' <;> rfl

end Output

/-- The options that there are. -/
inductive Keyword where
  | flag (f : Flag)
  | files
  | output (o : Output)
deriving DecidableEq

namespace Keyword

def spellings : Keyword → List String
  | flag f => f.spellings
  | files => ["--files", "-f"]
  | output o => o.spellings

def all : List Keyword :=
  [flag .verbose, flag .printAst, flag .noValidate, flag .help, files, output .document,
    output .lambdas]

theorem mem_all (k : Keyword) : k ∈ all := by
  rcases k with f | _ | o
  · cases f <;> decide
  · decide
  · cases o <;> decide

/-- No text spells two options. -/
theorem spellings_disjoint {k k' : Keyword} {arg : String} (h : arg ∈ k.spellings)
    (h' : arg ∈ k'.spellings) : k = k' := by
  have hall : ∀ k ∈ all, ∀ k' ∈ all, ∀ arg ∈ k.spellings, arg ∈ k'.spellings → k = k' := by decide
  exact hall k (mem_all k) k' (mem_all k') arg h h'

/-- Whether an argument spells one of the options. -/
def isSpelled (arg : String) : Bool := all.any (·.spellings.contains arg)

theorem isSpelled_iff {arg : String} : isSpelled arg = true ↔ ∃ k : Keyword, arg ∈ k.spellings := by
  simp only [isSpelled, List.any_eq_true, List.contains_iff_mem, mem_all, true_and]

theorem isOption_of_isSpelled {arg : String} (h : isSpelled arg = true) : isOption arg = true := by
  have hall : ∀ k ∈ all, ∀ arg ∈ k.spellings, isOption arg = true := by
    simp [all, spellings, Flag.spellings, Output.spellings, isOption]
  obtain ⟨k, hk⟩ := isSpelled_iff.mp h
  exact hall k (mem_all k) arg hk

/-- A path spells no option. -/
theorem not_mem_spellings_of_path {arg : String} (h : isOption arg = false) (k : Keyword) :
    arg ∉ k.spellings := fun hk => by
  rw [isOption_of_isSpelled (isSpelled_iff.mpr ⟨k, hk⟩)] at h
  cases h

end Keyword

/-- An argument between its neighbours. -/
structure Spot where
  before : Option String
  arg : String
  after : Option String

/-- The places of arguments that follow another one. -/
def spotsBehind (before : Option String) : List String → List Spot
  | [] => []
  | arg :: rest => ⟨before, arg, rest.head?⟩ :: spotsBehind (some arg) rest

def spots (args : List String) : List Spot := spotsBehind none args

theorem map_arg_spotsBehind (before : Option String) (args : List String) :
    (spotsBehind before args).map Spot.arg = args := by
  induction args generalizing before with
  | nil => rfl
  | cons arg rest ih => rw [spotsBehind, List.map_cons, ih]

theorem getElem?_spotsBehind (before : Option String) (args : List String) (i : Nat) :
    (spotsBehind before args)[i]? = args[i]?.map fun arg =>
      ⟨if i = 0 then before else args[i - 1]?, arg, args[i + 1]?⟩ := by
  induction args generalizing before i with
  | nil => rfl
  | cons arg rest ih =>
    rw [spotsBehind]
    cases i with
    | zero => simp [List.head?_eq_getElem?]
    | succ i =>
      rw [List.getElem?_cons_succ, ih]
      cases i <;> simp

/-- What an argument is for. -/
inductive Use where
  | keyword (k : Keyword)
  | unknown
  | file
  | path (o : Output)
deriving DecidableEq

namespace Spot

/-- An output was announced right before. -/
def isBehind (s : Spot) (o : Output) : Bool := s.before.any o.spellings.contains

/-- No value follows. -/
def lacksValue (s : Spot) : Bool := s.after.all isOption

def hasUse (s : Spot) : Use → Bool
  | .keyword k => k.spellings.contains s.arg
  | .unknown => isOption s.arg && !Keyword.isSpelled s.arg
  | .file => !isOption s.arg && !s.isBehind .document && !s.isBehind .lambdas
  | .path o => !isOption s.arg && s.isBehind o

/-- The argument, if it has a use. -/
def argAs? (u : Use) (s : Spot) : Option String := if s.hasUse u then some s.arg else none

/-- An option that is without the value that it needs. -/
def missing? (s : Spot) : Option ArgumentProblem :=
  if s.lacksValue then
    if s.hasUse (.keyword .files) then some (.missingPaths s.arg)
    else if s.hasUse (.keyword (.output .document)) || s.hasUse (.keyword (.output .lambdas)) then
      some (.missingPath s.arg)
    else none
  else none

/-- What is wrong with an argument. -/
def problem? (s : Spot) : Option ArgumentProblem :=
  if s.hasUse .unknown then some (.unknown s.arg) else s.missing?

theorem isBehind_iff {s : Spot} {o : Output} :
    s.isBehind o = true ↔ ∃ arg, s.before = some arg ∧ arg ∈ o.spellings := by
  obtain ⟨before, arg, after⟩ := s
  cases before <;> simp [isBehind]

theorem isBehind_unique {s : Spot} {o o' : Output} (h : s.isBehind o = true)
    (h' : s.isBehind o' = true) : o = o' := by
  obtain ⟨arg, harg, hmem⟩ := isBehind_iff.mp h
  obtain ⟨arg', harg', hmem'⟩ := isBehind_iff.mp h'
  obtain rfl := Option.some.inj (harg.symm.trans harg')
  have hmem : arg ∈ (Keyword.output o).spellings := hmem
  exact Keyword.output.inj (Keyword.spellings_disjoint hmem hmem')

theorem isBehind_cases (s : Spot) :
    (∃ o, s.isBehind o = true) ∨ ∀ o, s.isBehind o = false := by
  by_cases h : ∃ o, s.isBehind o = true
  · exact .inl h
  · exact .inr fun o => Bool.eq_false_iff.mpr fun ho => h ⟨o, ho⟩

/-- Every argument is for one thing. -/
theorem existsUnique_use (s : Spot) : ∃! u : Use, s.hasUse u = true := by
  cases hoption : isOption s.arg with
  | true =>
    by_cases hspelled : Keyword.isSpelled s.arg = true
    · obtain ⟨k, hk⟩ := Keyword.isSpelled_iff.mp hspelled
      refine ⟨.keyword k, List.contains_iff_mem.mpr hk, fun u hu => ?_⟩
      cases u with
      | keyword k' => rw [Keyword.spellings_disjoint (List.contains_iff_mem.mp hu) hk]
      | _ => simp [hasUse, hoption, hspelled] at hu
    · refine ⟨.unknown, by simp [hasUse, hoption, hspelled], fun u hu => ?_⟩
      cases u with
      | keyword k =>
        exact absurd (Keyword.isSpelled_iff.mpr ⟨k, List.contains_iff_mem.mp hu⟩) hspelled
      | unknown => rfl
      | _ => simp [hasUse, hoption] at hu
  | false =>
    rcases s.isBehind_cases with ⟨o, ho⟩ | hnone
    · refine ⟨.path o, by simp [hasUse, hoption, ho], fun u hu => ?_⟩
      cases u with
      | keyword k =>
        exact absurd (List.contains_iff_mem.mp hu) (Keyword.not_mem_spellings_of_path hoption k)
      | path o' =>
        rw [hasUse, hoption] at hu
        rw [isBehind_unique hu ho]
      | file => cases o <;> simp [hasUse, ho] at hu
      | unknown => simp [hasUse, hoption] at hu
    · refine ⟨.file, by simp [hasUse, hoption, hnone], fun u hu => ?_⟩
      cases u with
      | keyword k =>
        exact absurd (List.contains_iff_mem.mp hu) (Keyword.not_mem_spellings_of_path hoption k)
      | file => rfl
      | _ => simp [hasUse, hoption, hnone] at hu

end Spot

/-- The arguments that have a use, in order. -/
def usedAs (u : Use) (args : List String) : List String :=
  (spots args).filterMap (Spot.argAs? u)

section
variable {arg : String}

/-- An argument that spells a flag sets it, and nothing else changes. -/
theorem flag?_getD (arg : String) (o : Options) :
    (flag? arg).getD id o =
      { o with
        verbose := o.verbose || Flag.verbose.spellings.contains arg
        printAst := o.printAst || Flag.printAst.spellings.contains arg
        validate := o.validate && !Flag.noValidate.spellings.contains arg
        help := o.help || Flag.help.spellings.contains arg } := by
  unfold flag?
  split <;> simp_all [Flag.spellings]

theorem values?_eq (arg : String) :
    values? arg =
      if arg ∈ Keyword.files.spellings then some .paths
      else if arg ∈ (Keyword.output .document).spellings then some (.path .document)
      else if arg ∈ (Keyword.output .lambdas).spellings then some (.path .lambdas)
      else none := by
  unfold values?
  split <;> simp_all [Keyword.spellings, Output.spellings]

theorem values?_eq_path {o : Output} :
    values? arg = some (.path o) ↔ arg ∈ (Keyword.output o).spellings := by
  unfold values?
  cases o <;> split <;> simp_all [Keyword.spellings, Output.spellings]

theorem values?_eq_none_of_flag {f : Options → Options} (h : flag? arg = some f) :
    values? arg = none := by
  unfold flag? at h
  split at h <;> simp_all [values?]

theorem isSpelled_eq (arg : String) :
    Keyword.isSpelled arg = ((flag? arg).isSome || (values? arg).isSome) := by
  unfold flag? values?
  split <;> split <;> simp_all [Keyword.isSpelled, Keyword.all, Keyword.spellings, Flag.spellings,
    Output.spellings]

theorem isOption_of_values? {v : Values} (h : values? arg = some v) : isOption arg = true := by
  refine Keyword.isOption_of_isSpelled ?_
  rw [isSpelled_eq, h, Option.isSome_some, Bool.or_true]

theorem values?_eq_none_of_path (h : isOption arg = false) : values? arg = none := by
  cases hvalues : values? arg with
  | none => rfl
  | some v =>
    rw [isOption_of_values? hvalues] at h
    cases h

end

theorem Spot.isBehind_iff_values? {s : Spot} {o : Output} :
    s.isBehind o = true ↔ s.before.bind values? = some (.path o) := by
  rw [isBehind_iff]
  cases s.before with
  | none => simp
  | some before =>
    rw [Option.bind_some, values?_eq_path]
    exact ⟨fun ⟨arg, he, h⟩ => Option.some.inj he ▸ h, fun h => ⟨before, rfl, h⟩⟩

namespace Parsed

/-- What an argument does by itself. -/
def enter (p : Parsed) (s : Spot) : Parsed :=
  if isOption s.arg then
    if Keyword.isSpelled s.arg then p.set ((flag? s.arg).getD id) else p.complain (.unknown s.arg)
  else
    match s.before.bind values? with
    | some (.path o) => p.set (o.setPath s.arg)
    | _ => p.addFiles [s.arg]

/-- The complaint about a value that is missing behind an argument. -/
def close (p : Parsed) (s : Spot) : Parsed :=
  if s.after.all isOption then
    match values? s.arg with
    | none => p
    | some .paths => p.complain (.missingPaths s.arg)
    | some (.path _) => p.complain (.missingPath s.arg)
  else p

/-- What an argument does between its neighbours. -/
def take (p : Parsed) (s : Spot) : Parsed := (p.enter s).close s

section
variable (p : Parsed) {s : Spot} {o : Output}

theorem enter_of_isOption (h : isOption s.arg = true) : p.enter s =
    if Keyword.isSpelled s.arg then p.set ((flag? s.arg).getD id)
    else p.complain (.unknown s.arg) := if_pos h

theorem enter_of_isBehind (h : isOption s.arg = false) (ho : s.isBehind o = true) :
    p.enter s = p.set (o.setPath s.arg) := by
  rw [enter, h, if_neg Bool.false_ne_true, Spot.isBehind_iff_values?.mp ho]

theorem enter_of_not_isBehind (h : isOption s.arg = false) (hno : ∀ o, s.isBehind o = false) :
    p.enter s = p.addFiles [s.arg] := by
  rw [enter, h, if_neg Bool.false_ne_true]
  split
  · rename_i o ho
    exact absurd (Spot.isBehind_iff_values?.mpr ho) (Bool.eq_false_iff.mp (hno o))
  · rfl

theorem close_of_values? (h : values? s.arg = none) : p.close s = p := by
  rw [close, h]
  exact ite_self _

theorem take_flag {f : Options → Options} (h : flag? s.arg = some f) : p.take s = p.set f := by
  have hspelled : Keyword.isSpelled s.arg = true := by
    rw [isSpelled_eq, h]
    rfl
  rw [take, close_of_values? _ (values?_eq_none_of_flag h),
    enter_of_isOption p (Keyword.isOption_of_isSpelled hspelled), if_pos hspelled, h]
  rfl

/-- An option that takes values is noted only if they are missing. -/
theorem take_option {v : Values} (hflag : flag? s.arg = none) (h : values? s.arg = some v) :
    p.take s = p.close s := by
  have hspelled : Keyword.isSpelled s.arg = true := by
    rw [isSpelled_eq, h, hflag]
    rfl
  rw [take, enter_of_isOption p (isOption_of_values? h), if_pos hspelled, hflag]
  rfl

theorem take_unknown (h : isOption s.arg = true) (hflag : flag? s.arg = none)
    (hvalues : values? s.arg = none) : p.take s = p.complain (.unknown s.arg) := by
  have hspelled : Keyword.isSpelled s.arg = false := by
    rw [isSpelled_eq, hflag, hvalues]
    rfl
  rw [take, close_of_values? _ hvalues, enter_of_isOption p h, hspelled]
  rfl

theorem take_path (h : isOption s.arg = false) (ho : s.isBehind o = true) :
    p.take s = p.set (o.setPath s.arg) := by
  rw [take, close_of_values? _ (values?_eq_none_of_path h), enter_of_isBehind p h ho]

theorem take_file (h : isOption s.arg = false) (hno : ∀ o, s.isBehind o = false) :
    p.take s = p.addFiles [s.arg] := by
  rw [take, close_of_values? _ (values?_eq_none_of_path h), enter_of_not_isBehind p h hno]

end
end Parsed

section
variable {p : Parsed} {before : Option String} {rest : List String}

/-- The argument before takes no path for an output. -/
def IsFree (before : Option String) : Prop := ∀ o, before.bind values? ≠ some (.path o)

theorem IsFree.not_isBehind {s : Spot} (h : IsFree s.before) (o : Output) : s.isBehind o = false :=
  Bool.eq_false_iff.mpr fun ho => h o (Spot.isBehind_iff_values?.mp ho)

theorem isFree_of_values? {arg : String} {v : Option Values} (h : values? arg = v)
    (hv : ∀ o, v ≠ some (.path o)) : IsFree (some arg) := fun o ho => hv o (h.symm.trans ho)

/-- Paths behind one another are input files from the first one on. -/
theorem foldl_take_paths (rest : List String) {paths : List String}
    (hpaths : ∀ x ∈ paths, isOption x = false) (hbefore : IsFree before) :
    ∃ last, IsFree last ∧ (spotsBehind before (paths ++ rest)).foldl Parsed.take p =
      (spotsBehind last rest).foldl Parsed.take (p.addFiles paths) := by
  induction paths generalizing p before with
  | nil =>
    have hsame : p.addFiles [] = p := by simp [Parsed.addFiles, Parsed.set]
    exact ⟨before, hbefore, by rw [hsame, List.nil_append]⟩
  | cons x paths ih =>
    obtain ⟨hx, hpaths⟩ := List.forall_mem_cons.mp hpaths
    obtain ⟨last, hlast, hfold⟩ := ih (p := p.addFiles [x]) hpaths
      (isFree_of_values? (values?_eq_none_of_path hx) nofun)
    have hadd : (p.addFiles [x]).addFiles paths = p.addFiles (x :: paths) := by
      simp [Parsed.addFiles, Parsed.set]
    have htake := p.take_file (s := ⟨before, x, (paths ++ rest).head?⟩) hx hbefore.not_isBehind
    refine ⟨last, hlast, ?_⟩
    rw [List.cons_append, spotsBehind, List.foldl_cons, htake, hfold, hadd]

/-- An option lacks its values if and only if none follows it. -/
theorem isEmpty_takeWhile (l : List String) :
    (l.takeWhile (!isOption ·)).isEmpty = l.head?.all isOption := by
  cases l with
  | nil => rfl
  | cons x l => cases h : isOption x <;> simp [h]

theorem head?_takeWhile_eq_none {l : List String} (h : l.head?.all isOption = true) :
    (l.takeWhile (!isOption ·)).head? = none := by
  rw [← isEmpty_takeWhile, List.isEmpty_iff] at h
  rw [h, List.head?_nil]

/-- A list of files is complained about if and only if it is empty. -/
theorem Parsed.close_paths (p : Parsed) (before : Option String) (rest : List String) {arg : String}
    (h : values? arg = some .paths) : p.close ⟨before, arg, rest.head?⟩ =
      if (rest.takeWhile (!isOption ·)).isEmpty then p.complain (.missingPaths arg) else p := by
  rw [isEmpty_takeWhile, Parsed.close, h]

section
variable {arg path : String} {o : Output} (hflag : flag? arg = none)
include hflag

/-- An option for input files and the paths behind it. -/
theorem foldl_take_files (p : Parsed) (before : Option String) (rest : List String)
    (hvalues : values? arg = some .paths) : ∃ last, IsFree last ∧
    (spotsBehind before (arg :: rest)).foldl Parsed.take p =
      (spotsBehind last (rest.dropWhile (!isOption ·))).foldl Parsed.take
        ((if (rest.takeWhile (!isOption ·)).isEmpty then p.complain (.missingPaths arg)
          else p).addFiles (rest.takeWhile (!isOption ·))) := by
  have hpaths : ∀ x ∈ rest.takeWhile (!isOption ·), isOption x = false := fun x hx => by
    simpa using List.all_eq_true.mp List.all_takeWhile x hx
  obtain ⟨last, hlast, hfold⟩ := foldl_take_paths (p := p.close ⟨before, arg, rest.head?⟩)
    (rest.dropWhile (!isOption ·)) hpaths (isFree_of_values? hvalues nofun)
  rw [List.takeWhile_append_dropWhile] at hfold
  refine ⟨last, hlast, ?_⟩
  rw [spotsBehind, List.foldl_cons, p.take_option hflag hvalues, hfold,
    p.close_paths before rest hvalues]

/-- An option for an output and the path behind it. -/
theorem foldl_take_output (hvalues : values? arg = some (.path o)) (hpath : isOption path = false) :
    (spotsBehind before (arg :: path :: rest)).foldl Parsed.take p =
      (spotsBehind (some path) rest).foldl Parsed.take (p.set (o.setPath path)) := by
  have hclose : p.close ⟨before, arg, some path⟩ = p := if_neg (by simp [hpath])
  have hbehind : Spot.isBehind ⟨some arg, path, rest.head?⟩ o = true :=
    Spot.isBehind_iff_values?.mpr hvalues
  rw [spotsBehind, List.foldl_cons, List.head?_cons, p.take_option hflag hvalues, hclose,
    spotsBehind, List.foldl_cons, p.take_path hpath hbehind]

theorem foldl_take_missing (hvalues : values? arg = some (.path o))
    (hmissing : rest.head?.all isOption = true) :
    (spotsBehind before (arg :: rest)).foldl Parsed.take p =
      (spotsBehind (some arg) rest).foldl Parsed.take (p.complain (.missingPath arg)) := by
  have hclose : p.close ⟨before, arg, rest.head?⟩ = p.complain (.missingPath arg) := by
    rw [Parsed.close, hmissing, hvalues, if_pos rfl]
  rw [spotsBehind, List.foldl_cons, p.take_option hflag hvalues, hclose]

end

section
variable {args : List String} {i : Nat} {arg : String} (h : args.drop i = arg :: rest)
include h

theorem drop_succ_of_drop : args.drop (i + 1) = rest := by
  rw [← List.drop_drop, h, List.drop_one, List.tail_cons]

theorem valuesBehind_of_drop : valuesBehind args i = rest.takeWhile (!isOption ·) := by
  rw [valuesBehind, drop_succ_of_drop h]

/-- Behind the values of an option stands what the option leaves. -/
theorem drop_values_of_drop :
    args.drop (i + 1 + (valuesBehind args i).length) = rest.dropWhile (!isOption ·) := by
  have hsplit := List.takeWhile_append_dropWhile (p := (!isOption ·)) (l := rest)
  rw [← List.drop_drop, drop_succ_of_drop h, valuesBehind_of_drop h]
  exact (congrArg (List.drop _) hsplit.symm).trans List.drop_left

/-- One round of the loop. -/
theorem parseFrom_of_drop (p : Parsed) : parseFrom args i p =
    match flag? arg, values? arg with
    | some f, _ => parseFrom args (i + 1) (p.set f)
    | none, some .paths =>
      let paths := valuesBehind args i
      let p := if paths.isEmpty then p.complain (.missingPaths arg) else p
      parseFrom args (i + 1 + paths.length) (p.addFiles paths)
    | none, some (.path output) =>
      match (valuesBehind args i).head? with
      | none => parseFrom args (i + 1) (p.complain (.missingPath arg))
      | some path => parseFrom args (i + 2) (p.set (output.setPath path))
    | none, none =>
      parseFrom args (i + 1)
        (if isOption arg then p.complain (.unknown arg) else p.addFiles [arg]) := by
  have hlt : i < args.length := by
    have hlength := congrArg List.length h
    rw [List.length_drop, List.length_cons] at hlength
    omega
  rw [List.drop_eq_getElem_cons hlt] at h
  have hround := parseFrom.eq_def args i p
  rw [dif_pos hlt, (List.cons.inj h).1] at hround
  exact hround

end

/-- From a position where no output awaits its path the arguments are taken in one by one. -/
theorem parseFrom_eq_foldl {args : List String} {i : Nat} (hrest : args.drop i = rest)
    (hbefore : IsFree before ∨ rest.head?.all isOption = true) :
    parseFrom args i p = (spotsBehind before rest).foldl Parsed.take p := by
  -- The loop jumps over values, so the induction is on how many arguments are left.
  induction hn : rest.length using Nat.strongRecOn generalizing i before rest p with
  | _ n ih =>
    cases rest with
    | nil =>
      have hend : args.length ≤ i := List.drop_eq_nil_iff.mp hrest
      rw [parseFrom, dif_neg (by omega)]
      rfl
    | cons arg rest =>
      rw [List.length_cons] at hn
      have hnext := drop_succ_of_drop hrest
      rw [parseFrom_of_drop hrest]
      cases hflag : flag? arg with
      | some f =>
        have hfree := isFree_of_values? (values?_eq_none_of_flag hflag) nofun
        rw [spotsBehind, List.foldl_cons, p.take_flag hflag]
        exact ih rest.length (by omega) hnext (.inl hfree) rfl
      | none =>
        cases hvalues : values? arg with
        | none =>
          have hfree := isFree_of_values? hvalues nofun
          rw [spotsBehind, List.foldl_cons]
          cases hoption : isOption arg with
          | true =>
            rw [p.take_unknown hoption hflag hvalues]
            exact ih rest.length (by omega) hnext (.inl hfree) rfl
          | false =>
            have hbefore : IsFree before := hbefore.resolve_right (by simp [hoption])
            rw [p.take_file hoption hbefore.not_isBehind]
            exact ih rest.length (by omega) hnext (.inl hfree) rfl
        | some v =>
          cases v with
          | paths =>
            have hleft : (rest.dropWhile (!isOption ·)).length ≤ rest.length :=
              (List.dropWhile_sublist _).length_le
            have hbehind := drop_values_of_drop hrest
            obtain ⟨last, hlast, hfold⟩ := foldl_take_files hflag p before rest hvalues
            rw [valuesBehind_of_drop hrest] at hbehind ⊢
            rw [hfold]
            exact ih _ (by omega) hbehind (.inl hlast) rfl
          | path o =>
            rw [valuesBehind_of_drop hrest]
            cases hmissing : rest.head?.all isOption with
            | true =>
              rw [head?_takeWhile_eq_none hmissing, foldl_take_missing hflag hvalues hmissing]
              exact ih rest.length (by omega) hnext (.inr hmissing) rfl
            | false =>
              cases rest with
              | nil => cases hmissing
              | cons path rest =>
                have hpath : isOption path = false := hmissing
                have hfree := isFree_of_values? (values?_eq_none_of_path hpath) nofun
                have hsome : ((path :: rest).takeWhile (!isOption ·)).head? = some path := by
                  simp [hpath]
                rw [List.length_cons] at hn
                rw [hsome, foldl_take_output hflag hvalues hpath]
                exact ih rest.length (by omega) (drop_succ_of_drop hnext) (.inl hfree) rfl

end

/-- Arguments are taken in one by one, each with its neighbours. -/
theorem parse_eq_foldl (args : List String) : parse args = (spots args).foldl Parsed.take {} :=
  parseFrom_eq_foldl rfl (.inl nofun)

namespace Parsed

theorem options_close (p : Parsed) (s : Spot) : (p.close s).options = p.options := by
  unfold close
  split
  · split <;> rfl
  · rfl

variable (p : Parsed) (s : Spot)

theorem options_take_of_isOption (h : isOption s.arg = true) :
    (p.take s).options = (flag? s.arg).getD id p.options := by
  rw [take, options_close, enter_of_isOption p h, isSpelled_eq]
  cases flag? s.arg with
  | some f => rfl
  | none => cases values? s.arg <;> rfl

theorem isSet_take (f : Flag) :
    f.isSet (p.take s).options = (f.isSet p.options || f.spellings.contains s.arg) := by
  cases hoption : isOption s.arg with
  | true =>
    rw [options_take_of_isOption p s hoption, flag?_getD]
    cases f <;> simp [Flag.isSet]
  | false =>
    have hno : f.spellings.contains s.arg = false :=
      Bool.eq_false_iff.mpr fun h =>
        Keyword.not_mem_spellings_of_path hoption (.flag f) (List.contains_iff_mem.mp h)
    rw [hno, Bool.or_false]
    rcases s.isBehind_cases with ⟨o, ho⟩ | hnone
    · rw [take_path p hoption ho]
      cases o <;> cases f <;> rfl
    · rw [take_file p hoption hnone]
      cases f <;> rfl

theorem files_take :
    (p.take s).options.files = p.options.files ++ (s.argAs? .file).toList := by
  rw [Spot.argAs?, Spot.hasUse]
  cases hoption : isOption s.arg with
  | true =>
    rw [options_take_of_isOption p s hoption, flag?_getD]
    exact (List.append_nil _).symm
  | false =>
    rcases s.isBehind_cases with ⟨o, ho⟩ | hnone
    · rw [take_path p hoption ho]
      cases o <;> simp [ho, set, Output.setPath]
    · rw [take_file p hoption hnone, hnone, hnone]
      rfl

theorem path_take (o : Output) :
    o.path (p.take s).options = (s.argAs? (.path o)).getD (o.path p.options) := by
  rw [Spot.argAs?, Spot.hasUse]
  cases hoption : isOption s.arg with
  | true =>
    rw [options_take_of_isOption p s hoption, flag?_getD]
    cases o <;> rfl
  | false =>
    rcases s.isBehind_cases with ⟨o', ho'⟩ | hnone
    · have hsame : s.isBehind o = decide (o = o') := by
        rw [Bool.eq_iff_iff, decide_eq_true_iff]
        exact ⟨fun ho => Spot.isBehind_unique ho ho', fun he => he ▸ ho'⟩
      have hset : o.path (p.set (o'.setPath s.arg)).options =
          if o = o' then s.arg else o.path p.options := Output.path_setPath s.arg o o' p.options
      rw [take_path p hoption ho', hset, hsame]
      by_cases heq : o = o' <;> simp [heq]
    · rw [take_file p hoption hnone, hnone]
      cases o <;> rfl

theorem problems_enter : (p.enter s).problems =
    p.problems ++ if s.hasUse .unknown then [.unknown s.arg] else [] := by
  rw [Spot.hasUse]
  cases hoption : isOption s.arg with
  | true =>
    rw [enter_of_isOption p hoption]
    cases Keyword.isSpelled s.arg <;> simp [set, complain]
  | false =>
    rcases s.isBehind_cases with ⟨o, ho⟩ | hnone
    · rw [enter_of_isBehind p hoption ho]
      exact (List.append_nil _).symm
    · rw [enter_of_not_isBehind p hoption hnone]
      exact (List.append_nil _).symm

theorem problems_close : (p.close s).problems = p.problems ++ s.missing?.toList := by
  rw [close, Spot.missing?, Spot.lacksValue]
  cases s.after.all isOption with
  | false => exact (List.append_nil _).symm
  | true =>
    rw [if_pos rfl, if_pos rfl, values?_eq]
    simp only [Spot.hasUse, List.contains_iff_mem, Bool.or_eq_true]
    by_cases hfiles : s.arg ∈ Keyword.files.spellings
    · rw [if_pos hfiles, if_pos hfiles]
      rfl
    rw [if_neg hfiles, if_neg hfiles]
    by_cases hdocument : s.arg ∈ (Keyword.output .document).spellings
    · rw [if_pos hdocument, if_pos (.inl hdocument)]
      rfl
    rw [if_neg hdocument]
    by_cases hlambdas : s.arg ∈ (Keyword.output .lambdas).spellings
    · rw [if_pos hlambdas, if_pos (.inr hlambdas)]
      rfl
    rw [if_neg hlambdas, if_neg (not_or.mpr ⟨hdocument, hlambdas⟩)]
    exact (List.append_nil _).symm

theorem problems_take : (p.take s).problems = p.problems ++ s.problem?.toList := by
  rw [take, problems_close, problems_enter, Spot.problem?]
  cases hunknown : s.hasUse .unknown with
  | false => simp
  | true =>
    have hno : ∀ k : Keyword, s.hasUse (.keyword k) = false := fun k =>
      Bool.eq_false_iff.mpr fun hk => Use.noConfusion (s.existsUnique_use.unique hunknown hk)
    have hmissing : s.missing? = none := by
      rw [Spot.missing?, hno, hno, hno]
      exact ite_self _
    rw [hmissing]
    simp

end Parsed

section
variable {α β σ : Type} {step : σ → α → σ}

/-- What the steps of a run append. -/
theorem foldl_append_filterMap {g : σ → List β} {h : α → Option β}
    (hstep : ∀ s a, g (step s a) = g s ++ (h a).toList) (l : List α) (s : σ) :
    g (l.foldl step s) = g s ++ l.filterMap h := by
  induction l generalizing s with
  | nil => exact (List.append_nil _).symm
  | cons a l ih =>
    rw [List.foldl_cons, ih, hstep, List.append_assoc, List.filterMap_cons]
    cases h a <;> rfl

/-- The last step that overwrites a value decides it. -/
theorem foldl_overwrite {g : σ → β} {h : α → Option β}
    (hstep : ∀ s a, g (step s a) = (h a).getD (g s)) (l : List α) (s : σ) :
    g (l.foldl step s) = (l.filterMap h).getLast?.getD (g s) := by
  induction l generalizing s with
  | nil => rfl
  | cons a l ih =>
    rw [List.foldl_cons, ih, hstep, List.filterMap_cons]
    cases h a with
    | none => rfl
    | some b =>
      dsimp only
      rw [List.getLast?_cons]
      rfl

theorem foldl_any {g : σ → Bool} {q : α → Bool} (hstep : ∀ s a, g (step s a) = (g s || q a))
    (l : List α) (s : σ) : g (l.foldl step s) = (g s || l.any q) := by
  induction l generalizing s with
  | nil => exact (Bool.or_false _).symm
  | cons a l ih => rw [List.foldl_cons, ih, hstep, Bool.or_assoc, List.any_cons]

end

theorem any_spots (q : String → Bool) (args : List String) :
    ((spots args).any fun s => q s.arg) = args.any q := by
  have hmap : (spots args).map Spot.arg = args := map_arg_spotsBehind none args
  have hany : ((spots args).map Spot.arg).any q = (spots args).any fun s => q s.arg := List.any_map
  rw [← hany, hmap]

/-- Whatever the arguments are, each is for one thing, and it and its neighbours say what: the files
are the paths that are not right behind an output option, an output is the last path right behind
one of its options, a flag is set if and only if it is spelled somewhere, and the problems are those
of the single arguments in order. -/
theorem parse_local (args : List String) :
    (parse args).options.files = usedAs .file args ∧
      (∀ o : Output, o.path (parse args).options =
        (usedAs (.path o) args).getLast?.getD (o.path {})) ∧
      (∀ f : Flag, f.isSet (parse args).options = true ↔ ∃ arg ∈ args, arg ∈ f.spellings) ∧
      (parse args).problems = (spots args).filterMap Spot.problem? ∧
      (∀ s ∈ spots args, ∃! u : Use, s.hasUse u = true) ∧
      ∀ i, (spots args)[i]? = args[i]?.map fun arg =>
        (⟨if i = 0 then none else args[i - 1]?, arg, args[i + 1]?⟩ : Spot) := by
  rw [parse_eq_foldl]
  refine ⟨?_, fun o => ?_, fun f => ?_, ?_, fun s _ => s.existsUnique_use,
    getElem?_spotsBehind none args⟩
  · exact foldl_append_filterMap (g := fun p : Parsed => p.options.files) Parsed.files_take _ _
  · exact foldl_overwrite (g := fun p : Parsed => o.path p.options) (fun p s => p.path_take s o) _ _
  · have hinit : f.isSet ({} : Parsed).options = false := by cases f <;> rfl
    rw [foldl_any (g := fun p : Parsed => f.isSet p.options) (fun p s => p.isSet_take s f), hinit,
      Bool.false_or, any_spots f.spellings.contains]
    simp only [List.any_eq_true, List.contains_iff_mem]
  · exact foldl_append_filterMap Parsed.problems_take _ _

/-- An option behind another one is not its path, and what follows a flag or a path is a file. -/
example : parse ["-p", "-v", "a", "-l", "b", "c"] =
    ⟨{ files := ["a", "c"], lambdaFile := "b", verbose := true }, [.missingPath "-p"]⟩ := by
  decide +kernel

end ProgramGraph.Command
