import ProgramGraph.Command.Run
import ProgramGraph.Proofs.Computation

/-! What a run leaves in the file tree. A run that ends without success writes at most the
document, and that only where the lambdas cannot be written, now or before. -/
namespace ProgramGraph.Command

namespace Files
variable {before after f g : Files} {path other text : String}

theorem enter_ne_root {place part : String} (h : isName part = true) : enter place part ≠ "" := by
  rw [enter, if_pos h]
  intro he
  have hlength := congrArg String.length he
  simp [String.length_append] at hlength

theorem stem_of_isName (h : isName ((parts path).getLastD "") = true) : stem path = parts path := by
  have hlast : (parts path).getLastD "" ≠ "" := fun he => by
    rw [he] at h
    cases h
  unfold stem
  cases hparts : (parts path).reverse with
  | nil => rw [List.reverse_eq_nil_iff.mp hparts, List.dropWhile_nil, List.reverse_nil]
  | cons last rest =>
    have hpath : parts path = rest.reverse ++ [last] := by
      rw [← List.reverse_reverse (parts path), hparts, List.reverse_cons]
    rw [hpath, List.getLastD_concat] at hlast
    rw [List.dropWhile_cons_of_neg (by simpa using hlast), hpath, List.reverse_cons]

/-- A text is written where its path leads to, in a directory and to no directory. -/
theorem target_eq_ok {place : String} (h : f.target path = .ok place) :
    isName ((stem path).getLastD "") = true ∧
      ∃ directory, f.walk (f.start path) (stem path).dropLast = .ok directory ∧
        place = enter directory ((stem path).getLastD "") ∧
        f.entry? place ≠ some .directory := by
  unfold target at h
  split at h
  · cases h
  dsimp only at h
  split at h
  · rename_i hname
    obtain ⟨directory, hwalk, h⟩ := except_bind_eq_ok.mp h
    split at h
    · cases h
    · rename_i hno
      obtain rfl := Except.ok.inj h
      exact ⟨hname, directory, hwalk, rfl, fun hd => hno (.inr hd)⟩
  · obtain ⟨_, -, h⟩ := except_bind_eq_ok.mp h
    cases h

/-- What can be read can be written. -/
theorem target_of_read (h : f.read path = .ok text) :
    ∃ place, f.target path = .ok place ∧ f.entry? place = some (.text text) := by
  unfold read at h
  split at h
  · cases h
  rename_i hpath
  dsimp only at h
  split at h
  · rename_i hname
    obtain ⟨directory, hwalk, h⟩ := except_bind_eq_ok.mp h
    have hlast : (parts path).getLastD "" ≠ "" := fun he => by
      rw [he] at hname
      cases hname
    have hstem := stem_of_isName hname
    split at h
    · cases h
    · cases h
    · rename_i s hentry
      obtain rfl := Except.ok.inj h
      refine ⟨_, ?_, hentry⟩
      unfold target
      rw [if_neg hpath]
      dsimp only
      rw [hstem, if_pos hname, hwalk]
      refine if_neg (not_or.mpr ⟨hlast, ?_⟩)
      rw [hentry]
      exact nofun
  · obtain ⟨_, -, h⟩ := except_bind_eq_ok.mp h
    cases h

section
variable (hhere : g.here = f.here)
  (hdirectory : ∀ place, f.entry? place = some .directory ↔ g.entry? place = some .directory)

include hdirectory in
/-- The directories decide where a path leads to. -/
theorem walk_congr {place destination : String} {way : List String}
    (h : f.walk place way = .ok destination) : g.walk place way = .ok destination := by
  induction way generalizing place with
  | nil => exact h
  | cons part rest ih =>
    unfold walk at h ⊢
    split at h
    · rename_i hname
      rw [if_pos hname]
      split at h
      · cases h
      · cases h
      · rename_i hentry
        rw [(hdirectory _).mp hentry]
        exact ih h
    · rename_i hname
      rw [if_neg hname]
      exact ih h

include hhere hdirectory in
theorem target_congr {place : String} (h : f.target path = .ok place) :
    g.target path = .ok place := by
  have hstart : g.start path = f.start path := by rw [start, start, hhere]
  unfold target at h ⊢
  split at h
  · cases h
  rename_i hpath
  rw [if_neg hpath]
  dsimp only at h ⊢
  split at h
  · rename_i hname
    obtain ⟨directory, hwalk, h⟩ := except_bind_eq_ok.mp h
    rw [if_pos hname, hstart]
    refine except_bind_eq_ok.mpr ⟨directory, walk_congr hdirectory hwalk, ?_⟩
    simpa only [hdirectory] using h
  · obtain ⟨_, -, h⟩ := except_bind_eq_ok.mp h
    cases h

end

theorem write_eq_ok : before.write path text = .ok after ↔
    ∃ place, before.target path = .ok place ∧
      { before with entries := before.entries.insert place (.text text) } = after := by
  unfold write
  rw [except_bind_eq_ok]
  simp only [except_pure_eq_ok]

/-- Writing changes what is at one place. -/
theorem entry?_of_write {place : String} (h : before.write path text = .ok after)
    (ht : before.target path = .ok place) (q : String) :
    after.entry? q = if q = place then some (.text text) else before.entry? q := by
  obtain ⟨place', ht', rfl⟩ := write_eq_ok.mp h
  obtain rfl := Except.ok.inj (ht.symm.trans ht')
  obtain ⟨hname, directory, -, hplace, -⟩ := target_eq_ok ht
  have hroot : place ≠ "" := hplace ▸ enter_ne_root hname
  unfold entry?
  by_cases hq : q = ""
  · rw [if_pos hq, if_pos hq, if_neg (hq ▸ hroot.symm)]
  · rw [if_neg hq, if_neg hq, Table.get?_insert]

/-- Writing a text leaves the directories as they are. -/
theorem directory_of_write (h : before.write path text = .ok after) (q : String) :
    before.entry? q = some .directory ↔ after.entry? q = some .directory := by
  obtain ⟨place, ht, -⟩ := write_eq_ok.mp h
  obtain ⟨-, _, -, -, hno⟩ := target_eq_ok ht
  rw [entry?_of_write h ht]
  by_cases hq : q = place
  · simp [hq, hno]
  · rw [if_neg hq]

theorem here_of_write (h : before.write path text = .ok after) : after.here = before.here := by
  obtain ⟨_, -, rfl⟩ := write_eq_ok.mp h
  rfl

/-- Where a text can be written does not depend on the texts that were written before. -/
theorem target_of_write {place : String} (h : before.write path text = .ok after) :
    before.target other = .ok place ↔ after.target other = .ok place :=
  ⟨target_congr (here_of_write h) (directory_of_write h),
    target_congr (here_of_write h).symm fun q => (directory_of_write h q).symm⟩

theorem exists_write_error {e : AccessError} (h : f.write path text = .error e) :
    f.target path = .error e := by
  cases ht : f.target path with
  | ok place =>
    rw [write, ht] at h
    cases h
  | error e' =>
    rw [write, ht] at h
    cases h
    rfl

theorem read?_of_target_ne_ok (h : ∀ place, f.target path ≠ .ok place) : f.read? path = none := by
  unfold read?
  cases hread : f.read path with
  | error => rfl
  | ok text =>
    obtain ⟨place, ht, -⟩ := target_of_read hread
    exact absurd ht (h place)

end Files

/-- A run has put the document into the file tree `before` and nothing else: the lambdas cannot be
written, and could not be before. -/
structure Run.LacksLambdas (r : Run) (before : Files) (options : Options) : Prop where
  document : ∃ d : Graph.Document, before.write options.pgmFile (documentText d) = .ok r.files
  others (place : String) : before.target options.pgmFile ≠ .ok place →
    r.files.entry? place = before.entry? place
  ending : ∃ e, r.ending = .cannotOpen ⟨options.lambdaFile, e⟩ ∧
    ∀ text, r.files.write options.lambdaFile text = .error e
  closed (place : String) : before.target options.lambdaFile ≠ .ok place
  lambdas : before.read? options.lambdaFile = none ∧ r.files.read? options.lambdaFile = none

variable {env : Environment} {options : Options} {logger : Logger}

theorem writeOutputs_of_failure {l : Lowered} {r : Run}
    (h : (writeOutputs options logger l r).ending ≠ .exit 0) :
    (writeOutputs options logger l r).files = r.files ∨
      (writeOutputs options logger l r).LacksLambdas r.files options := by
  cases hdocument : r.files.write options.pgmFile (documentText l.document) with
  | error e => simp [writeOutputs, hdocument]
  | ok files =>
    cases hlambdas : files.write options.lambdaFile l.lambdaText with
    | ok files' => simp [writeOutputs, hdocument, hlambdas] at h
    | error e =>
      have htarget := Files.exists_write_error hlambdas
      have hafter : ∀ place, files.target options.lambdaFile ≠ .ok place := by simp [htarget]
      have hbefore : ∀ place, r.files.target options.lambdaFile ≠ .ok place := fun place ht =>
        hafter place ((Files.target_of_write hdocument).mp ht)
      have hnone : ∀ text, files.write options.lambdaFile text = .error e := fun text => by
        rw [Files.write, htarget]
        rfl
      right
      simp only [writeOutputs, hdocument, hlambdas]
      constructor
      case document => exact ⟨l.document, hdocument⟩
      case others =>
        intro place hplace
        obtain ⟨own, ht, -⟩ := Files.write_eq_ok.mp hdocument
        have hne : place ≠ own := fun he => hplace (he ▸ ht)
        rw [Files.entry?_of_write hdocument ht, if_neg hne]
      case ending => exact ⟨e, rfl, hnone⟩
      case closed => exact hbefore
      case lambdas =>
        exact ⟨Files.read?_of_target_ne_ok hbefore, Files.read?_of_target_ne_ok hafter⟩

theorem finish_of_failure {modules : List Module} {r : Run}
    (h : (finish env options logger modules r).ending ≠ .exit 0) :
    (finish env options logger modules r).files = r.files ∨
      (finish env options logger modules r).LacksLambdas r.files options := by
  unfold finish at h ⊢
  cases hresult : (Outcome.ofModules modules options.pgmFile env.today).result with
  | error fault => simp [hresult]
  | ok l =>
    cases hcheck : checkDocument options l.document with
    | error d => simp [hresult, hcheck]
    | ok externals =>
      simp only [hresult, hcheck] at h ⊢
      exact writeOutputs_of_failure h

/-- Whatever arguments and files a run starts on: unless it succeeds, it leaves every file as it
was, but for the document where the lambdas cannot be written. -/
theorem run_of_failure (env : Environment) (args : List String)
    (h : (run env args).ending ≠ .exit 0) :
    (run env args).files = env.files ∨
      (run env args).LacksLambdas env.files (parse args).options := by
  unfold run at h ⊢
  by_cases hhelp : (parse args).options.help = true
  · simp [hhelp] at h
  rw [if_neg hhelp] at h ⊢
  by_cases hwrong : (!((parse args).problems.map ArgumentProblem.message ++
      (parse args).options.problems.map Problem.message).isEmpty) = true
  · rw [if_pos hwrong]
    exact .inl rfl
  rw [if_neg hwrong] at h ⊢
  cases hload : loadAll env (Logger.default (parse args).options.verbose)
      (parse args).options.files with
  | mk notes result =>
    cases result with
    | error failure =>
      cases failure <;> exact .inl rfl
    | ok modules =>
      simp only [hload] at h ⊢
      exact finish_of_failure h

/-- An input without statements, beside directories to write to. -/
def Environment.sample (directories : List String) : Environment where
  interpreter := fun _ => .error ""
  today := "2024-01-02"
  files := .ofList [("a.json", "\x7b\"_type\":\"Module\",\"body\":[]\x7d")] directories

theorem run_of_failure_sample :
    (run (.sample ["out"]) ["a.json", "-p", "new/d.json", "-l", "out/l.py"]).files =
      (Environment.sample ["out"]).files := by
  have hfailure : (run (.sample ["out"]) ["a.json", "-p", "new/d.json", "-l", "out/l.py"]).ending ≠
      .exit 0 := by decide +kernel
  cases run_of_failure _ _ hfailure with
  | inl hfiles => exact hfiles
  | inr hlacks =>
    let args := ["a.json", "-p", "new/d.json", "-l", "out/l.py"]
    have hdocument : (run (.sample ["out"]) args).ending = .cannotOpen ⟨"new/d.json", .missing⟩ := by
      decide +kernel
    have hpath : (parse args).options.lambdaFile = "out/l.py" := by decide +kernel
    obtain ⟨e, hending, -⟩ := hlacks.ending
    rw [hdocument, hpath] at hending
    simp at hending

/-- Where the directory of the lambdas is missing, a run that fails has written the document. -/
theorem run_writes_document_alone :
    (run (.sample []) ["a.json", "-l", "out/l.py"]).ending =
        .cannotOpen ⟨"out/l.py", .missing⟩ ∧
      (Environment.sample []).files.read? "pgm.json" = none ∧
      ((run (.sample []) ["a.json", "-l", "out/l.py"]).files.read? "pgm.json").isSome = true := by
  decide +kernel

/-- So it has where the path of the lambdas is one of a directory. -/
example :
    (run (.sample ["out"]) ["a.json", "-l", "out"]).ending =
        .cannotOpen ⟨"out", .writesDirectory⟩ ∧
      (run (.sample []) ["a.json", "-l", "new/"]).ending =
        .cannotOpen ⟨"new/", .writesDirectory⟩ ∧
      ((run (.sample []) ["a.json", "-l", "new/"]).files.read? "pgm.json").isSome = true := by
  decide +kernel

end ProgramGraph.Command
