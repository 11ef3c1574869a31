import ProgramGraph.Proofs.Validity.Admissible
import ProgramGraph.Proofs.Computation
import ProgramGraph.Lowering.Program
import ProgramGraph.Syntax.Reading

/-! Lines of programs that were read are safe integers. -/
namespace ProgramGraph

open Shape

namespace Shape

theorem isSafe_of_int {j : Option Json} {n : Int} (h : int j = .ok n) :
    Binary64.isSafe n = true := by
  unfold int at h
  split at h
  · split at h
    · cases h
    · split at h
      · obtain rfl := Checked.ok.inj h
        assumption
      · cases h
  · cases h

theorem optional_eq_ok {α : Type} {shape : Of α} {j : Option Json} {a : α}
    (h : optional shape j = .ok (some a)) : shape j = .ok a := by
  unfold optional at h
  split at h
  · cases h
  · obtain ⟨b, hb, he⟩ := Checked.map_eq_ok h
    obtain rfl := Option.some.inj he
    exact hb

end Shape

namespace Reading

theorem settle_eq_ok {α : Type} {place : Place} {c : Checked α} {a : α}
    (h : settle place c = .ok a) : c = .ok a := by
  unfold settle at h
  split at h
  · exact congrArg _ (Except.ok.inj h)
  · cases h
  · cases h

/-- The line of a node was checked. -/
theorem isSafe_of_header {j : Json} {place : Place} {h : Header}
    (hh : settle place (header j) = .ok h) : ∀ n ∈ h.line, Binary64.isSafe n = true := by
  intro n hn
  have hh := settle_eq_ok hh
  unfold header record at hh
  split at hh
  · obtain ⟨g, line, hg, hline, rfl⟩ := Checked.seq_eq_ok hh
    obtain ⟨type, -, rfl⟩ := Checked.map_eq_ok hg
    obtain rfl : line = some n := hn
    exact isSafe_of_int (optional_eq_ok (Checked.under_eq_ok hline))
  · cases hh

theorem exists_of_mem_each {α β : Type} {place : Place} {items : List α}
    {read : α → Place → Result β} {bs : List β} (h : each place items read = .ok bs) {b : β}
    (hb : b ∈ bs) : ∃ a p, read a p = .ok b := by
  obtain ⟨⟨a, i⟩, -, ha⟩ := exists_of_mem_mapM h hb
  exact ⟨a, _, ha⟩

theorem forall_mem_linesIn {block : List Stmt} {P : Int → Prop}
    (h : ∀ t ∈ block, ∀ n ∈ t.lines, P n) : ∀ n ∈ Stmt.linesIn block, P n := by
  induction block with
  | nil => exact nofun
  | cons t rest ih =>
    rw [List.forall_mem_cons] at h
    rw [Stmt.linesIn, List.forall_mem_append]
    exact ⟨h.1, ih h.2⟩

theorem isSafe_of_readStmt (j : Json) {place : Place} {s : Stmt} (h : readStmt j place = .ok s) :
    ∀ n ∈ s.lines, Binary64.isSafe n = true := by
  -- Blocks are read from strict parts of the tree.
  have hblock : ∀ {place : Place} {items : List (Part j)} {block : List Stmt},
      each place items (fun s p => readStmt s.1 p) = .ok block →
      ∀ n ∈ Stmt.linesIn block, Binary64.isSafe n = true := by
    intro place items block hb
    refine forall_mem_linesIn fun t ht => ?_
    obtain ⟨part, p, hp⟩ := exists_of_mem_each hb ht
    exact isSafe_of_readStmt part.1 hp
  rw [readStmt] at h
  obtain ⟨header, hh, h⟩ := except_bind_eq_ok.mp h
  have hline : ∀ n ∈ header.line.toList, Binary64.isSafe n = true := by
    simpa using isSafe_of_header hh
  split at h
  · obtain ⟨name, -, h⟩ := except_bind_eq_ok.mp h
    obtain ⟨arguments, -, h⟩ := except_bind_eq_ok.mp h
    obtain ⟨body, -, h⟩ := except_bind_eq_ok.mp h
    obtain ⟨plain, -, h⟩ := except_bind_eq_ok.mp h
    split at h
    · obtain rfl := except_pure_eq_ok.mp h
      simpa [Stmt.lines, Stmt.line] using hline
    · obtain ⟨parameters, -, h⟩ := except_bind_eq_ok.mp h
      obtain ⟨block, hb, h⟩ := except_bind_eq_ok.mp h
      obtain rfl := except_pure_eq_ok.mp h
      exact List.forall_mem_append.mpr ⟨hline, hblock hb⟩
  · obtain ⟨targets, -, h⟩ := except_bind_eq_ok.mp h
    obtain ⟨value, -, h⟩ := except_bind_eq_ok.mp h
    obtain ⟨targets, -, h⟩ := except_bind_eq_ok.mp h
    obtain ⟨value, -, h⟩ := except_bind_eq_ok.mp h
    obtain rfl := except_pure_eq_ok.mp h
    simpa [Stmt.lines, Stmt.line] using hline
  · obtain ⟨target, -, h⟩ := except_bind_eq_ok.mp h
    obtain ⟨typeExpr, -, h⟩ := except_bind_eq_ok.mp h
    obtain ⟨target, -, h⟩ := except_bind_eq_ok.mp h
    obtain ⟨typeExpr, -, h⟩ := except_bind_eq_ok.mp h
    split at h
    · obtain rfl := except_pure_eq_ok.mp h
      simpa [Stmt.lines, Stmt.line] using hline
    · obtain ⟨value, -, h⟩ := except_bind_eq_ok.mp h
      obtain rfl := except_pure_eq_ok.mp h
      simpa [Stmt.lines, Stmt.line] using hline
  · obtain ⟨test, -, h⟩ := except_bind_eq_ok.mp h
    obtain ⟨body, -, h⟩ := except_bind_eq_ok.mp h
    obtain ⟨orelse, -, h⟩ := except_bind_eq_ok.mp h
    obtain ⟨test, -, h⟩ := except_bind_eq_ok.mp h
    obtain ⟨body, hb, h⟩ := except_bind_eq_ok.mp h
    obtain ⟨orelse, ho, h⟩ := except_bind_eq_ok.mp h
    obtain rfl := except_pure_eq_ok.mp h
    exact List.forall_mem_append.mpr
      ⟨hline, List.forall_mem_append.mpr ⟨hblock hb, hblock ho⟩⟩
  · obtain ⟨target, -, h⟩ := except_bind_eq_ok.mp h
    obtain ⟨iter, -, h⟩ := except_bind_eq_ok.mp h
    obtain ⟨body, -, h⟩ := except_bind_eq_ok.mp h
    obtain ⟨orelse, -, h⟩ := except_bind_eq_ok.mp h
    obtain ⟨target, -, h⟩ := except_bind_eq_ok.mp h
    obtain ⟨iter, -, h⟩ := except_bind_eq_ok.mp h
    obtain ⟨body, hb, h⟩ := except_bind_eq_ok.mp h
    obtain ⟨orelse, ho, h⟩ := except_bind_eq_ok.mp h
    obtain rfl := except_pure_eq_ok.mp h
    exact List.forall_mem_append.mpr
      ⟨hline, List.forall_mem_append.mpr ⟨hblock hb, hblock ho⟩⟩
  · obtain ⟨value, -, h⟩ := except_bind_eq_ok.mp h
    obtain ⟨value, -, h⟩ := except_bind_eq_ok.mp h
    obtain rfl := except_pure_eq_ok.mp h
    simpa [Stmt.lines, Stmt.line] using hline
  · obtain rfl := except_pure_eq_ok.mp h
    simpa [Stmt.lines, Stmt.line] using hline
termination_by sizeOf j
decreasing_by exact part.2

theorem isSafe_of_readModule {j : Json} {place : Place} {m : Module}
    (h : readModule j place = .ok m) : ∀ n ∈ Stmt.linesIn m.body, Binary64.isSafe n = true := by
  obtain ⟨header, -, h⟩ := except_bind_eq_ok.mp h
  dsimp only at h
  split at h
  · cases h
  · obtain ⟨items, -, h⟩ := except_bind_eq_ok.mp h
    obtain ⟨body, hb, h⟩ := except_bind_eq_ok.mp h
    obtain rfl := except_pure_eq_ok.mp h
    refine forall_mem_linesIn fun t ht => ?_
    obtain ⟨part, p, hp⟩ := exists_of_mem_each hb ht
    exact isSafe_of_readStmt part.1 hp

end Reading

mutual

theorem Stmt.lines_of_mem_topLevel (s : Stmt) {t : Stmt} (ht : t ∈ s.topLevel) :
    ∀ n ∈ t.lines, n ∈ s.lines := by
  cases s with
  | branch test body orelse line =>
    intro n hn
    rw [Stmt.lines, List.mem_append, List.mem_append]
    exact .inr (.inl (Stmt.lines_of_mem_topLevelOf body ht n hn))
  | _ =>
    obtain rfl := List.mem_singleton.mp ht
    exact fun n hn => hn

/-- What stands at top level keeps its lines. -/
theorem Stmt.lines_of_mem_topLevelOf (block : List Stmt) {t : Stmt}
    (ht : t ∈ Stmt.topLevelOf block) : ∀ n ∈ t.lines, n ∈ Stmt.linesIn block := by
  cases block with
  | nil => cases ht
  | cons s rest =>
    intro n hn
    rw [Stmt.linesIn, List.mem_append]
    exact (List.mem_append.mp ht).imp (fun h => Stmt.lines_of_mem_topLevel s h n hn)
      fun h => Stmt.lines_of_mem_topLevelOf rest h n hn

end

/-- Programs that were read have safe lines. -/
theorem Module.isSafe_of_readModule {ms : List Module}
    (h : ∀ m ∈ ms, ∃ j place, Reading.readModule j place = .ok m) :
    ∀ n ∈ Stmt.linesIn (Module.definitions ms), Binary64.isSafe n = true := by
  refine Reading.forall_mem_linesIn fun t ht n hn => ?_
  obtain ⟨m, hm, ht⟩ := List.mem_flatMap.mp (List.mem_filter.mp ht).1
  obtain ⟨j, place, hread⟩ := h m hm
  exact Reading.isSafe_of_readModule hread n (Stmt.lines_of_mem_topLevelOf m.body ht n hn)

end ProgramGraph
