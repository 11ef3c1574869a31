import ProgramGraph.Lowering.Scope
import ProgramGraph.Proofs.Versions

/-! When computations with a state succeed, and what the primitive ones then did. -/
namespace ProgramGraph

section
variable {σ ε α β : Type}

theorem bind_eq_ok {m : StateT σ (Except ε) α} {f : α → StateT σ (Except ε) β} {s s' : σ} {b : β} :
    (m >>= f) s = .ok (b, s') ↔ ∃ a t, m s = .ok (a, t) ∧ f a t = .ok (b, s') := by
  change (m s >>= fun p => f p.1 p.2) = _ ↔ _
  cases m s with
  | error e => simp [bind, Except.bind]
  | ok p =>
    obtain ⟨a, t⟩ := p
    constructor
    · exact fun h => ⟨a, t, rfl, h⟩
    · rintro ⟨_, _, ⟨⟩, h⟩
      exact h

theorem pure_eq_ok {s s' : σ} {a b : α} :
    (pure a : StateT σ (Except ε) α) s = .ok (b, s') ↔ a = b ∧ s = s' := by
  change Except.ok (a, s) = _ ↔ _
  simp

/-- A result that passes a test is there. -/
theorem except_exists_ok_of_any {r : Except ε α} {q : α → Bool} (h : r.toOption.any q = true) :
    ∃ a, r = .ok a ∧ q a = true := by
  cases r with
  | error e => cases h
  | ok a => exact ⟨a, rfl, h⟩

/-- A computation whose result passes a test succeeds. -/
theorem exists_ok_of_any {m : StateT σ (Except ε) α} {s : σ} {q : α × σ → Bool}
    (h : (m s).toOption.any q = true) : ∃ a s', m s = .ok (a, s') ∧ q (a, s') = true := by
  obtain ⟨⟨a, s'⟩, hm, hq⟩ := except_exists_ok_of_any h
  exact ⟨a, s', hm, hq⟩

theorem except_bind_eq_ok {m : Except ε α} {f : α → Except ε β} {b : β} :
    (m >>= f) = .ok b ↔ ∃ a, m = .ok a ∧ f a = .ok b := by
  cases m <;> simp [bind, Except.bind]

theorem except_pure_eq_ok {a b : α} : (pure a : Except ε α) = .ok b ↔ a = b := by
  change Except.ok a = _ ↔ _
  simp

theorem exists_of_mem_mapM {f : α → Except ε β} {as : List α} {bs : List β}
    (h : as.mapM f = .ok bs) {b : β} (hb : b ∈ bs) : ∃ a ∈ as, f a = .ok b := by
  induction as generalizing bs with
  | nil =>
    obtain rfl := except_pure_eq_ok.mp h
    cases hb
  | cons a as ih =>
    rw [List.mapM_cons] at h
    obtain ⟨first, hfirst, h⟩ := except_bind_eq_ok.mp h
    obtain ⟨others, hothers, h⟩ := except_bind_eq_ok.mp h
    obtain rfl := except_pure_eq_ok.mp h
    rcases List.mem_cons.mp hb with rfl | hb
    · exact ⟨a, List.mem_cons_self, hfirst⟩
    · obtain ⟨c, hc, hf⟩ := ih hothers hb
      exact ⟨c, List.mem_cons_of_mem _ hc, hf⟩

end

namespace Versioning
variable {α : Type} {v v' : Versions}

theorem read_eq_ok {x : String} {r : Reference} :
    read x v = .ok (r, v') ↔ ⟨x, v.current x⟩ = r ∧ (v.read x).2 = v' := by
  simp [read, Versions.read_fst]

theorem write_eq_ok {x : String} {r : Reference} :
    write x v = .ok (r, v') ↔ ⟨x, v.upcoming x⟩ = r ∧ (v.write x).2 = v' := by
  simp [write, Versions.write_fst]

theorem ofResult_eq_ok {r : Except Fault α} {a : α} :
    ofResult r v = .ok (a, v') ↔ r = .ok a ∧ v = v' := by
  cases r <;> simp [ofResult]

end Versioning

namespace LoweringState

def owner (s : LoweringState) : String := s.scope.name

def versions (s : LoweringState) : Versions := s.scope.versions

def withVersions (s : LoweringState) (v : Versions) : LoweringState :=
  { s with scope := { s.scope with versions := v } }

end LoweringState

namespace Lowering
variable {α : Type} {s s' : LoweringState}

theorem ofResult_eq_ok {r : Except Fault α} {a : α} :
    ofResult r s = .ok (a, s') ↔ r = .ok a ∧ s = s' := by
  cases r <;> simp [ofResult]

theorem versioning_eq_ok {m : Versioning α} {a : α} :
    versioning m s = .ok (a, s') ↔ ∃ v, m s.versions = .ok (a, v) ∧ s.withVersions v = s' := by
  have hv : s.versions = s.scope.versions := rfl
  unfold versioning
  rw [hv]
  cases m s.scope.versions with
  | error f => simp
  | ok p =>
    obtain ⟨b, v⟩ := p
    simp only [Except.ok.injEq, Prod.mk.injEq]
    constructor
    · rintro ⟨rfl, rfl⟩
      exact ⟨v, ⟨rfl, rfl⟩, rfl⟩
    · rintro ⟨_, ⟨rfl, rfl⟩, rfl⟩
      exact ⟨rfl, rfl⟩

theorem take_eq_ok {key : String} {n : Nat} :
    take key s = .ok (n, s') ↔
      (s.registry.take key).1 = n ∧ { s with registry := (s.registry.take key).2 } = s' := by
  simp [take]

theorem next_eq_ok {base name : String} :
    next base s = .ok (name, s') ↔
      (s.registry.next base).1 = name ∧ { s with registry := (s.registry.next base).2 } = s' := by
  simp [next]

theorem claim_eq_ok {name : String} {line : Option Int} :
    claim name line s = .ok ((), s') ↔
      ∃ r, s.registry.claim? name = some r ∧ { s with registry := r } = s' := by
  unfold claim
  cases s.registry.claim? name <;> simp

theorem emit_eq_ok {l : Lambda} :
    emit l s = .ok ((), s') ↔ { s with registry := s.registry.emit l.source } = s' := by
  simp [emit]

end Lowering
end ProgramGraph
