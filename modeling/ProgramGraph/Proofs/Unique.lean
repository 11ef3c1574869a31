import Mathlib.Data.List.Nodup
import ProgramGraph.Proofs.Follows.Unfolding

/-! The functions of a layout have distinct names: containers keep those of their definitions, all
other functions receive new ones. -/
namespace ProgramGraph

open ProgramGraph.Graph Lowering LoweringState Registry

def Graph.Function.isContainer : Function → Bool
  | .container .. => true
  | _ => false

/-- Functions named between two states of the registry. -/
structure Named (r : Registry) (fs : List Function) (r' : Registry) : Prop where
  generated : Generated r ((fs.filter (!·.isContainer)).map Function.name) r'
  claimed : Claimed r ((fs.filter (·.isContainer)).map Function.name) r'
  role : ∀ f ∈ fs, f.isContainer = false → HasRole f.name

namespace Named
variable {r r' r'' : Registry} {fs gs : List Function}

theorem nil (h : Before r r') : Named r [] r' := ⟨.nil h, .nil h, nofun⟩

theorem append (h : Named r fs r') (h' : Named r' gs r'') : Named r (fs ++ gs) r'' where
  generated := by
    rw [List.filter_append, List.map_append]
    exact h.generated.append h'.generated
  claimed := by
    rw [List.filter_append, List.map_append]
    exact h.claimed.append h'.claimed
  role f hf := (List.mem_append.mp hf).elim (h.role f) (h'.role f)

theorem perm (h : Named r fs r') (hp : fs.Perm gs) : Named r gs r' where
  generated :=
    have hm := (hp.filter (!·.isContainer)).map Function.name
    ⟨h.generated.before, fun x hx => h.generated.mem x (hm.mem_iff.mpr hx),
      hm.nodup_iff.mp h.generated.nodup⟩
  claimed :=
    have hm := (hp.filter (·.isContainer)).map Function.name
    ⟨h.claimed.before, fun x hx => h.claimed.mem x (hm.mem_iff.mpr hx),
      hm.nodup_iff.mp h.claimed.nodup⟩
  role f hf := h.role f (hp.mem_iff.mpr hf)

/-- Statements without a block of their own make no containers. -/
theorem of_makes {f : Fragment} (h : Makes r f r') : Named r f.functions r' := by
  have hall : ∀ g ∈ f.functions, g.isContainer = false := by
    intro g hg
    obtain ⟨x, ht⟩ := h.exists_target hg
    cases g with
    | container => cases ht
    | _ => rfl
  refine ⟨?_, ?_, fun g hg _ => h.role g hg⟩
  · rw [List.filter_eq_self.mpr fun g hg => by simp [hall g hg]]
    exact h.generated
  · rw [List.filter_eq_nil_iff.mpr fun g hg => by simp [hall g hg]]
    exact .nil h.generated.before

theorem plate {owner index : String} {inputs : List String} {range : Range} {body : List Record} :
    Named r [.loopPlate (r.next (owner ++ "__loop_plate__" ++ index)).1 inputs index range body]
      (r.next (owner ++ "__loop_plate__" ++ index)).2 where
  generated := .next r _
  claimed := .nil (before_next r _)
  role f hf _ := by
    obtain rfl := List.mem_singleton.mp hf
    exact hasRole_nameOf (by decide) owner index _

theorem container {name : String} {input vars : List Declaration} {body : List Record}
    (h : r.claim? name = some r') : Named r [.container name input vars body] r' where
  generated := .nil (before_claim? h)
  claimed := .claim h
  role f hf hc := by
    obtain rfl := List.mem_singleton.mp hf
    cases hc

/-- A name that the lowering gives belongs to one function. -/
theorem eq_of_name_eq (h : Named r fs r') {f g : Function} (hf : f ∈ fs) (hg : g ∈ fs)
    (hfc : f.isContainer = false) (hgc : g.isContainer = false) (hn : f.name = g.name) : f = g :=
  List.inj_on_of_nodup_map h.generated.nodup (List.mem_filter.mpr ⟨hf, by simp [hfc]⟩)
    (List.mem_filter.mpr ⟨hg, by simp [hgc]⟩) hn

/-- All names are distinct unless a container has the name of another function. -/
theorem nodup_of_ne (h : Named r fs r')
    (hne : ∀ f ∈ fs, ∀ g ∈ fs, f.isContainer = true → g.isContainer = false → f.name ≠ g.name) :
    (fs.map Function.name).Nodup := by
  have hperm := (List.filter_append_perm Function.isContainer fs).map Function.name
  rw [← hperm.nodup_iff, List.map_append, List.nodup_append]
  refine ⟨h.claimed.nodup, h.generated.nodup, fun x hx y hy hxy => ?_⟩
  obtain ⟨f, hf, rfl⟩ := List.mem_map.mp hx
  obtain ⟨g, hg, rfl⟩ := List.mem_map.mp hy
  rw [List.mem_filter] at hf hg
  exact hne f hf.1 g hg.1 hf.2 (by simpa using hg.2) hxy

end Named

/-- Every layout names its functions. -/
theorem Lowers.named {block : List Stmt} {s s' : LoweringState} {L : Layout}
    (h : Lowers block s L s') : Named s.registry L.functions s'.registry := by
  induction h with
  | nil => exact .nil (.refl _)
  | assign hmade _ ih => exact (Named.of_makes (assign_makes hmade)).append ih
  | annAssign hmade _ ih => exact (Named.of_makes (annAssign_makes hmade)).append ih
  | effect hmade _ ih =>
    obtain ⟨callee, input, v, rfl, rfl⟩ := effect_eq_call hmade
    exact ih
  | branch htest _ _ hmerge _ ihT ihE ih =>
    have ht := Named.of_makes (condition_makes htest)
    have hm := Named.of_makes (mergeVariables_makes hmerge)
    exact (((ht.append ihT).append ihE).append hm).append ih
  | loop _ _ _ _ _ ihB ih => exact (ihB.append .plate).append ih
  | @definition name parameters body line rest s s₁ s₂ s₃ r input vars B L
      hclaim hparameters _ _ _ _ ihB ih =>
    rw [registry_parameters hparameters] at ihB
    have hbody : Named s.registry ([.container name input vars B.records] ++ B.functions)
        s₂.registry := (Named.container hclaim).append ihB
    exact (hbody.perm List.perm_append_comm).append ih

/-- A function of a layout computes one variable, or has a body that the layout shows. -/
theorem Lowers.mem_functions {block : List Stmt} {s s' : LoweringState} {L : Layout}
    (h : Lowers block s L s') {f : Function} (hf : f ∈ L.functions) :
    (∃ x, f.target? = some x) ∨ ∃ B, (f, B) ∈ L.bodies := by
  induction h with
  | nil => cases hf
  | assign hmade _ ih =>
    exact (List.mem_append.mp hf).elim (fun hf => .inl ((assign_makes hmade).exists_target hf)) ih
  | annAssign hmade _ ih =>
    exact (List.mem_append.mp hf).elim (fun hf => .inl ((annAssign_makes hmade).exists_target hf)) ih
  | effect hmade _ ih =>
    obtain ⟨callee, input, v, rfl, rfl⟩ := effect_eq_call hmade
    exact ih hf
  | branch htest _ _ hmerge _ ihT ihE ih =>
    simp only [Layout.bodies, List.mem_append]
    rcases List.mem_append.mp hf with hf | hf
    · rcases List.mem_append.mp hf with hf | hf
      · rcases List.mem_append.mp hf with hf | hf
        · rcases List.mem_append.mp hf with hf | hf
          · exact .inl ((condition_makes htest).exists_target hf)
          · exact (ihT hf).imp_right (Exists.imp fun B hB => .inl (.inl hB))
        · exact (ihE hf).imp_right (Exists.imp fun B hB => .inl (.inr hB))
      · exact .inl ((mergeVariables_makes hmerge).exists_target hf)
    · exact (ih hf).imp_right (Exists.imp fun B hB => .inr hB)
  | loop _ _ _ _ _ ihB ih =>
    simp only [Layout.bodies, List.mem_append, List.mem_cons]
    rcases List.mem_append.mp hf with hf | hf
    · rcases List.mem_append.mp hf with hf | hf
      · exact (ihB hf).imp_right (Exists.imp fun B hB => .inl hB)
      · obtain rfl := List.mem_singleton.mp hf
        exact .inr ⟨_, .inr (.inl rfl)⟩
    · exact (ih hf).imp_right (Exists.imp fun B hB => .inr (.inr hB))
  | definition _ _ _ _ _ _ ihB ih =>
    simp only [Layout.bodies, List.mem_append, List.mem_cons]
    rcases List.mem_append.mp hf with hf | hf
    · rcases List.mem_append.mp hf with hf | hf
      · exact (ihB hf).imp_right (Exists.imp fun B hB => .inl hB)
      · obtain rfl := List.mem_singleton.mp hf
        exact .inr ⟨_, .inr (.inl rfl)⟩
    · exact (ih hf).imp_right (Exists.imp fun B hB => .inr (.inr hB))

end ProgramGraph
