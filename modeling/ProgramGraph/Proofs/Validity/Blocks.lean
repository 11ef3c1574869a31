import ProgramGraph.Proofs.Validity.Statements

/-! Blocks make functions and records that can stand in a document, as long as there are fewer than
`2 ^ 53` writes. -/
namespace ProgramGraph

open ProgramGraph.Graph Lowering LoweringState

/-- How many versions are written: one for each target, decision and loop, and one for each name in
value position that is a store. -/
def Layout.writeCount : Layout → Nat
  | nil => 0
  | simple s made rest => storesIn s.uses + made.functions.length + rest.writeCount
  | branch test _ _ thenPart _ elsePart _ decisions rest =>
    storesIn test.uses + thenPart.writeCount + elsePart.writeCount + decisions.functions.length +
      rest.writeCount
  | loop iter _ _ _ _ body rest => storesIn iter.uses + 1 + body.writeCount + rest.writeCount
  | definition _ _ _ body rest => body.writeCount + rest.writeCount

namespace Lowering

theorem rangeBound_fits {bound : Bound} {line : Option Int} {os : List Operand} {r : RangeBound}
    (h : rangeBound bound line os = .ok r) (ho : ∀ o ∈ os, o.Fits) : r.Fits := by
  unfold rangeBound at h
  split at h
  · obtain rfl := Except.ok.inj h
    cases ho _ (List.mem_singleton_self _) with
    | ref hr => exact hr
  · rename_i l
    split at h
    · rename_i x hd hv
      obtain rfl := Except.ok.inj h
      cases ho _ (List.mem_singleton_self _) with
      | literal hl =>
        simp only [Literal.isSafe, hd, hv, Option.any_eq_true] at hl
        obtain ⟨n, hn, hs⟩ := hl
        rw [RangeBound.Fits, Binary64.value_of_toInt? hn, Rat.floor_intCast]
        exact hs
    · cases h
  · cases h

theorem rangeOf_fits {line : Option Int} {os : List Operand} {r : Range}
    (h : rangeOf line os = .ok r) (ho : ∀ o ∈ os, o.Fits) : r.Fits := by
  unfold rangeOf at h
  split at h
  · cases ho _ (List.mem_singleton_self _) with
    | call _ harguments =>
      split at h
      · rw [List.forall_mem_cons, List.forall_mem_cons] at harguments
        obtain ⟨start, hstart, h⟩ := except_bind_eq_ok.mp h
        obtain ⟨stop, hstop, h⟩ := except_bind_eq_ok.mp h
        obtain rfl := except_pure_eq_ok.mp h
        exact ⟨rangeBound_fits hstart harguments.1, rangeBound_fits hstop harguments.2.1⟩
      · cases h
  · cases h

theorem loopIndex_ne {target : Expr} {line : Option Int} {index : String}
    (h : loopIndex target line = .ok index) (ht : target.Admissible) : index ≠ "" := by
  cases target with
  | name id access own =>
    obtain rfl := Except.ok.inj h
    exact ht.name
  | _ => cases h

theorem parameters_within {parameters : List Parameter} {line : Option Int} {b : Nat}
    {s s' : LoweringState} (h : parameters.forM (parameter line) s = .ok ((), s'))
    (hp : ∀ p ∈ parameters, p.name ≠ "") (hs : s.versions.Within b) : s'.versions.Within b := by
  refine parameters_induction (motive := fun t => t.versions.Within b) h hs ?_
  exact fun p hm _ _ ht => ht.read (hp p hm)

theorem declarations_fit {α : Type} {s : Scope} {line : Option Int} {nameOf : α → String}
    {l : List α} {ds : List Declaration}
    (h : (l.mapM fun a => declaration s line (nameOf a)) = .ok ds) (hl : ∀ a ∈ l, nameOf a ≠ "") :
    ∀ d ∈ ds, d.Fits := by
  intro d hd
  obtain ⟨a, ha, hd⟩ := exists_of_mem_mapM h hd
  unfold declaration at hd
  split at hd
  · obtain rfl := Except.ok.inj hd
    exact hl a ha
  · cases hd

end Lowering

/-- The bound of versions goes up by the writes of a block, and all that the block makes can stand
in a document. -/
theorem Lowers.fits {block : List Stmt} {s s' : LoweringState} {L : Layout} {b : Nat}
    (h : Lowers block s L s') (hp : Stmt.Admissible block) (hs : s.versions.Within b)
    (hb : b + L.writeCount < 2 ^ 53) :
    s'.versions.Within (b + L.writeCount) ∧ L.fragment.Fits := by
  induction h generalizing b with
  | nil => exact ⟨hs, Fragment.fits_empty⟩
  | assign hmade _ ih =>
    obtain ⟨hts, he, hline⟩ := hp.assign
    rw [Layout.writeCount, Stmt.uses, ← Nat.add_assoc, ← Nat.add_assoc] at hb ⊢
    obtain ⟨hw, hf⟩ := assign_fits hmade hts he hline hs (by omega)
    obtain ⟨hw', hrest⟩ := ih hp.cons.2 hw hb
    exact ⟨hw', hf.append hrest⟩
  | annAssign hmade _ ih =>
    obtain ⟨ht, he, hline⟩ := hp.annAssign
    rw [Layout.writeCount, Stmt.uses, ← Nat.add_assoc, ← Nat.add_assoc] at hb ⊢
    obtain ⟨hw, hf⟩ := annAssign_fits hmade ht he hline hs (by omega)
    obtain ⟨hw', hrest⟩ := ih hp.cons.2 hw hb
    exact ⟨hw', hf.append hrest⟩
  | effect hmade _ ih =>
    rw [Layout.writeCount, Stmt.uses, ← Nat.add_assoc, ← Nat.add_assoc] at hb ⊢
    obtain ⟨hw, hf⟩ := effect_fits hmade hp.cons.1.1 hs (by omega)
    obtain ⟨hw', hrest⟩ := ih hp.cons.2 (hw.mono (Nat.le_add_right _ _)) hb
    exact ⟨hw', hf.append hrest⟩
  | @branch test body orelse line rest s s₁ s₂ s₃ s₄ s₅ tested condition T E decisions L
      htest hthen helse hmerge hrest ihT ihE ih =>
    obtain ⟨he, hline, hbody, horelse, hr⟩ := hp.branch
    simp only [Layout.writeCount, ← Nat.add_assoc] at hb ⊢
    obtain ⟨hw₁, hf₁, houtput⟩ := condition_fits htest he hline hs (by omega)
    obtain ⟨hw₂, hf₂⟩ := ihT hbody hw₁ (by omega)
    -- What was visible before the branches is merged under the bound after both of them.
    have hstart := hw₁.latest.mono (Nat.le_add_right _ T.writeCount)
    obtain ⟨hw₃, hf₃⟩ := ihE horelse (hw₂.withLatest hstart) (by omega)
    have hstart' := hstart.mono (Nat.le_add_right _ E.writeCount)
    have hthen' := hw₂.latest.mono (Nat.le_add_right _ E.writeCount)
    have hnames : ∀ x ∈ distinct (s₁.versions.latest.keys ++ s₂.versions.latest.keys ++
        s₃.versions.latest.keys), x ≠ "" := by
      intro x hx
      rw [mem_distinct, List.mem_append, List.mem_append] at hx
      exact hx.elim (·.elim (hstart'.keys x) (hthen'.keys x)) (hw₃.latest.keys x)
    obtain ⟨hw₄, hf₄⟩ := mergeVariables_fit hmerge houtput hnames hstart' hthen' hw₃.latest
      (hw₃.withLatest hstart') (by omega)
    obtain ⟨hw₅, hf₅⟩ := ih hr hw₄ hb
    exact ⟨hw₅, (((hf₁.append hf₂).append hf₃).append hf₄).append hf₅⟩
  | @loop target iter body line rest s s₂ s₃ v index os range B L
      htarget hiter hrange hbody _ ihB ih =>
    obtain ⟨ht, he, hpb, hpr⟩ := hp.loop
    simp only [Layout.writeCount, ← Nat.add_assoc] at hb ⊢
    obtain ⟨hv, ho⟩ := Expr.operands_fit iter hiter he hs (by omega)
    have hindex := loopIndex_ne htarget ht
    -- The body has versions of its own, so the bound starts anew there.
    have henter : (s.enterLoop index).versions.Within 0 := Versions.within_fresh (by omega)
    obtain ⟨hw, hf⟩ := ihB hpb henter (by omega)
    have hcall := (hv.write hindex).mono (Nat.le_add_right _ B.writeCount)
    obtain ⟨hw', hf'⟩ := ih hpr hcall hb
    have hinputs : ∀ x ∈ s₂.loopInputs index, x ≠ "" := fun x hx =>
      hw.latest.keys x (List.mem_filter.mp hx).1
    have hplate : Function.Fits (.loopPlate (s₂.registry.next (s₂.plateBase index)).1
        (s₂.loopInputs index) index range B.records) :=
      ⟨Registry.next_ne _ _, hinputs, hindex, rangeOf_fits hrange ho, hf.records⟩
    have hrecord : Record.Fits (.loop (s₂.registry.next (s₂.plateBase index)).1
        (s₂.loopInputs index)) := ⟨Registry.next_ne _ _, hinputs⟩
    refine ⟨hw', Fragment.Fits.append ⟨?_, ?_⟩ hf'⟩
    · exact List.forall_mem_append.mpr ⟨hf.functions, List.forall_mem_singleton.mpr hplate⟩
    · exact List.forall_mem_singleton.mpr hrecord
  | @definition name parameters body line rest s s₁ s₂ s₃ r input vars B L
      hclaim hparameters hbody hinput hvars _ ihB ih =>
    obtain ⟨hname, hn, hpb, hpr⟩ := hp.definition
    simp only [Layout.writeCount, ← Nat.add_assoc] at hb ⊢
    have henter : (enterFunction name r).versions.Within 0 := Versions.within_fresh (by omega)
    obtain ⟨hw, hf⟩ := ihB hpb (parameters_within hparameters hn henter) (by omega)
    obtain ⟨hw', hf'⟩ := ih hpr (hs.mono (Nat.le_add_right _ B.writeCount)) hb
    have hcontainer : Function.Fits (.container name input vars B.records) :=
      ⟨hname, declarations_fit hinput hn, declarations_fit hvars hw.latest.keys, hf.records⟩
    refine ⟨hw', Fragment.Fits.append ⟨?_, nofun⟩ hf'⟩
    exact List.forall_mem_append.mpr ⟨hf.functions, List.forall_mem_singleton.mpr hcontainer⟩

end ProgramGraph
