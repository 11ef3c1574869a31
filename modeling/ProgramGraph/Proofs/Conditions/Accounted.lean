import ProgramGraph.Proofs.Conditions.Merged

/-! What every part of a block accounts for, where no variable is named as a condition. -/
namespace ProgramGraph

open ProgramGraph.Graph Lowering LoweringState

/-- The parts of a block and what they account for. Each body starts in a function of its own, or in
that of the loop around it. -/
inductive Accounted : List Stmt → LoweringState → Layout → LoweringState → Prop
  | nil {s} : Accounted [] s .nil s
  | simple {t rest s s₁ s₂ made L}
      (hmade : Accounts s made.records t.written s₁)
      (hrest : Accounted rest s₁ L s₂) :
      Accounted (t :: rest) s (.simple t made L) s₂
  | branch {test body orelse line rest s s₁ s₂ s₃ s₄ s₅ condition tested T E decisions L}
      (htested : Accounts s tested.records [] s₁)
      (hthen : Accounted body s₁ T s₂)
      (helse : Accounted orelse (s₂.withLatest s₁.versions.latest) E s₃)
      (hdecisions : Accounts (s₃.withLatest s₁.versions.latest) decisions.records
        (Stmt.writtenIn body ++ Stmt.writtenIn orelse) s₄)
      (hcomplete : ∀ x ∈ Stmt.writtenIn body ++ Stmt.writtenIn orelse,
        ∃ r ∈ decisions.records, r.Decides condition ⟨x, s₄.versions.current x⟩)
      (hrest : Accounted rest s₄ L s₅) :
      Accounted (.branch test body orelse line :: rest) s
        (.branch test condition tested T s₂.versions E s₃.versions decisions L) s₅
  | loop {target iter body line rest s s₁ s₂ b b' index range name inputs B L}
      (hcall : Accounts s [.loop name inputs] target.targetName?.toList s₁)
      (howner : b.owner = s.owner) (hbody : Accounted body b B b')
      (hrest : Accounted rest s₁ L s₂) :
      Accounted (.loop target iter body [] line :: rest) s
        (.loop iter index range name inputs B L) s₂
  | definition {name parameters body line rest s s₁ s₂ b b' input vars B L}
      (hmade : Accounts s [] [] s₁)
      (hinput : ∀ p ∈ input, isConditionName p.name = false)
      (howner : b.owner = name) (hbody : Accounted body b B b')
      (hrest : Accounted rest s₁ L s₂) :
      Accounted (.functionDef name parameters body line :: rest) s
        (.definition name input vars B L) s₂

/-- The block accounts for all records of its layout and for all that it writes. -/
theorem Accounted.accounts {block : List Stmt} {s s' : LoweringState} {L : Layout}
    (h : Accounted block s L s') : Accounts s L.records (Stmt.writtenIn block) s' := by
  induction h with
  | nil => exact .idle (.idle rfl rfl (.nil _) nofun (.refl _))
  | simple hmade _ ih => exact hmade.append ih
  | @branch test body orelse line rest s s₁ s₂ s₃ s₄ s₅ condition tested T E decisions L
      htested _ _ hdecisions _ _ ihT ihE ih =>
    have hboth : Accounts s₁ (T.records ++ E.records) _ s₃ := ihT.reset.append ihE
    have hall := ((htested.append hboth.reset).append hdecisions).append ih
    rw [← List.append_assoc tested.records] at hall
    exact hall
  | loop hcall _ _ _ _ ih => exact hcall.append ih
  | definition hmade _ _ _ _ _ ih => exact hmade.append ih

theorem Lowering.declarations_ordinary {parameters : List Parameter} {scope : Scope}
    {line : Option Int} {ds : List Declaration}
    (h : (parameters.mapM fun p => declaration scope line p.name) = .ok ds)
    (hn : ∀ p ∈ parameters, isConditionName p.name = false) :
    ∀ d ∈ ds, isConditionName d.name = false := by
  intro d hd
  obtain ⟨p, hp, hd⟩ := exists_of_mem_mapM h hd
  unfold declaration at hd
  split at hd
  · obtain rfl := Except.ok.inj hd
    exact hn p hp
  · cases hd

/-- A scope that starts over is regular: a variable stands right below its first version. -/
theorem LoweringState.Starts.regular {s : LoweringState} {b : Int} (h : s.Starts b) :
    s.Regular where
  toTracked := h.tracked
  below x _ := by
    rw [h.current, h.upcoming]
    omega

theorem Lowers.accounted {block : List Stmt} {s s' : LoweringState} {L : Layout}
    (h : Lowers block s L s')
    (hp : Stmt.Respects (fun u => isConditionName u.1 = false) block) (hs : s.Regular) :
    Accounted block s L s' := by
  induction h with
  | nil => exact .nil
  | assign hmade _ ih =>
    obtain ⟨⟨hu, hd⟩, hrest⟩ := hp.cons
    have hfirst := assign_account hmade hu hd
    exact .simple hfirst (ih hrest (hfirst.regular hs))
  | annAssign hmade _ ih =>
    obtain ⟨⟨hu, hd⟩, hrest⟩ := hp.cons
    have hfirst := annAssign_account hmade hu hd
    exact .simple hfirst (ih hrest (hfirst.regular hs))
  | effect hmade _ ih =>
    obtain ⟨⟨hu, -⟩, hrest⟩ := hp.cons
    have hfirst := effect_account hmade hu
    exact .simple hfirst (ih hrest (hfirst.regular hs))
  | @branch test body orelse line rest s s₁ s₂ s₃ s₄ s₅ tested condition T E decisions L
      htest hthen helse hmerge _ ihT ihE ih =>
    obtain ⟨hu, hbody, horelse, hrest⟩ := hp.branch
    have htested := condition_account htest hu
    have hs₁ := htested.regular hs
    have hT := ihT hbody hs₁
    have hE := ihE horelse (hT.accounts.reset.regular hs₁)
    obtain ⟨hdecisions, hcomplete⟩ := decisions_account hs₁ hT.accounts hE.accounts
      hthen.covers.covered helse.covers.covered hmerge
    have hboth := hT.accounts.reset.append hE.accounts
    have hs₄ := hdecisions.regular (hboth.reset.regular hs₁)
    exact .branch htested hT hE hdecisions hcomplete (ih hrest hs₄)
  | @loop target iter body line rest s s₂ s₃ v index os range B L
      htarget hiter _ hbody _ ihB ih =>
    obtain ⟨hu, hn, hpb, hrest⟩ := hp.loop
    have hstart : (s.enterLoop index).Starts (-1) :=
      .of_fresh (enterLoop_tracked hs.named index) (.nil _)
    have hB := ihB hpb hstart.regular
    have hcall := loop_account (s₂.registry.next (s₂.plateBase index)).1 (s₂.loopInputs index)
      hiter hB.accounts hbody.before hu (loopIndex_ordinary htarget hn)
    have hwritten : target.targetName?.toList = [index] := by
      rw [targetName?_of_loopIndex htarget, Option.toList_some]
    rw [← hwritten] at hcall
    exact .loop hcall (owner_enterLoop s index) hB (ih hrest (hcall.regular hs))
  | @definition name parameters body line rest s s₁ s₂ s₃ r input vars B L
      hclaim hparameters hbody hinput _ _ ihB ih =>
    obtain ⟨hn, hpb, hrest⟩ := hp.definition
    obtain ⟨ha, hreads⟩ := parameters_advance hparameters hn
    have hstart : s₁.Starts 0 := .of_fresh (ha.tracked (enterFunction_tracked name r)) hreads
    have hregistry := Lowers.before_of_definition hclaim hparameters hbody
    have hmade : Accounts s [] [] ⟨s.scope, s₂.registry⟩ :=
      .idle (.idle rfl rfl (.nil _) nofun hregistry)
    exact .definition hmade (declarations_ordinary hinput hn) (parameters_owner hparameters)
      (ihB hpb hstart.regular) (ih hrest (hmade.regular hs))

end ProgramGraph
