import ProgramGraph.Graph.Validation
import ProgramGraph.Proofs.Plates
import ProgramGraph.Proofs.Validity.Admissible

/-! Lowered programs refer to their own functions: names are unique, and every record finds the
function that it needs. -/
namespace ProgramGraph

open ProgramGraph.Graph Lowering LoweringState

/-- A record needs a function of its name, for its variable or with its body. -/
def Graph.Record.ResolvesIn (fs : List Function) : Record → Prop
  | .value name output _ => ∃ f ∈ fs, f.name = name ∧ f.target? = some output.name
  | .loop name _ => ∃ f ∈ fs, f.name = name ∧ f.isPlate = true
  | .call .. => True

theorem Graph.Record.ResolvesIn.mono {fs gs : List Function} {r : Record} (h : r.ResolvesIn fs)
    (hfs : ∀ f ∈ fs, f ∈ gs) : r.ResolvesIn gs := by
  cases r with
  | value name output input =>
    obtain ⟨f, hf, h⟩ := h
    exact ⟨f, hfs f hf, h⟩
  | call function input => trivial
  | loop name inputs =>
    obtain ⟨f, hf, h⟩ := h
    exact ⟨f, hfs f hf, h⟩

namespace Fragment

/-- All records, those in bodies among them, find their functions. -/
structure Closed (f : Fragment) : Prop where
  records : ∀ r ∈ f.records, r.ResolvesIn f.functions
  bodies : ∀ g ∈ f.functions, ∀ r ∈ g.body, r.ResolvesIn f.functions

namespace Closed
variable {f g : Fragment}

theorem append (hf : f.Closed) (hg : g.Closed) : (f ++ g).Closed where
  records := by
    refine List.forall_mem_append.mpr ⟨fun r hr => ?_, fun r hr => ?_⟩
    · exact (hf.records r hr).mono fun _ => List.mem_append_left _
    · exact (hg.records r hr).mono fun _ => List.mem_append_right _
  bodies := by
    refine List.forall_mem_append.mpr ⟨fun k hk r hr => ?_, fun k hk r hr => ?_⟩
    · exact (hf.bodies k hk r hr).mono fun _ => List.mem_append_left _
    · exact (hg.bodies k hk r hr).mono fun _ => List.mem_append_right _

theorem of_makes {r r' : Registry} (h : Makes r f r') : f.Closed where
  records k hk := by
    obtain ⟨g, hg, output, input, rfl, ht⟩ := h.exists_computes hk
    exact ⟨g, hg, rfl, ht⟩
  bodies k hk := by
    obtain ⟨x, hx⟩ := h.exists_target hk
    cases k with
    | assign => exact nofun
    | decision => exact nofun
    | _ => cases hx

/-- A function that takes the records of a part as its body. -/
theorem wrap {k : Function} {records : List Record} (h : f.Closed)
    (hk : k.body = f.records) (hr : ∀ r ∈ records, r.ResolvesIn (f.functions ++ [k])) :
    Closed ⟨f.functions ++ [k], records⟩ where
  records := hr
  bodies := by
    refine List.forall_mem_append.mpr ⟨fun g hg r hr => ?_, List.forall_mem_singleton.mpr ?_⟩
    · exact (h.bodies g hg r hr).mono fun _ => List.mem_append_left _
    · rw [hk]
      exact fun r hr => (h.records r hr).mono fun _ => List.mem_append_left _

end Closed

end Fragment

theorem Lowers.closed {block : List Stmt} {s s' : LoweringState} {L : Layout}
    (h : Lowers block s L s') : L.fragment.Closed := by
  induction h with
  | nil => exact ⟨nofun, nofun⟩
  | assign hmade _ ih => exact (Fragment.Closed.of_makes (assign_makes hmade)).append ih
  | annAssign hmade _ ih => exact (Fragment.Closed.of_makes (annAssign_makes hmade)).append ih
  | effect hmade _ ih =>
    obtain ⟨callee, input, v, rfl, rfl⟩ := effect_eq_call hmade
    exact Fragment.Closed.append ⟨List.forall_mem_singleton.mpr trivial, nofun⟩ ih
  | branch htest _ _ hmerge _ ihT ihE ih =>
    have ht := Fragment.Closed.of_makes (condition_makes htest)
    have hm := Fragment.Closed.of_makes (mergeVariables_makes hmerge)
    exact (((ht.append ihT).append ihE).append hm).append ih
  | loop _ _ _ _ _ ihB ih =>
    refine (ihB.wrap rfl (List.forall_mem_singleton.mpr ?_)).append ih
    exact ⟨_, List.mem_append_right _ (List.mem_singleton_self _), rfl, rfl⟩
  | definition _ _ _ _ _ _ ihB ih =>
    refine (ihB.wrap rfl ?_).append ih
    exact nofun

/-- A container has the name of a function of the program. -/
def Graph.Function.DefinedBy (signatures : List (String × List Parameter)) (f : Function) : Prop :=
  f.isContainer = true → ∃ k ∈ signatures, k.1 = f.name

theorem Graph.Function.DefinedBy.mono {ks ls : List (String × List Parameter)} {f : Function}
    (h : f.DefinedBy ks) (hk : ∀ k ∈ ks, k ∈ ls) : f.DefinedBy ls := fun hc =>
  have ⟨k, hm, hn⟩ := h hc
  ⟨k, hk k hm, hn⟩

theorem Makes.definedBy {r r' : Registry} {F : Fragment} (h : Makes r F r')
    {ks : List (String × List Parameter)} : ∀ f ∈ F.functions, f.DefinedBy ks := by
  intro f hf hc
  obtain ⟨x, hx⟩ := h.exists_target hf
  cases f with
  | container => cases hx
  | _ => cases hc

/-- The containers of a layout are the functions that its block defines. -/
theorem Lowers.definedBy {block : List Stmt} {s s' : LoweringState} {L : Layout}
    (h : Lowers block s L s') : ∀ f ∈ L.functions, f.DefinedBy (Stmt.signaturesIn block) := by
  induction h with
  | nil => exact List.forall_mem_nil _
  | assign hmade _ ih => exact List.forall_mem_append.mpr ⟨(assign_makes hmade).definedBy, ih⟩
  | annAssign hmade _ ih => exact List.forall_mem_append.mpr ⟨(annAssign_makes hmade).definedBy, ih⟩
  | effect hmade _ ih =>
    obtain ⟨callee, input, v, rfl, rfl⟩ := effect_eq_call hmade
    exact ih
  | @branch test body orelse line rest s s₁ s₂ s₃ s₄ s₅ tested condition T E decisions L
      htest _ _ hmerge _ ihT ihE ih =>
    change ∀ f ∈ tested.functions ++ T.functions ++ E.functions ++ decisions.functions ++
      L.functions, _
    simp only [List.forall_mem_append, Stmt.signaturesIn, Stmt.signatures]
    refine ⟨⟨⟨⟨(condition_makes htest).definedBy, fun f hf => ?_⟩, fun f hf => ?_⟩,
      (mergeVariables_makes hmerge).definedBy⟩, fun f hf => ?_⟩
    · exact (ihT f hf).mono fun k hk => List.mem_append_left _ (List.mem_append_left _ hk)
    · exact (ihE f hf).mono fun k hk => List.mem_append_left _ (List.mem_append_right _ hk)
    · exact (ih f hf).mono fun k hk => List.mem_append_right _ hk
  | @loop target iter body line rest s s₂ s₃ v index os range B L _ _ _ _ _ ihB ih =>
    change ∀ f ∈ B.functions ++ [_] ++ L.functions, _
    simp only [List.forall_mem_append, List.forall_mem_singleton, Stmt.signaturesIn,
      Stmt.signatures, List.append_nil]
    refine ⟨⟨fun f hf => ?_, fun hc => absurd hc Bool.false_ne_true⟩, fun f hf => ?_⟩
    · exact (ihB f hf).mono fun k hk => List.mem_append_left _ hk
    · exact (ih f hf).mono fun k hk => List.mem_append_right _ hk
  | @definition name parameters body line rest s s₁ s₂ s₃ r input vars B L _ _ _ _ _ _ ihB ih =>
    change ∀ f ∈ B.functions ++ [_] ++ L.functions, _
    simp only [List.forall_mem_append, List.forall_mem_singleton, Stmt.signaturesIn,
      Stmt.signatures, List.cons_append]
    refine ⟨⟨fun f hf => ?_, fun _ => ⟨_, List.mem_cons_self, rfl⟩⟩, fun f hf => ?_⟩
    · exact (ihB f hf).mono fun k hk => List.mem_cons_of_mem _ (List.mem_append_left _ hk)
    · exact (ih f hf).mono fun k hk => List.mem_cons_of_mem _ (List.mem_append_right _ hk)

/-- Names of containers and generated names do not meet. -/
theorem Named.nodup {r r' : Registry} {fs : List Function} (h : Named r fs r')
    (hc : ∀ f ∈ fs, f.isContainer = true → ¬HasRole f.name) : (fs.map Function.name).Nodup := by
  refine h.nodup_of_ne fun f hf g hg hfc hgc hname => ?_
  exact hc f hf hfc (hname ▸ h.role g hg hgc)

namespace Graph.Document
variable {d : Document}

theorem find?_of_mem (h : (d.functions.map Function.name).Nodup) {f : Function}
    (hf : f ∈ d.functions) : d.find? f.name = some f := by
  cases hg : d.find? f.name with
  | none =>
    have hn := List.find?_eq_none.mp hg f hf
    simp at hn
  | some g =>
    have hname : g.name = f.name := by simpa using List.find?_some hg
    rw [List.inj_on_of_nodup_map h (List.mem_of_find?_eq_some hg) hf hname]

theorem map_snd_records : d.records.map Prod.snd = d.body ++ d.functions.flatMap Function.body := by
  have hbody (owner : BodyOwner) (body : List Record) :
      (body.zipIdx.map fun q => ((⟨owner, q.2⟩ : RecordPlace), q.1)).map Prod.snd = body := by
    rw [List.map_map]
    exact List.zipIdx_map_fst 0 body
  have hbodies : (d.functions.zipIdx.flatMap fun q => q.1.body) =
      d.functions.flatMap Function.body := by
    have hmap := List.flatMap_map Prod.fst Function.body d.functions.zipIdx
    rw [List.zipIdx_map_fst] at hmap
    exact hmap.symm
  unfold records
  rw [List.map_append, List.map_flatMap, ← hbodies]
  congr 1
  · exact hbody .document d.body
  · exact List.flatMap_congr fun q _ => hbody (.function q.2) q.1.body

theorem exists_mem_records_iff {r : Record} :
    (∃ p, (p, r) ∈ d.records) ↔ r ∈ d.body ∨ ∃ f ∈ d.functions, r ∈ f.body := by
  rw [← List.mem_flatMap, ← List.mem_append, ← map_snd_records, List.mem_map]
  constructor
  · rintro ⟨p, hp⟩
    exact ⟨(p, r), hp, rfl⟩
  · rintro ⟨⟨p, r⟩, hp, rfl⟩
    exact ⟨p, hp⟩

theorem of_find?_eq_some {name : String} {f : Function} (h : d.find? name = some f) :
    f ∈ d.functions ∧ f.name = name :=
  ⟨List.mem_of_find?_eq_some h, by simpa using List.find?_some h⟩

/-- With unique names the first function of a name is the one that a record needs, if there is
one. -/
theorem recordDefect?_eq_none_iff (h : (d.functions.map Function.name).Nodup) {p : RecordPlace}
    {r : Record} : d.recordDefect? p r = none ↔ r.ResolvesIn d.functions := by
  cases r with
  | call function input => exact iff_of_true rfl trivial
  | value name output input =>
    constructor
    · intro hnone
      unfold recordDefect? at hnone
      dsimp only at hnone
      split at hnone
      · cases hnone
      · rename_i f hfind
        obtain ⟨hf, hname⟩ := of_find?_eq_some hfind
        split at hnone
        · cases hnone
        · rename_i target htarget
          split at hnone
          · rename_i he
            exact ⟨f, hf, hname, he ▸ htarget⟩
          · cases hnone
    · rintro ⟨f, hf, rfl, ht⟩
      simp [recordDefect?, find?_of_mem h hf, ht]
  | loop name inputs =>
    constructor
    · intro hnone
      unfold recordDefect? at hnone
      dsimp only at hnone
      split at hnone
      · cases hnone
      · rename_i hfind
        obtain ⟨hf, hname⟩ := of_find?_eq_some hfind
        exact ⟨_, hf, hname, rfl⟩
      · cases hnone
    · rintro ⟨f, hf, rfl, hp⟩
      cases f with
      | loopPlate => simp [recordDefect?, find?_of_mem h hf]
      | _ => cases hp

/-- The start is empty, a function elsewhere, or a container. -/
def StartResolves (d : Document) : Prop :=
  d.start = "" ∨ (∀ f ∈ d.functions, f.name ≠ d.start) ∨
    ∃ f ∈ d.functions, f.name = d.start ∧ f.isContainer = true

theorem startDefect?_eq_none_iff (h : (d.functions.map Function.name).Nodup) :
    d.startDefect? = none ↔ d.StartResolves := by
  unfold startDefect?
  by_cases hempty : d.start = ""
  · rw [if_pos hempty]
    exact iff_of_true rfl (.inl hempty)
  · rw [if_neg hempty]
    cases hfind : d.find? d.start with
    | none =>
      refine iff_of_true rfl (.inr (.inl ?_))
      intro f hf hname
      simpa [hname] using List.find?_eq_none.mp hfind f hf
    | some f =>
      obtain ⟨hf, hname⟩ := of_find?_eq_some hfind
      have honly : d.StartResolves ↔ f.isContainer = true := by
        constructor
        · rintro (hs | hs | ⟨g, hg, hgname, hc⟩)
          · exact absurd hs hempty
          · exact absurd hname (hs f hf)
          · rw [← hgname, find?_of_mem h hg] at hfind
            obtain rfl := Option.some.inj hfind
            exact hc
        · exact fun hc => .inr (.inr ⟨f, hf, hname, hc⟩)
      rw [honly]
      cases f with
      | container => exact iff_of_true rfl rfl
      | _ => exact iff_of_false nofun nofun

/-- Names are unique, every record finds the function that it needs, and so does the start. -/
structure WellFormed (d : Document) : Prop where
  names : (d.functions.map Function.name).Nodup
  body : ∀ r ∈ d.body, r.ResolvesIn d.functions
  bodies : ∀ f ∈ d.functions, ∀ r ∈ f.body, r.ResolvesIn d.functions
  start : d.StartResolves

/-- Nothing is wrong with a document if and only if it is well formed. -/
theorem defects_eq_nil_iff : d.defects = [] ↔ d.WellFormed := by
  have hrecords (h : (d.functions.map Function.name).Nodup) :
      (∀ q ∈ d.records, d.recordDefect? q.1 q.2 = none) ↔
        ∀ r, (∃ p, (p, r) ∈ d.records) → r.ResolvesIn d.functions := by
    constructor
    · rintro hall r ⟨p, hr⟩
      exact (recordDefect?_eq_none_iff h).mp (hall (p, r) hr)
    · rintro hall ⟨p, r⟩ hr
      exact (recordDefect?_eq_none_iff h).mpr (hall r ⟨p, hr⟩)
  unfold defects
  rw [List.append_eq_nil_iff, List.append_eq_nil_iff, duplicates_eq_nil_iff,
    List.filterMap_eq_nil_iff, Option.toList_eq_nil_iff]
  constructor
  · rintro ⟨⟨hn, hr⟩, hs⟩
    have hall := (hrecords hn).mp hr
    constructor
    case names => exact hn
    case body => exact fun r hr => hall r (exists_mem_records_iff.mpr (.inl hr))
    case bodies => exact fun f hf r hr => hall r (exists_mem_records_iff.mpr (.inr ⟨f, hf, hr⟩))
    case start => exact (startDefect?_eq_none_iff hn).mp hs
  · intro h
    refine ⟨⟨h.names, (hrecords h.names).mpr ?_⟩, (startDefect?_eq_none_iff h.names).mpr h.start⟩
    intro r hr
    rcases exists_mem_records_iff.mp hr with hr | ⟨f, hf, hr⟩
    · exact h.body r hr
    · exact h.bodies f hf r hr

end Graph.Document

theorem Graph.validate_of_defects_eq_nil {j : Json} {d : Document}
    (h : Document.schema (some j) = .ok d) (hd : d.defects = []) :
    Graph.validate j = ⟨[], d.externals, some d⟩ := by
  unfold Graph.validate
  rw [h]
  simp only [hd]

end ProgramGraph
