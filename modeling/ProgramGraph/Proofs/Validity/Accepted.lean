import Mathlib.Data.List.Basic
import ProgramGraph.Proofs.Reading.Nodes
import ProgramGraph.Proofs.Validity.RoundTrip

/-! What the schema accepts: documents that fit, and that are written as the data tree they were
read from. -/
namespace ProgramGraph

open Shape

namespace Json

/-- Equality of data trees up to the order of members. -/
inductive Agrees : Json → Json → Prop
  | refl (j : Json) : Agrees j j
  | array {js ks : List Json} (h : List.Forall₂ Agrees js ks) : Agrees (.array js) (.array ks)
  | object {ms ns : List (String × Json)}
      (hkeys : ∀ key, (ms.lookup key).isSome = (ns.lookup key).isSome)
      (hvalues : ∀ key a b, ms.lookup key = some a → ns.lookup key = some b → Agrees a b) :
      Agrees (.object ms) (.object ns)

/-- A member of an object agrees with a tree. -/
def MemberAgrees (members : List (String × Json)) (key : String) (j : Json) : Prop :=
  ∃ k, members.lookup key = some k ∧ j.Agrees k

theorem isSome_lookup {members : List (String × Json)} {key : String} :
    (members.lookup key).isSome = true ↔ key ∈ members.map Prod.fst := by
  rw [List.lookup_isSome_iff, List.mem_map]
  apply exists_congr
  intro e
  rw [beq_iff_eq, eq_comm]

/-- Objects agree if one has no other keys than the other, whose members it holds. -/
theorem Agrees.of_members {written members : List (String × Json)} {keys : List String}
    (hkeys : ∀ k ∈ members.map Prod.fst, k ∈ keys) (hwritten : ∀ k ∈ keys, k ∈ written.map Prod.fst)
    (h : written.Forall fun e => MemberAgrees members e.1 e.2) :
    (Json.object written).Agrees (.object members) := by
  have hsome : ∀ key j, written.lookup key = some j → MemberAgrees members key j :=
    fun key j hj => List.forall_iff_forall_mem.mp h (key, j) (mem_of_lookup hj)
  apply Agrees.object
  · intro key
    rw [Bool.eq_iff_iff]
    constructor
    · intro hw
      obtain ⟨j, hj⟩ := Option.isSome_iff_exists.mp hw
      obtain ⟨k, hk, -⟩ := hsome key j hj
      rw [hk]
      rfl
    · intro hm
      exact isSome_lookup.mpr (hwritten key (hkeys key (isSome_lookup.mp hm)))
  · intro key a b ha hb
    obtain ⟨k, hk, hagrees⟩ := hsome key a ha
    rw [hk] at hb
    obtain rfl := Option.some.inj hb
    exact hagrees

end Json

open Json

namespace Shape
variable {α : Type} {item : Of α} {Fits : α → Prop} {encode : α → Json}

/-- What a shape accepts has a property, and is written as the tree that was accepted. -/
def Reads (shape : Of α) (Fits : α → Prop) (encode : α → Json) : Prop :=
  ∀ t a, shape t = .ok a → Fits a ∧ ∃ j, t = some j ∧ (encode a).Agrees j

theorem reads_string : Reads string (fun _ => True) .string := by
  intro t s h
  exact ⟨trivial, _, string_eq_ok h, .refl _⟩

theorem reads_filled : Reads filled (· ≠ "") .string := by
  intro t s h
  unfold filled nonEmpty at h
  split at h
  · rename_i measured length hlength
    split at h
    · rename_i hamount
      obtain rfl := string_eq_ok h
      refine ⟨?_, _, rfl, .refl _⟩
      rintro rfl
      obtain ⟨-, rfl⟩ := Prod.mk.inj (Option.some.inj hlength)
      exact absurd hamount (by decide +kernel)
    · have hnone := congrArg Checked.toOption h
      rw [Checked.toOption_also] at hnone
      cases hnone
  · rename_i hlength
    obtain rfl := string_eq_ok h
    cases hlength

/-- The number of a safe integer is the one that it was read from. -/
theorem ofInt_of_toInt? {x : Binary64} {n : Int} (hx : x.toInt? = some n) :
    Json.ofInt n = .number x := by
  have hround : Binary64.ofInt? n = some x := by
    obtain ⟨value, hnearest, habs⟩ := x
    obtain rfl : value = n := Binary64.value_of_toInt? hx
    unfold Binary64.ofInt? Binary64.round?
    dsimp only
    simp only [hnearest, habs, and_self, dite_true]
  unfold Json.ofInt
  rw [hround]

theorem reads_int : Reads int (Binary64.isSafe · = true) .ofInt := by
  intro t n h
  have hsafe := isSafe_of_int h
  refine ⟨hsafe, ?_⟩
  unfold int at h
  split at h
  · rename_i x
    refine ⟨_, rfl, ?_⟩
    cases hx : x.toInt? with
    | none =>
      rw [hx] at h
      cases h
    | some m =>
      rw [hx] at h
      dsimp only at h
      split at h
      · obtain rfl := Checked.ok.inj h
        rw [ofInt_of_toInt? hx]
        exact .refl _
      · cases h
  · cases h

theorem Reads.list (h : Reads item Fits encode) :
    Reads (list item) (fun l => ∀ a ∈ l, Fits a) (fun l => .array (l.map encode)) := by
  intro t l hl
  obtain ⟨js, rfl, hitems⟩ := map_eq_of_list hl
  have hboth : (∀ a ∈ l, Fits a) ∧ List.Forall₂ Agrees (l.map encode) js := by
    clear hl
    induction js generalizing l with
    | nil =>
      obtain rfl : l = [] := List.map_eq_nil_iff.mp hitems.symm
      exact ⟨List.forall_mem_nil _, .nil⟩
    | cons j rest ih =>
      obtain ⟨a, others, rfl, ha, hothers⟩ := List.map_eq_cons_iff.mp hitems.symm
      obtain ⟨hfits, k, hk, hagrees⟩ := h _ _ ha.symm
      obtain rfl := Option.some.inj hk
      obtain ⟨hall, hrest⟩ := ih others hothers.symm
      exact ⟨List.forall_mem_cons.mpr ⟨hfits, hall⟩, .cons hagrees hrest⟩
  exact ⟨hboth.1, _, rfl, .array hboth.2⟩

theorem Reads.single (h : Reads item Fits encode) :
    Reads (single item) Fits (fun a => .array [encode a]) := by
  intro t a ha
  unfold Shape.single at ha
  split at ha
  · obtain ⟨hfits, k, hk, hagrees⟩ := h _ _ (Checked.under_eq_ok ha)
    obtain rfl := Option.some.inj hk
    exact ⟨hfits, _, rfl, .array (.cons hagrees .nil)⟩
  · cases ha
  · dsimp only at ha
    split at ha
    · split at ha <;> cases ha
    · cases ha

theorem Reads.nullable (h : Reads item Fits encode) :
    Reads (nullable item) (fun o => ∀ a ∈ o, Fits a) (fun o => (o.map encode).getD .null) := by
  intro t o ho
  unfold Shape.nullable at ho
  split at ho
  · obtain rfl := Checked.ok.inj ho
    exact ⟨nofun, _, rfl, .refl _⟩
  · obtain ⟨a, ha, rfl⟩ := Checked.map_eq_ok ho
    obtain ⟨hfits, hagrees⟩ := h _ _ ha
    refine ⟨?_, hagrees⟩
    intro b hb
    obtain rfl := Option.some.inj hb
    exact hfits

theorem Reads.member (h : Reads item Fits encode) {members : List (String × Json)} {key : String}
    {a : α} (ha : member members key item = .ok a) : Fits a ∧ MemberAgrees members key (encode a) :=
  h _ _ (Checked.under_eq_ok ha)

theorem choice_eq_ok {options : List (String × α)} {t : Option Json} {a : α}
    (h : choice options t = .ok a) : ∃ s, t = some (.string s) ∧ options.lookup s = some a := by
  unfold choice at h
  split at h
  · split at h
    · obtain rfl := Checked.ok.inj h
      exact ⟨_, rfl, ‹_›⟩
    · cases h
  · cases h

theorem constant_eq_ok {wanted : String} {t : Option Json} {u : Unit}
    (h : constant wanted t = .ok u) : t = some (.string wanted) := by
  unfold constant at h
  split at h
  · split at h
    · rename_i hwanted
      rw [hwanted]
    · cases h
  · cases h

theorem object_members {keys : List String} {fields : List (String × Json) → Checked α}
    {members : List (String × Json)} {a : α}
    (h : object keys fields (some (.object members)) = .ok a) :
    fields members = .ok a ∧ ∀ k ∈ members.map Prod.fst, k ∈ keys := by
  unfold object at h
  dsimp only at h
  split at h
  · rename_i hothers
    refine ⟨h, ?_⟩
    intro k hk
    have hcontains := List.filter_eq_nil_iff.mp hothers k hk
    simpa using hcontains
  · have hnone := congrArg Checked.toOption h
    rw [Checked.toOption_also] at hnone
    cases hnone

theorem object_eq_ok {keys : List String} {fields : List (String × Json) → Checked α}
    {t : Option Json} {a : α} (h : object keys fields t = .ok a) :
    ∃ members, t = some (.object members) ∧ fields members = .ok a ∧
      ∀ k ∈ members.map Prod.fst, k ∈ keys := by
  have hobject : ∃ members, t = some (.object members) := by
    unfold object at h
    split at h
    · exact ⟨_, rfl⟩
    · cases h
  obtain ⟨members, rfl⟩ := hobject
  exact ⟨members, rfl, object_members h⟩

theorem alternatives_eq_ok {options : List (Of α)} {t : Option Json} {a : α}
    (h : alternatives options t = .ok a) : ∃ shape ∈ options, shape t = .ok a := by
  unfold alternatives at h
  dsimp only at h
  split at h
  · rename_i b hfound
    obtain rfl := Checked.ok.inj h
    obtain ⟨c, hc, hb⟩ := List.exists_of_findSome?_eq_some hfound
    obtain ⟨shape, hshape, rfl⟩ := List.mem_map.mp hc
    exact ⟨shape, hshape, Checked.toOption_eq_some.mp hb⟩
  · split at h
    · rename_i c hc
      obtain ⟨hmem, -⟩ := List.mem_filter.mp (hc ▸ List.mem_singleton_self c)
      obtain ⟨shape, hshape, rfl⟩ := List.mem_map.mp hmem
      exact ⟨shape, hshape, h⟩
    · cases h

theorem tagged_eq_ok {options : List (String × Of α)} {t : Option Json} {a : α}
    (h : tagged options t = .ok a) : ∃ s shape members, (s, shape) ∈ options ∧
      t = some (.object members) ∧ members.lookup "type" = some (.string s) ∧
      shape (some (.object members)) = .ok a := by
  unfold tagged at h
  split at h
  · rename_i members
    dsimp only at h
    split at h
    · rename_i shape hchosen
      split at hchosen
      · rename_i s hs
        exact ⟨s, shape, members, mem_of_lookup hchosen, rfl, hs, h⟩
      · cases hchosen
    · cases h
  · cases h

end Shape

theorem Domain.schema_reads : Reads Domain.schema (fun _ => True) (fun d => .string d.name) := by
  intro t d h
  obtain ⟨s, rfl, hs⟩ := choice_eq_ok h
  refine ⟨trivial, _, rfl, ?_⟩
  obtain ⟨d', -, hd⟩ := List.mem_map.mp (mem_of_lookup hs)
  obtain ⟨rfl, rfl⟩ := Prod.mk.inj hd
  exact .refl _

theorem Reference.schema_reads : Reads Reference.schema Reference.Fits Reference.toJson := by
  intro t r h
  obtain ⟨ms, rfl, h, hkeys⟩ := object_eq_ok h
  obtain ⟨make, index, hmake, hindex, rfl⟩ := Checked.seq_eq_ok h
  obtain ⟨name, hname, rfl⟩ := Checked.map_eq_ok hmake
  obtain ⟨hname, hmember⟩ := Reads.member reads_filled hname
  obtain ⟨hindex, hmember'⟩ := Reads.member reads_int hindex
  exact ⟨⟨hname, hindex⟩, _, rfl, .of_members hkeys (by simp) ⟨hmember, hmember'⟩⟩

namespace Graph

/-- What produces no value has an empty output. -/
theorem noOutput_eq_ok {t : Option Json} {u : Unit} (h : noOutput t = .ok u) :
    ∃ j, t = some j ∧ (Json.object []).Agrees j := by
  obtain ⟨ms, rfl, -, hkeys⟩ := object_eq_ok h
  exact ⟨_, rfl, .of_members hkeys (by simp) trivial⟩

theorem memberAgrees_string {ms : List (String × Json)} {key s : String}
    (h : ms.lookup key = some (.string s)) : MemberAgrees ms key (.string s) :=
  ⟨_, h, .refl _⟩

theorem Source.schema_reads : Reads Source.schema Source.Fits Source.toJson := by
  intro t s h
  obtain ⟨ms, rfl, h, hkeys⟩ := object_eq_ok h
  obtain ⟨f, make, hf, hmake, rfl⟩ := Checked.seq_eq_ok h
  obtain ⟨name, hname, rfl⟩ := Checked.map_eq_ok hf
  obtain ⟨hname, hmember⟩ := Reads.member reads_filled hname
  obtain ⟨type, htype, hmake⟩ := choice_eq_ok (Checked.under_eq_ok hmake)
  have hmem := mem_of_lookup hmake
  simp only [List.mem_cons, List.not_mem_nil, or_false, Prod.mk.injEq] at hmem
  rcases hmem with ⟨rfl, rfl⟩ | ⟨rfl, rfl⟩
  · exact ⟨hname, _, rfl, .of_members hkeys (by simp) ⟨hmember, memberAgrees_string htype⟩⟩
  · exact ⟨hname, _, rfl, .of_members hkeys (by simp) ⟨hmember, memberAgrees_string htype⟩⟩

theorem Payload.schema_reads : Reads Payload.schema Payload.Fits Payload.toJson := by
  intro t p h
  obtain ⟨type, shape, ms, hshape, rfl, htype, h⟩ := tagged_eq_ok h
  simp only [List.mem_cons, List.not_mem_nil, or_false, Prod.mk.injEq] at hshape
  rcases hshape with ⟨rfl, rfl⟩ | ⟨rfl, rfl⟩ <;> obtain ⟨h, hkeys⟩ := object_members h
  · obtain ⟨f, line, hf, hline, rfl⟩ := Checked.seq_eq_ok h
    obtain ⟨name, hname, rfl⟩ := Checked.map_eq_ok hf
    obtain ⟨hname, hmember⟩ := Reads.member reads_filled hname
    obtain ⟨hline, hmember'⟩ := Reads.member (Reads.nullable reads_int) hline
    exact ⟨⟨hname, hline⟩, _, rfl,
      .of_members hkeys (by simp) ⟨memberAgrees_string htype, hmember, hmember'⟩⟩
  · obtain ⟨f, text, hf, htext, rfl⟩ := Checked.seq_eq_ok h
    obtain ⟨domain, hdomain, rfl⟩ := Checked.map_eq_ok hf
    obtain ⟨-, hmember⟩ := Reads.member Domain.schema_reads hdomain
    obtain ⟨-, hmember'⟩ := Reads.member reads_string htext
    exact ⟨trivial, _, rfl, .of_members hkeys (by simp) ⟨memberAgrees_string htype, hmember, hmember'⟩⟩

theorem Input.schema_reads : Reads Input.schema Input.Fits Input.toJson := by
  intro t i h
  obtain ⟨shape, hshape, h⟩ := alternatives_eq_ok h
  simp only [List.mem_cons, List.not_mem_nil, or_false] at hshape
  rcases hshape with rfl | rfl
  · obtain ⟨r, hr, rfl⟩ := Checked.map_eq_ok h
    exact Reference.schema_reads t r hr
  · obtain ⟨ms, rfl, h, hkeys⟩ := object_eq_ok h
    obtain ⟨f, u, hf, htype, rfl⟩ := Checked.seq_eq_ok h
    obtain ⟨name, hname, rfl⟩ := Checked.map_eq_ok hf
    obtain ⟨hname, hmember⟩ := Reads.member reads_filled hname
    have htype := constant_eq_ok (Checked.under_eq_ok htype)
    exact ⟨hname, _, rfl, .of_members hkeys (by simp) ⟨hmember, memberAgrees_string htype⟩⟩

theorem Record.schema_reads : Reads Record.schema Record.Fits Record.toJson := by
  intro t r h
  obtain ⟨shape, hshape, h⟩ := alternatives_eq_ok h
  simp only [List.mem_cons, List.not_mem_nil, or_false] at hshape
  rcases hshape with rfl | rfl | rfl <;> obtain ⟨ms, rfl, h, hkeys⟩ := object_eq_ok h
  · obtain ⟨f, input, hf, hinput, rfl⟩ := Checked.seq_eq_ok h
    obtain ⟨g, output, hg, houtput, rfl⟩ := Checked.seq_eq_ok hf
    obtain ⟨name, hname, rfl⟩ := Checked.map_eq_ok hg
    obtain ⟨hname, hmember⟩ := Reads.member reads_filled hname
    obtain ⟨houtput, hmember₁⟩ := Reads.member Reference.schema_reads houtput
    obtain ⟨hinput, hmember₂⟩ := Reads.member (Reads.list Input.schema_reads) hinput
    exact ⟨⟨hname, houtput, hinput⟩, _, rfl,
      .of_members hkeys (by simp) ⟨hmember, hmember₁, hmember₂⟩⟩
  · obtain ⟨f, input, hf, hinput, rfl⟩ := Checked.seq_eq_ok h
    obtain ⟨g, u, hg, houtput, rfl⟩ := Checked.seq_eq_ok hf
    obtain ⟨function, hname, rfl⟩ := Checked.map_eq_ok hg
    obtain ⟨hname, hmember⟩ := Reads.member reads_filled hname
    have hmember₁ := noOutput_eq_ok (Checked.under_eq_ok houtput)
    obtain ⟨hinput, hmember₂⟩ := Reads.member (Reads.list Reference.schema_reads) hinput
    exact ⟨⟨hname, hinput⟩, _, rfl, .of_members hkeys (by simp) ⟨hmember, hmember₁, hmember₂⟩⟩
  · obtain ⟨f, u, hf, houtput, rfl⟩ := Checked.seq_eq_ok h
    obtain ⟨g, inputs, hg, hinputs, rfl⟩ := Checked.seq_eq_ok hf
    obtain ⟨name, hname, rfl⟩ := Checked.map_eq_ok hg
    obtain ⟨hname, hmember⟩ := Reads.member reads_filled hname
    obtain ⟨hinputs, hmember₁⟩ := Reads.member (Reads.list reads_filled) hinputs
    have hmember₂ := noOutput_eq_ok (Checked.under_eq_ok houtput)
    exact ⟨⟨hname, hinputs⟩, _, rfl, .of_members hkeys (by simp) ⟨hmember, hmember₁, hmember₂⟩⟩

theorem Declaration.schema_reads : Reads Declaration.schema Declaration.Fits Declaration.toJson := by
  intro t d h
  obtain ⟨ms, rfl, h, hkeys⟩ := object_eq_ok h
  obtain ⟨f, domain, hf, hdomain, rfl⟩ := Checked.seq_eq_ok h
  obtain ⟨name, hname, rfl⟩ := Checked.map_eq_ok hf
  obtain ⟨hname, hmember⟩ := Reads.member reads_filled hname
  obtain ⟨-, hmember'⟩ := Reads.member Domain.schema_reads hdomain
  exact ⟨hname, _, rfl, .of_members hkeys (by simp) ⟨hmember, hmember'⟩⟩

theorem RangeBound.schema_reads : Reads RangeBound.schema RangeBound.Fits RangeBound.toJson := by
  intro t b h
  obtain ⟨shape, hshape, h⟩ := alternatives_eq_ok h
  simp only [List.mem_cons, List.not_mem_nil, or_false] at hshape
  rcases hshape with rfl | rfl
  · obtain ⟨n, hn, rfl⟩ := Checked.map_eq_ok h
    exact reads_int t n hn
  · obtain ⟨r, hr, rfl⟩ := Checked.map_eq_ok h
    exact Reference.schema_reads t r hr

theorem Range.schema_reads : Reads Range.schema Range.Fits Range.toJson := by
  intro t r h
  obtain ⟨ms, rfl, h, hkeys⟩ := object_eq_ok h
  obtain ⟨f, stop, hf, hstop, rfl⟩ := Checked.seq_eq_ok h
  obtain ⟨start, hstart, rfl⟩ := Checked.map_eq_ok hf
  obtain ⟨hstart, hmember⟩ := Reads.member RangeBound.schema_reads hstart
  obtain ⟨hstop, hmember'⟩ := Reads.member RangeBound.schema_reads hstop
  exact ⟨⟨hstart, hstop⟩, _, rfl, .of_members hkeys (by simp) ⟨hmember, hmember'⟩⟩

theorem Function.schema_reads : Reads Function.schema Function.Fits Function.toJson := by
  intro t g h
  obtain ⟨type, shape, ms, hshape, rfl, htype, h⟩ := tagged_eq_ok h
  simp only [List.mem_cons, List.not_mem_nil, or_false, Prod.mk.injEq] at hshape
  rcases hshape with ⟨rfl, rfl⟩ | ⟨rfl, rfl⟩ | ⟨rfl, rfl⟩ | ⟨rfl, rfl⟩ <;>
    obtain ⟨h, hkeys⟩ := object_members h <;> have htype := memberAgrees_string htype
  · obtain ⟨f₃, payload, h₃, hpayload, rfl⟩ := Checked.seq_eq_ok h
    obtain ⟨f₂, sources, h₂, hsources, rfl⟩ := Checked.seq_eq_ok h₃
    obtain ⟨f₁, target, h₁, htarget, rfl⟩ := Checked.seq_eq_ok h₂
    obtain ⟨name, hname, rfl⟩ := Checked.map_eq_ok h₁
    obtain ⟨hname, hmember₁⟩ := Reads.member reads_filled hname
    obtain ⟨htarget, hmember₂⟩ := Reads.member reads_filled htarget
    obtain ⟨hsources, hmember₃⟩ := Reads.member (Reads.list Source.schema_reads) hsources
    obtain ⟨hpayload, hmember₄⟩ := Reads.member (Reads.single Payload.schema_reads) hpayload
    exact ⟨⟨hname, htarget, hsources, hpayload⟩, _, rfl,
      .of_members hkeys (by simp) ⟨hmember₁, htype, hmember₂, hmember₃, hmember₄⟩⟩
  · obtain ⟨f₂, sources, h₂, hsources, rfl⟩ := Checked.seq_eq_ok h
    obtain ⟨f₁, target, h₁, htarget, rfl⟩ := Checked.seq_eq_ok h₂
    obtain ⟨name, hname, rfl⟩ := Checked.map_eq_ok h₁
    obtain ⟨hname, hmember₁⟩ := Reads.member reads_filled hname
    obtain ⟨htarget, hmember₂⟩ := Reads.member reads_filled htarget
    obtain ⟨hsources, hmember₃⟩ := Reads.member (Reads.list Source.schema_reads) hsources
    exact ⟨⟨hname, htarget, hsources⟩, _, rfl,
      .of_members hkeys (by simp) ⟨hmember₁, htype, hmember₂, hmember₃⟩⟩
  · obtain ⟨f₃, body, h₃, hbody, rfl⟩ := Checked.seq_eq_ok h
    obtain ⟨f₂, vars, h₂, hvars, rfl⟩ := Checked.seq_eq_ok h₃
    obtain ⟨f₁, input, h₁, hinput, rfl⟩ := Checked.seq_eq_ok h₂
    obtain ⟨name, hname, rfl⟩ := Checked.map_eq_ok h₁
    obtain ⟨hname, hmember₁⟩ := Reads.member reads_filled hname
    obtain ⟨hinput, hmember₂⟩ := Reads.member (Reads.list Declaration.schema_reads) hinput
    obtain ⟨hvars, hmember₃⟩ := Reads.member (Reads.list Declaration.schema_reads) hvars
    obtain ⟨hbody, hmember₄⟩ := Reads.member (Reads.list Record.schema_reads) hbody
    exact ⟨⟨hname, hinput, hvars, hbody⟩, _, rfl,
      .of_members hkeys (by simp) ⟨hmember₁, htype, hmember₂, hmember₃, hmember₄⟩⟩
  · obtain ⟨f₄, body, h₄, hbody, rfl⟩ := Checked.seq_eq_ok h
    obtain ⟨f₃, range, h₃, hrange, rfl⟩ := Checked.seq_eq_ok h₄
    obtain ⟨f₂, index, h₂, hindex, rfl⟩ := Checked.seq_eq_ok h₃
    obtain ⟨f₁, input, h₁, hinput, rfl⟩ := Checked.seq_eq_ok h₂
    obtain ⟨name, hname, rfl⟩ := Checked.map_eq_ok h₁
    obtain ⟨hname, hmember₁⟩ := Reads.member reads_filled hname
    obtain ⟨hinput, hmember₂⟩ := Reads.member (Reads.list reads_filled) hinput
    obtain ⟨hindex, hmember₃⟩ := Reads.member reads_filled hindex
    obtain ⟨hrange, hmember₄⟩ := Reads.member Range.schema_reads hrange
    obtain ⟨hbody, hmember₅⟩ := Reads.member (Reads.list Record.schema_reads) hbody
    exact ⟨⟨hname, hinput, hindex, hrange, hbody⟩, _, rfl,
      .of_members hkeys (by simp) ⟨hmember₁, htype, hmember₂, hmember₃, hmember₄, hmember₅⟩⟩

theorem reads_date : Reads date (isDate · = true) .string := by
  intro t s h
  unfold date at h
  split at h
  · rename_i s' hs
    split at h
    · obtain rfl := Checked.ok.inj h
      exact ⟨‹_›, _, string_eq_ok hs, .refl _⟩
    · cases h
  · rename_i hstring
    exact absurd h (hstring s)

/-- A document that is accepted fits, and is written as the tree that it was read from. -/
theorem Document.schema_reads : Reads Document.schema Document.Fits Document.toJson := by
  intro t d h
  obtain ⟨ms, rfl, h, hkeys⟩ := object_eq_ok h
  obtain ⟨f₄, body, h₄, hbody, rfl⟩ := Checked.seq_eq_ok h
  obtain ⟨f₃, functions, h₃, hfunctions, rfl⟩ := Checked.seq_eq_ok h₄
  obtain ⟨f₂, dateCreated, h₂, hdate, rfl⟩ := Checked.seq_eq_ok h₃
  obtain ⟨f₁, name, h₁, hname, rfl⟩ := Checked.seq_eq_ok h₂
  obtain ⟨start, hstart, rfl⟩ := Checked.map_eq_ok h₁
  obtain ⟨-, hmember₁⟩ := Reads.member reads_string hstart
  obtain ⟨hname, hmember₂⟩ := Reads.member reads_filled hname
  obtain ⟨hdate, hmember₃⟩ := Reads.member reads_date hdate
  obtain ⟨hfunctions, hmember₄⟩ := Reads.member (Reads.list Function.schema_reads) hfunctions
  obtain ⟨hbody, hmember₅⟩ := Reads.member (Reads.list Record.schema_reads) hbody
  exact ⟨⟨hname, hdate, hfunctions, hbody⟩, _, rfl,
    .of_members hkeys (by simp) ⟨hmember₁, hmember₂, hmember₃, hmember₄, hmember₅⟩⟩

end Graph
end ProgramGraph
