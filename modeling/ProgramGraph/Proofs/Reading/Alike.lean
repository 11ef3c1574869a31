import ProgramGraph.Proofs.Reading.Modern
import ProgramGraph.Proofs.Reading.RoundTrip

/-! Runs that agree, and the members of a node below which the nodes have their newer forms. -/
namespace ProgramGraph

open Shape

/-- Two runs that both fail, or whose results are related. -/
inductive Reading.Alike {α β : Type} (R : α → β → Prop) : Result α → Result β → Prop
  | ok {a : α} {b : β} (h : R a b) : Alike R (.ok a) (.ok b)
  | error (e e' : Malformed) : Alike R (.error e) (.error e')

/-- A tree and its newer form. -/
def Json.Renewed (r : Role) (j j' : Json) : Prop :=
  j.hasModern Wanted.line.fits r = true ∧ j' = j.modern r

namespace Reading
variable {α β γ δ : Type} {R : α → β → Prop} {S : γ → δ → Prop} {j j' : Json} {r s : Role}
  {type key : String} {place place' : Place}

theorem Alike.bind {m : Result α} {m' : Result β} {f : α → Result γ} {f' : β → Result δ}
    (h : Alike R m m') (hf : ∀ a b, m = .ok a → m' = .ok b → R a b → Alike S (f a) (f' b)) :
    Alike S (m >>= f) (m' >>= f') := by
  cases h with
  | ok h => exact hf _ _ rfl rfl h
  | error => exact .error _ _

theorem Alike.pure (a : α) : Alike Eq (Pure.pure a) (Pure.pure a) := .ok rfl

theorem Alike.of_ok {m m' : Result α} {a : α} (h : m = .ok a) (h' : m' = .ok a) :
    Alike Eq m m' := by
  rw [h, h']
  exact .ok rfl

theorem Alike.settle (c : Checked α) (place place' : Place) :
    Alike Eq (settle place c) (settle place' c) := by
  match c with
  | .ok a => exact .ok rfl
  | .failed [] => exact .error _ _
  | .failed (_ :: _) => exact .error _ _

theorem Alike.failed (is is' : List Issue) :
    Alike R (Reading.settle place (.failed is)) (Reading.settle place' (.failed is')) := by
  cases is <;> cases is' <;> exact .error _ _

theorem Alike.ok_iff {m m' : Result α} (h : Alike Eq m m') (a : α) : m = .ok a ↔ m' = .ok a := by
  cases h with
  | ok h => rw [h]
  | error => exact ⟨nofun, nofun⟩

theorem Alike.mapM {as : List α} {bs : List β} {f : α → Result γ} {f' : β → Result γ}
    (h : List.Forall₂ R as bs) (hf : ∀ a b, R a b → Alike Eq (f a) (f' b)) :
    Alike Eq (as.mapM f) (bs.mapM f') := by
  induction h with
  | nil => exact .ok rfl
  | cons hab _ ih =>
    rw [List.mapM_cons, List.mapM_cons]
    refine .bind (hf _ _ hab) fun c _ _ _ hc => ?_
    refine .bind ih fun cs _ _ _ hcs => ?_
    rw [hc, hcs]
    exact .pure _

/-- Items that are read alike one by one are read alike together. -/
theorem Alike.each {as : List α} {bs : List β} {read : α → Place → Result γ}
    {read' : β → Place → Result γ} (h : List.Forall₂ R as bs)
    (hread : ∀ a b, R a b → ∀ p p', Alike Eq (read a p) (read' b p')) :
    Alike Eq (each place as read) (each place' bs read') := by
  have hzip : ∀ i, List.Forall₂ (fun x y => R x.1 y.1) (as.zipIdx i) (bs.zipIdx i) := by
    induction h with
    | nil => exact fun _ => .nil
    | cons hab _ ih => exact fun i => .cons hab (ih (i + 1))
  exact .mapM (hzip 0) fun x y hxy => hread x.1 y.1 hxy _ _

theorem alike_field {shape : Of α} (h : j'.member? key = j.member? key) :
    Alike Eq (field j place key shape) (field j' place' key shape) := by
  rw [field, field, h]
  exact .settle _ _ _

theorem exists_required_error (h : j.member? key = none) (place : Place) :
    ∃ e, required j place key = .error e := by
  rw [← map_member?, Option.map_eq_none_iff] at h
  rw [required, h]
  exact ⟨_, rfl⟩

theorem exists_list_error (h : ∀ vs, j.member? key ≠ some (.array vs)) (place : Place) :
    ∃ e, list j place key = .error e := by
  cases hlist : list j place key with
  | ok ps => exact absurd (list_eq_ok hlist) (h _)
  | error e => exact ⟨e, rfl⟩

theorem alike_header {g : String → String} (htype : j'.nodeType? = j.nodeType?.map g)
    (hline : j'.member? "lineno" = j.member? "lineno") :
    Alike (fun h h' => h' = ⟨g h.type, h.line⟩) (settle place (header (some j)))
      (settle place' (header (some j'))) := by
  cases hh : header (some j) with
  | ok h =>
    have hok := header_eq_ok_iff.mp hh
    have hh' : header (some j') = .ok ⟨g h.type, h.line⟩ := by
      rw [header_eq_ok_iff, htype, hline, hok.1]
      exact ⟨rfl, hok.2⟩
    rw [hh']
    exact .ok rfl
  | failed is =>
    cases hh' : header (some j') with
    | ok h' =>
      have hok := header_eq_ok_iff.mp hh'
      rw [htype, hline] at hok
      obtain ⟨type, ht, -⟩ := Option.map_eq_some_iff.mp hok.1
      have : header (some j) = .ok ⟨type, h'.line⟩ := header_eq_ok_iff.mpr ⟨ht, hok.2⟩
      rw [this] at hh
      cases hh
    | failed is' => exact .failed is is'

end Reading

/-- A node with members in given slots, and the node with their newer forms. -/
structure Json.Renewal (slots : List (String × Slot)) (j j' : Json) : Prop where
  member : ∀ key, j'.member? key =
    (j.member? key).map (inSlot modernNode (slots.lookup key))
  modern : ∀ key v, j.member? key = some v →
    everyInSlot (hasModernForm Wanted.line.fits) (slots.lookup key) v = true

namespace Json.Renewal
open Reading
variable {α : Type} {slots : List (String × Slot)} {j j' : Json} {r s : Role} {key : String}
  {place place' : ProgramGraph.Place}

theorem mapBelow (h : j.hasModern Wanted.line.fits r = true) :
    Renewal (r.slots (j.nodeType?.getD "")) j (j.mapBelow modernNode r) :=
  ⟨fun _ => member?_mapBelow, fun _ _ hv => everyInSlot_of_everyNode h hv⟩

theorem required (h : Renewal slots j j') (hkey : slots.lookup key = some (.node s)) :
    Alike (fun p p' => Renewed s p.1 p'.1) (required j place key) (required j' place' key) := by
  have hmember := h.member key
  cases hv : j.member? key with
  | none =>
    rw [hv] at hmember
    obtain ⟨e, he⟩ := exists_required_error hv place
    obtain ⟨e', he'⟩ := exists_required_error hmember place'
    rw [he, he']
    exact .error e e'
  | some v =>
    have hmodern := h.modern key v hv
    rw [hkey] at hmodern
    rw [hv, hkey] at hmember
    obtain ⟨p, hp, rfl⟩ : ∃ p : Part j, Reading.required j place key = .ok p ∧ p.1 = v :=
      exists_required (P := (· = v)) ⟨v, hv, rfl⟩
    obtain ⟨p', hp', hrenewed⟩ :
        ∃ p' : Part j', Reading.required j' place' key = .ok p' ∧ p'.1 = p.1.modern s :=
      exists_required (P := (· = p.1.modern s)) ⟨_, hmember, rfl⟩
    rw [hp, hp']
    exact .ok ⟨hmodern, hrenewed⟩

theorem list (h : Renewal slots j j') (hkey : slots.lookup key = some (.nodes s)) :
    Alike (List.Forall₂ fun p p' => Renewed s p.1 p'.1) (list j place key)
      (list j' place' key) := by
  have hmember := h.member key
  rw [hkey] at hmember
  by_cases harray : ∃ vs, j.member? key = some (.array vs)
  · obtain ⟨vs, hvs⟩ := harray
    have hmodern := h.modern key _ hvs
    rw [hkey, everyInSlot, everyItem, everyOne_eq, List.all_eq_true] at hmodern
    rw [hvs, Option.map_some, inSlot, mapItems, mapEach_eq] at hmember
    obtain ⟨ps, hps, rfl⟩ :
        ∃ ps : List (Part j), Reading.list j place key = .ok ps ∧ ps.map Subtype.val = vs :=
      exists_list (P := (· = vs)) ⟨vs, hvs, rfl⟩
    obtain ⟨ps', hps', hrenewed⟩ : ∃ ps' : List (Part j'), Reading.list j' place' key = .ok ps' ∧
        ps'.map Subtype.val = (ps.map Subtype.val).map (·.modern s) :=
      exists_list (P := (· = (ps.map Subtype.val).map (·.modern s))) ⟨_, hmember, rfl⟩
    rw [hps, hps']
    have hmodern' : ∀ p ∈ ps, p.1.hasModern Wanted.line.fits s = true :=
      fun p hp => hmodern _ (List.mem_map_of_mem hp)
    refine .ok ((List.forall₂_and_left _ _).mpr ⟨hmodern', ?_⟩)
    have heq : List.Forall₂ (fun v v' => v' = v.modern s) (ps.map Subtype.val)
        (ps'.map Subtype.val) := by
      rw [hrenewed]
      exact List.forall₂_map_right_iff.mpr (List.forall₂_same.mpr fun _ _ => rfl)
    rwa [List.forall₂_map_left_iff, List.forall₂_map_right_iff] at heq
  · have hnot : ∀ vs, j.member? key ≠ some (.array vs) := fun vs hvs => harray ⟨vs, hvs⟩
    have hnot' : ∀ vs, j'.member? key ≠ some (.array vs) := by
      intro vs hvs
      rw [hmember] at hvs
      cases hv : j.member? key with
      | none =>
        rw [hv] at hvs
        cases hvs
      | some v =>
        rw [hv] at hvs
        cases v with
        | array vs => exact hnot vs hv
        | _ => cases hvs
    obtain ⟨e, he⟩ := exists_list_error hnot place
    obtain ⟨e', he'⟩ := exists_list_error hnot' place'
    rw [he, he']
    exact .error e e'

theorem member_eq (h : Renewal slots j j')
    (hkey : ∀ v, inSlot modernNode (slots.lookup key) v = v) :
    j'.member? key = j.member? key := by
  rw [h.member key]
  cases j.member? key with
  | none => rfl
  | some v => exact congrArg some (hkey v)

theorem field {w : Wanted} {shape : Of α} (h : Renewal slots j j')
    (hkey : slots.lookup key = some (.plain w)) :
    Alike Eq (field j place key shape) (field j' place' key shape) := by
  refine alike_field (h.member_eq fun v => ?_)
  rw [hkey]
  rfl

theorem access (h : Renewal slots j j') (hkey : slots.lookup "ctx" = none) :
    access (j'.member? "ctx") = access (j.member? "ctx") := by
  refine congrArg _ (h.member_eq fun v => ?_)
  rw [hkey]
  rfl

theorem operator (h : Renewal slots j j') (hkey : slots.lookup "op" = some (.node .operator)) :
    Alike Eq (Reading.field j place "op" header) (Reading.field j' place' "op" header) := by
  refine alike_field (h.member_eq fun v => ?_)
  rw [hkey]
  exact mapNodes_operator v

theorem operators (h : Renewal slots j j') (hkey : slots.lookup "ops" = some (.nodes .operator)) :
    Alike Eq (Reading.field j place "ops" (Shape.list header))
      (Reading.field j' place' "ops" (Shape.list header)) := by
  refine alike_field (h.member_eq fun v => ?_)
  rw [hkey]
  exact mapItems_eq_self mapNodes_operator v

theorem keywords (h : Renewal slots j j')
    (hkey : slots.lookup "keywords" = some (.optionalNodes .keyword)) :
    Alike Eq (Reading.field j place "keywords" (Shape.optional (Shape.list Reading.keyword)))
      (Reading.field j' place' "keywords" (Shape.optional (Shape.list Reading.keyword))) := by
  refine alike_field (h.member_eq fun v => ?_)
  rw [hkey]
  exact mapItems_eq_self mapNodes_keyword v

theorem present? (h : Renewal slots j j')
    (hkey : slots.lookup key = some (.optional .expression)) :
    Option.Rel (fun p p' => Renewed .expression p.1 p'.1) (present? j key) (present? j' key) := by
  have hmember := h.member key
  rw [hkey] at hmember
  by_cases hhas : j.has key = true
  · unfold has at hhas
    split at hhas
    · cases hhas
    · cases hhas
    · rename_i v hnull hv
      have hmodern := h.modern key _ hv
      rw [hkey] at hmodern
      rw [hv] at hmember
      have hne : v ≠ .null := hnull
      obtain ⟨p, hp, rfl⟩ := exists_present?_of_ne_null hv hne
      obtain ⟨p', hp', hrenewed⟩ :=
        exists_present?_of_ne_null hmember (modern_expression_ne_null hne)
      rw [hp, hp']
      exact .some ⟨hmodern, hrenewed⟩
  · have hhas' : j'.has key = false := by
      unfold has at hhas ⊢
      rw [hmember]
      cases hv : j.member? key with
      | none => rfl
      | some v =>
        cases v with
        | null => rfl
        | _ =>
          rw [hv] at hhas
          exact absurd rfl hhas
    rw [present?_eq_none (Bool.eq_false_iff.mpr hhas), present?_eq_none hhas']
    exact .none

end Json.Renewal

end ProgramGraph
