import ProgramGraph.Proofs.Supply.Operands

/-! What operands show, and where: a place is the path to it, and places come in the order in which
an expression is read. The flattening of operands lists what they show in that order. -/
namespace ProgramGraph

open ProgramGraph.Graph

/-- What is listed is what is shown at places, in the order of these. -/
def Listed {α : Type} (shows : List Nat → α → Prop) (l : List α) : Prop :=
  ∃ places : List (List Nat × α), places.map Prod.snd = l ∧
    places.Pairwise (fun a b => a.1 < b.1) ∧ ∀ p a, (p, a) ∈ places ↔ shows p a

/-- What the members of a list show, each behind its index. -/
def AtIndex {α β : Type} (shows : α → List Nat → β → Prop) (l : List α) : List Nat → β → Prop
  | [], _ => False
  | k :: p, b => ∃ a, l[k]? = some a ∧ shows a p b

theorem atIndex_iff {α β : Type} {shows : α → List Nat → β → Prop} {l : List α} {p : List Nat}
    {b : β} : AtIndex shows l p b ↔ ∃ k q a, p = k :: q ∧ l[k]? = some a ∧ shows a q b := by
  cases p <;> simp [AtIndex]

namespace Listed
section
variable {α β : Type} {shows : List Nat → α → Prop} {l : List α}

theorem congr {shows' : List Nat → α → Prop} (h : Listed shows l)
    (hiff : ∀ p a, shows p a ↔ shows' p a) : Listed shows' l := by
  obtain ⟨places, hl, hlt, hmem⟩ := h
  exact ⟨places, hl, hlt, fun p a => (hmem p a).trans (hiff p a)⟩

theorem nil (h : ∀ p a, ¬shows p a) : Listed shows [] :=
  ⟨[], rfl, .nil, fun p a => ⟨nofun, fun ha => (h p a ha).elim⟩⟩

theorem atIndex_nil (shows : α → List Nat → β → Prop) : Listed (AtIndex shows []) [] := by
  refine nil fun p b h => ?_
  obtain ⟨k, q, a, -, ha, -⟩ := atIndex_iff.mp h
  simp at ha

theorem single (a : α) : Listed (fun p b => p = [] ∧ b = a) [a] :=
  ⟨[([], a)], rfl, List.pairwise_singleton _ _, fun p b => by simp⟩

/-- Places may be moved as long as they keep their order. -/
theorem move (f : List Nat → List Nat) (h : Listed shows l)
    (hf : ∀ p a q b, shows p a → shows q b → p < q → f p < f q) :
    Listed (fun q a => ∃ p, f p = q ∧ shows p a) l := by
  obtain ⟨places, hl, hlt, hmem⟩ := h
  refine ⟨places.map fun o => (f o.1, o.2), ?_, ?_, fun q a => ?_⟩
  · rw [List.map_map, ← hl]
    rfl
  · refine List.pairwise_map.mpr (hlt.imp_of_mem fun {o o'} ho ho' h => ?_)
    exact hf _ _ _ _ ((hmem _ _).mp ho) ((hmem _ _).mp ho') h
  · simp only [List.mem_map, Prod.exists, Prod.mk.injEq, ← hmem]
    exact ⟨fun ⟨p, _, hp, hq, ha⟩ => ⟨p, hq, ha ▸ hp⟩, fun ⟨p, hq, hp⟩ => ⟨p, a, hp, hq, rfl⟩⟩

theorem append {shows' : List Nat → α → Prop} {m : List α} (h : Listed shows l)
    (h' : Listed shows' m) (hlt : ∀ p a q b, shows p a → shows' q b → p < q) :
    Listed (fun p a => shows p a ∨ shows' p a) (l ++ m) := by
  obtain ⟨first, hl, hfirst, hmem⟩ := h
  obtain ⟨others, hm, hothers, hmem'⟩ := h'
  refine ⟨first ++ others, by rw [List.map_append, hl, hm],
    List.pairwise_append.mpr ⟨hfirst, hothers, fun o ho o' ho' => ?_⟩, fun p a => ?_⟩
  · exact hlt _ _ _ _ ((hmem _ _).mp ho) ((hmem' _ _).mp ho')
  · rw [List.mem_append, hmem, hmem']

/-- What a node shows comes before what is shown below it. -/
theorem root (a : α) (h : Listed shows l) (hne : ∀ b, ¬shows [] b) :
    Listed (fun p b => p = [] ∧ b = a ∨ shows p b) (a :: l) := by
  refine (single a).append h fun p _ q b hp hq => ?_
  cases q with
  | nil => exact absurd hq (hne b)
  | cons k q =>
    rw [hp.1]
    exact List.nil_lt_cons k q

/-- The places of a list: those of its first member, then those of the others one further. -/
theorem cons {shows : α → List Nat → β → Prop} {a : α} {rest : List α} {l m : List β}
    (ha : Listed (shows a) l) (hrest : Listed (AtIndex shows rest) m) :
    Listed (AtIndex shows (a :: rest)) (l ++ m) := by
  have hindexed : ∀ {p b}, AtIndex shows rest p b → ∃ k q, p = k :: q := fun hp => by
    obtain ⟨k, q, a, hp, -⟩ := atIndex_iff.mp hp
    exact ⟨k, q, hp⟩
  have hfirst := ha.move (0 :: ·) fun p _ q _ _ _ h => List.cons_lt_cons_self.mpr h
  have hothers := hrest.move (·.modifyHead (· + 1)) fun p _ q _ hp hq h => by
    obtain ⟨j, p, rfl⟩ := hindexed hp
    obtain ⟨k, q, rfl⟩ := hindexed hq
    rw [List.cons_lt_cons_iff] at h
    rw [List.modifyHead_cons, List.modifyHead_cons, List.cons_lt_cons_iff]
    exact h.imp Nat.succ_lt_succ fun ⟨hk, hp⟩ => ⟨congrArg _ hk, hp⟩
  refine (hfirst.append hothers ?_).congr fun p b => ?_
  · rintro _ _ _ _ ⟨p, rfl, -⟩ ⟨q, rfl, hq⟩
    obtain ⟨k, q, rfl⟩ := hindexed hq
    exact List.cons_lt_cons_iff.mpr (.inl k.succ_pos)
  · constructor
    · rintro (⟨q, rfl, hq⟩ | ⟨q, rfl, hq⟩)
      · exact ⟨a, rfl, hq⟩
      · obtain ⟨k, q, rfl⟩ := hindexed hq
        exact hq
    · intro hp
      obtain ⟨k, q, c, rfl, hc, hq⟩ := atIndex_iff.mp hp
      cases k with
      | zero => exact .inl ⟨q, rfl, Option.some.inj hc ▸ hq⟩
      | succ k => exact .inr ⟨k :: q, rfl, c, hc, hq⟩

theorem map (f : α → β) (h : Listed shows l) :
    Listed (fun p b => ∃ a, f a = b ∧ shows p a) (l.map f) := by
  obtain ⟨places, hl, hlt, hmem⟩ := h
  refine ⟨places.map fun o => (o.1, f o.2), ?_, List.pairwise_map.mpr hlt, fun p b => ?_⟩
  · rw [List.map_map, ← hl, List.map_map]
    rfl
  · simp only [List.mem_map, Prod.exists, Prod.mk.injEq, ← hmem]
    exact ⟨fun ⟨_, a, ha, hp, hb⟩ => ⟨a, hb, hp ▸ ha⟩, fun ⟨a, hb, ha⟩ => ⟨p, a, ha, rfl, hb⟩⟩

theorem mem_iff (h : Listed shows l) (a : α) : a ∈ l ↔ ∃ p, shows p a := by
  obtain ⟨places, rfl, -, hmem⟩ := h
  simp only [List.mem_map, Prod.exists, exists_eq_right, hmem]

/-- Where repetitions are dropped, each member stands for the first of its places. -/
theorem pairwise_distinct [DecidableEq α] (h : Listed shows l) :
    (distinct l).Pairwise fun a b => ∃ p, shows p a ∧ ∀ q, shows q b → p < q := by
  obtain ⟨places, rfl, hlt, hmem⟩ := h
  simp only [← hmem]
  clear hmem
  induction places with
  | nil => exact .nil
  | cons place rest ih =>
    obtain ⟨p, c⟩ := place
    obtain ⟨hp, hlt⟩ := List.pairwise_cons.mp hlt
    -- A place of a member other than `c` is not the first one.
    have hrest : ∀ q b, b ≠ c → (q, b) ∈ (p, c) :: rest → (q, b) ∈ rest := fun q b hb hq =>
      (List.mem_cons.mp hq).resolve_left fun he => hb (Prod.mk.inj he).2
    have hne : ∀ b ∈ (distinct (rest.map Prod.snd)).filter (· ≠ c), b ≠ c := fun b hb => by
      simpa using (List.mem_filter.mp hb).2
    rw [List.map_cons, distinct, List.pairwise_cons]
    constructor
    · intro b hb
      exact ⟨p, List.mem_cons_self, fun q hq => hp (q, b) (hrest q b (hne b hb) hq)⟩
    · refine ((ih hlt).filter _).imp_of_mem fun {a b} _ hb hfirst => ?_
      obtain ⟨q, hq, hbefore⟩ := hfirst
      exact ⟨q, List.mem_cons_of_mem _ hq, fun q' hq' => hbefore q' (hrest q' b (hne b hb) hq')⟩

end
end Listed

namespace Operand

/-- What an operand shows, with its place: a callee before its arguments, and a literal nothing. -/
inductive ShowsAt : Operand → List Nat → Input → Prop
  | ref (r : Reference) : ShowsAt (.ref r) [] (.ref r)
  | callee (callee : String) (arguments : List (List Operand)) :
      ShowsAt (.call callee arguments) [] (.function callee)
  | argument {callee : String} {arguments : List (List Operand)} {j k : Nat} {os : List Operand}
      {o : Operand} {p : List Nat} {i : Input} (hos : arguments[j]? = some os)
      (ho : os[k]? = some o) (h : o.ShowsAt p i) : ShowsAt (.call callee arguments) (j :: k :: p) i

/-- What a statement shows, with its place: the carried versions come before the operands. -/
inductive ExposesAt (operands : List Operand) (carried : List Reference) : List Nat → Input → Prop
  | carried {k : Nat} {r : Reference} (h : carried[k]? = some r) :
      ExposesAt operands carried [0, k] (.ref r)
  | operand {k : Nat} {o : Operand} {p : List Nat} {i : Input} (ho : operands[k]? = some o)
      (h : o.ShowsAt p i) : ExposesAt operands carried (1 :: k :: p) i

theorem showsAt_call {callee : String} {arguments : List (List Operand)} {p : List Nat}
    {i : Input} : (p = [] ∧ i = .function callee ∨ AtIndex (AtIndex ShowsAt) arguments p i) ↔
      ShowsAt (.call callee arguments) p i := by
  constructor
  · rintro (⟨rfl, rfl⟩ | h)
    · exact .callee callee arguments
    · obtain ⟨j, q, os, rfl, hos, h⟩ := atIndex_iff.mp h
      obtain ⟨k, q, o, rfl, ho, h⟩ := atIndex_iff.mp h
      exact .argument hos ho h
  · intro h
    cases h with
    | callee => exact .inl ⟨rfl, rfl⟩
    | argument hos ho h => exact .inr ⟨_, hos, _, ho, h⟩

mutual

theorem listed_leaves : (o : Operand) → Listed o.ShowsAt o.leaves
  | literal _ => .nil fun _ _ h => nomatch h
  | ref r => by
    have hnone : Listed (fun (_ : List Nat) (_ : Input) => False) [] := .nil fun _ _ h => h
    refine (hnone.root (.ref r) fun _ h => h).congr fun p i => ?_
    constructor
    · rintro (⟨rfl, rfl⟩ | h)
      · exact .ref r
      · exact h.elim
    · rintro ⟨⟩
      exact .inl ⟨rfl, rfl⟩
  | call callee arguments => by
    have harguments := listed_leavesOfArguments arguments
    exact (harguments.root (.function callee) fun _ h => h).congr fun _ _ => showsAt_call

theorem listed_leavesOf : (os : List Operand) → Listed (AtIndex ShowsAt os) (leavesOf os)
  | [] => .atIndex_nil _
  | o :: rest => (listed_leaves o).cons (listed_leavesOf rest)

theorem listed_leavesOfArguments : (arguments : List (List Operand)) →
    Listed (AtIndex (AtIndex ShowsAt) arguments) (leavesOfArguments arguments)
  | [] => .atIndex_nil _
  | os :: rest => (listed_leavesOf os).cons (listed_leavesOfArguments rest)

end

/-- The carried versions and the operands are shown as the arguments of a call would be. -/
theorem listed_exposed (operands : List Operand) (carried : List Reference) :
    Listed (ExposesAt operands carried) (exposed operands carried) := by
  have hcarried : leavesOf (carried.map ref) = carried.map Input.ref := by
    induction carried with
    | nil => rfl
    | cons r rest ih =>
      rw [List.map_cons, leavesOf, ih, leaves, List.map_cons, List.singleton_append]
  have h := listed_leavesOfArguments [carried.map ref, operands]
  rw [leavesOfArguments, leavesOfArguments, leavesOfArguments, List.append_nil, hcarried] at h
  refine h.congr fun p i => ⟨fun hi => ?_, fun hi => ?_⟩
  · obtain ⟨j, q, os, rfl, hos, h⟩ := atIndex_iff.mp hi
    obtain ⟨k, q, o, rfl, ho, h⟩ := atIndex_iff.mp h
    cases j with
    | zero =>
      rw [← Option.some.inj hos, List.getElem?_map, Option.map_eq_some_iff] at ho
      obtain ⟨r, hr, rfl⟩ := ho
      cases h
      exact .carried hr
    | succ j =>
      cases j with
      | zero =>
        rw [← Option.some.inj hos] at ho
        exact .operand ho h
      | succ j => simp at hos
  · cases hi with
    | carried h => exact ⟨_, rfl, ref _, by rw [List.getElem?_map, h, Option.map_some], .ref _⟩
    | operand ho h => exact ⟨_, rfl, _, ho, h⟩

end Operand
end ProgramGraph
