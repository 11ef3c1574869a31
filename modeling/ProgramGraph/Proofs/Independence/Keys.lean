import ProgramGraph.Proofs.Made

/-! Counters of generated names. A function whose name holds no two underscores in a row shares none
of its counters with another such function. -/
namespace ProgramGraph

/-- No two underscores stand next to each other. -/
def IsPlainName (name : String) : Prop := ¬['_', '_'] <:+: name.toList

instance (name : String) : Decidable (IsPlainName name) := by
  unfold IsPlainName
  infer_instance

/-- What stands between the name of a function and that of a variable in the key of a counter. -/
def keyRoles : List String := "__lambda__" :: roles

/-- The counters that lowering uses inside a function. -/
inductive Owns (owner : String) : String → Prop
  | conditions : Owns owner (owner ++ "#condition")
  | part {role : String} (hrole : role ∈ keyRoles) (x : String) : Owns owner (owner ++ role ++ x)

theorem infix_of_cons {a b : Char} {as m xs ys : List Char}
    (h : '_' :: '_' :: xs = (a :: b :: m) ++ ys) : ['_', '_'] <:+: as ++ a :: b :: m := by
  simp only [List.cons_append, List.cons.injEq] at h
  obtain ⟨rfl, rfl, -⟩ := h
  exact ⟨as, m, by simp⟩

/-- Two underscores end a text that holds no two in a row, if no third one follows them. -/
theorem plain_append_unique {as bs cs ds : List Char} {c d : Char} (has : ¬['_', '_'] <:+: as)
    (hbs : ¬['_', '_'] <:+: bs) (hc : c ≠ '_') (hd : d ≠ '_')
    (h : as ++ '_' :: '_' :: c :: cs = bs ++ '_' :: '_' :: d :: ds) : as = bs := by
  -- The longer text would go on with an underscore, and then with another one or with `c` or `d`.
  have hlonger : ∀ {as bs cs ds : List Char} {c : Char} (m : List Char), ¬['_', '_'] <:+: bs →
      c ≠ '_' → bs = as ++ m → '_' :: '_' :: c :: cs = m ++ '_' :: '_' :: ds → m = [] := by
    intro as bs cs ds c m hbs hc hm h
    match m with
    | [] => rfl
    | [_] =>
      obtain ⟨-, h⟩ := List.cons.inj (List.cons.inj h).2
      exact absurd (List.cons.inj h).1 hc
    | _ :: _ :: m => exact absurd (hm ▸ infix_of_cons h) hbs
  rcases List.append_eq_append_iff.mp h with ⟨m, hm, h⟩ | ⟨m, hm, h⟩
  · rw [hm, hlonger m hbs hc hm h, List.append_nil]
  · rw [hm, hlonger m has hd hm h, List.append_nil]

/-- The counter of the conditions is no counter of a part. -/
theorem conditions_ne_part {as bs cs : List Char} {c : Char} (has : ¬['_', '_'] <:+: as) :
    as ++ "#condition".toList ≠ bs ++ '_' :: '_' :: c :: cs := by
  intro h
  rcases List.append_eq_append_iff.mp h with ⟨m, -, h⟩ | ⟨m, hm, h⟩
  · have hunderscore : '_' ∈ "#condition".toList := by
      rw [h]
      simp
    exact absurd hunderscore (by decide)
  · match m with
    | [] => exact absurd h (by simp)
    | [_] => exact absurd h (by simp)
    | _ :: _ :: m => exact has (hm ▸ infix_of_cons h)

/-- A role starts with two underscores and no third one. -/
theorem exists_toList_role {role : String} (h : role ∈ keyRoles) :
    ∃ c cs, role.toList = '_' :: '_' :: c :: cs ∧ c ≠ '_' := by
  simp only [keyRoles, roles, List.mem_cons, List.not_mem_nil, or_false] at h
  rcases h with rfl | rfl | rfl | rfl | rfl <;> exact ⟨_, _, rfl, by decide⟩

/-- A counter shows which function it belongs to. -/
theorem Owns.unique {owner owner' key : String} (h : Owns owner key) (h' : Owns owner' key)
    (howner : IsPlainName owner) (howner' : IsPlainName owner') : owner = owner' := by
  have hkey : ∀ {role : String}, role ∈ keyRoles → ∀ owner x : String,
      ∃ c cs, (owner ++ role ++ x).toList = owner.toList ++ '_' :: '_' :: c :: cs ∧ c ≠ '_' := by
    intro role hrole owner x
    obtain ⟨c, cs, hc, hne⟩ := exists_toList_role hrole
    exact ⟨c, cs ++ x.toList, by simp [hc], hne⟩
  generalize hk : key = key' at h'
  cases h with
  | conditions =>
    cases h' with
    | conditions =>
      have happend := congrArg String.toList hk
      simp only [String.toList_append, List.append_left_inj] at happend
      exact String.toList_inj.mp happend
    | part hrole x =>
      obtain ⟨c, cs, hc, -⟩ := hkey hrole owner' x
      have happend := congrArg String.toList hk
      rw [hc, String.toList_append] at happend
      exact absurd happend (conditions_ne_part howner)
  | part hrole x =>
    obtain ⟨c, cs, hc, hne⟩ := hkey hrole owner x
    cases h' with
    | conditions =>
      have happend := congrArg String.toList hk
      rw [hc, String.toList_append] at happend
      exact absurd happend.symm (conditions_ne_part howner')
    | part hrole' x' =>
      obtain ⟨c', cs', hc', hne'⟩ := hkey hrole' owner' x'
      have happend := congrArg String.toList hk
      rw [hc, hc'] at happend
      exact String.toList_inj.mp (plain_append_unique howner howner' hne hne' happend)

end ProgramGraph
