import Mathlib.Data.List.Forall2
import ProgramGraph.Proofs.Registry

/-! Calls on one registry, in any order and with any texts: what it hands out for a key are the
numbers from 0 on, no name comes twice, and a name is free to claim once. -/
namespace ProgramGraph.Registry

/-- A call on a registry. -/
inductive Call where
  | next (base : String)
  | take (key : String)
  | claim (name : String)
deriving DecidableEq

inductive Answer where
  | name (text : String)
  | value (n : Nat)
  | claimed (isNew : Bool)
deriving DecidableEq

namespace Call

/-- Whether a call counts for a key. -/
def draws (key : String) : Call → Bool
  | next base => base = key
  | take key' => key' = key
  | claim _ => false

def claims (name : String) : Call → Bool
  | claim name' => name' = name
  | _ => false

theorem eq_claim {c : Call} {name : String} (h : c.claims name = true) : c = .claim name := by
  cases c with
  | claim name' => rw [of_decide_eq_true h]
  | _ => cases h

end Call

namespace Answer

def name? : Answer → Option String
  | name text => some text
  | _ => none

/-- A number is handed out for a key as it is or behind the key. -/
def Carries (key : String) (n : Nat) : Answer → Prop
  | name text => text = nameOf key n
  | value m => m = n
  | claimed _ => False

end Answer

def call (r : Registry) : Call → Answer × Registry
  | .next base => let (name, r) := r.next base; (.name name, r)
  | .take key => let (n, r) := r.take key; (.value n, r)
  | .claim name =>
    match r.claim? name with
    | some r => (.claimed true, r)
    | none => (.claimed false, r)

/-- The answers to calls in order. -/
def answers (r : Registry) : List Call → List Answer
  | [] => []
  | c :: calls => (r.call c).1 :: (r.call c).2.answers calls

/-- The registry behind calls. -/
def after (r : Registry) (calls : List Call) : Registry := calls.foldl (fun r c => (r.call c).2) r

/-- The answers to some of the calls. -/
def answersTo (r : Registry) (p : Call → Bool) (calls : List Call) : List Answer :=
  ((calls.zip (r.answers calls)).filter fun entry => p entry.1).map Prod.snd

section
variable (r : Registry) (c : Call) (calls : List Call)

theorem answersTo_cons_of_pos {p : Call → Bool} (h : p c = true) :
    r.answersTo p (c :: calls) = (r.call c).1 :: (r.call c).2.answersTo p calls := by
  simp [answersTo, answers, h]

theorem answersTo_cons_of_neg {p : Call → Bool} (h : p c = false) :
    r.answersTo p (c :: calls) = (r.call c).2.answersTo p calls := by
  simp [answersTo, answers, h]

/-- The names of a call are new. -/
theorem generated_call : Generated r (r.call c).1.name?.toList (r.call c).2 := by
  cases c with
  | next base => exact Generated.next r base
  | take key => exact .nil (before_take r key)
  | claim name =>
    unfold call
    dsimp only
    cases hclaim : r.claim? name with
    | none => exact .nil (Before.refl r)
    | some r' => exact .nil (before_claim? hclaim)

theorem generated_answers :
    Generated r ((r.answers calls).filterMap Answer.name?) (r.after calls) := by
  induction calls generalizing r with
  | nil => exact .nil (Before.refl r)
  | cons c calls ih =>
    have hnames : (r.answers (c :: calls)).filterMap Answer.name? =
        (r.call c).1.name?.toList ++ ((r.call c).2.answers calls).filterMap Answer.name? := by
      rw [answers, List.filterMap_cons]
      cases (r.call c).1.name? <;> rfl
    rw [hnames]
    exact (generated_call r c).append (ih _)

/-- A call counts for its own key. -/
theorem count_call (key : String) :
    (r.call c).2.count key = r.count key + if c.draws key then 1 else 0 := by
  cases c with
  | next base =>
    change (r.next base).2.count key = _
    rw [count_next]
    by_cases h : key = base
    · subst h
      simp [Call.draws]
    · simp [Call.draws, h, Ne.symm h]
  | take key' =>
    change (r.take key').2.count key = _
    rw [count_take]
    by_cases h : key = key'
    · subst h
      simp [Call.draws]
    · simp [Call.draws, h, Ne.symm h]
  | claim name =>
    unfold call
    dsimp only
    cases hclaim : r.claim? name with
    | none => rfl
    | some r' =>
      obtain ⟨-, rfl⟩ := claim?_eq_some hclaim
      rfl

theorem carries_call {key : String} (h : c.draws key = true) :
    (r.call c).1.Carries key (r.count key) := by
  cases c with
  | next base =>
    obtain rfl : base = key := by simpa [Call.draws] using h
    exact next_fst r base
  | take key' =>
    obtain rfl : key' = key := by simpa [Call.draws] using h
    rfl
  | claim name => cases h

/-- The calls that count for a key are answered with the numbers that follow. -/
theorem carries_answers (key : String) :
    List.Forall₂ (Answer.Carries key) (List.range' (r.count key) (calls.countP (Call.draws key)))
      (r.answersTo (Call.draws key) calls) := by
  induction calls generalizing r with
  | nil => exact .nil
  | cons c calls ih =>
    have hrest := ih (r.call c).2
    cases h : c.draws key with
    | true =>
      rw [count_call, h, if_pos rfl] at hrest
      rw [List.countP_cons_of_pos h, List.range'_succ, answersTo_cons_of_pos _ _ _ h]
      exact .cons (carries_call r c h) hrest
    | false =>
      rw [count_call, h] at hrest
      rw [List.countP_cons_of_neg (by simp [h]), answersTo_cons_of_neg _ _ _ h]
      exact hrest

theorem call_claim_of_mem {name : String} (h : name ∈ r.claimed) :
    r.call (.claim name) = (.claimed false, r) := by
  have hclaim : r.claim? name = none := if_pos (List.contains_iff_mem.mpr h)
  rw [call, hclaim]

theorem call_claim_of_not_mem {name : String} (h : name ∉ r.claimed) :
    r.call (.claim name) = (.claimed true, { r with claimed := name :: r.claimed }) := by
  have hclaim : r.claim? name = some { r with claimed := name :: r.claimed } :=
    if_neg fun hc => h (List.contains_iff_mem.mp hc)
  rw [call, hclaim]

/-- Other calls neither take a name nor give it back. -/
theorem mem_claimed_call {name : String} (h : c.claims name = false) :
    name ∈ (r.call c).2.claimed ↔ name ∈ r.claimed := by
  cases c with
  | next base => exact Iff.rfl
  | take key => exact Iff.rfl
  | claim name' =>
    have hne : name ≠ name' := fun he => by simp [Call.claims, he] at h
    by_cases hmem : name' ∈ r.claimed
    · rw [call_claim_of_mem r hmem]
    · rw [call_claim_of_not_mem r hmem, List.mem_cons, or_iff_right hne]

theorem claims_of_mem {name : String} (h : name ∈ r.claimed) :
    r.answersTo (Call.claims name) calls =
      List.replicate (calls.countP (Call.claims name)) (.claimed false) := by
  induction calls generalizing r with
  | nil => rfl
  | cons c calls ih =>
    cases hc : c.claims name with
    | true =>
      obtain rfl := Call.eq_claim hc
      rw [List.countP_cons_of_pos hc, List.replicate_succ, answersTo_cons_of_pos _ _ _ hc,
        call_claim_of_mem r h, ih r h]
    | false =>
      rw [List.countP_cons_of_neg (by simp [hc]), answersTo_cons_of_neg _ _ _ hc]
      exact ih _ ((mem_claimed_call r c hc).mpr h)

theorem claims_of_not_mem {name : String} (h : name ∉ r.claimed) :
    r.answersTo (Call.claims name) calls =
      (List.range (calls.countP (Call.claims name))).map fun i => .claimed (i = 0) := by
  induction calls generalizing r with
  | nil => rfl
  | cons c calls ih =>
    cases hc : c.claims name with
    | true =>
      obtain rfl := Call.eq_claim hc
      have hlater : (fun i => Answer.claimed (i = 0)) ∘ Nat.succ = fun _ => .claimed false :=
        funext fun i => congrArg Answer.claimed (decide_eq_false (Nat.succ_ne_zero i))
      rw [List.countP_cons_of_pos hc, answersTo_cons_of_pos _ _ _ hc, call_claim_of_not_mem r h,
        claims_of_mem _ _ List.mem_cons_self, List.range_succ_eq_map, List.map_cons, List.map_map,
        hlater, List.map_const', List.length_range]
      rfl
    | false =>
      rw [List.countP_cons_of_neg (by simp [hc]), answersTo_cons_of_neg _ _ _ hc]
      exact ih _ fun hmem => h ((mem_claimed_call r c hc).mp hmem)

end

/-- Whatever is called on a new registry, with whatever texts: the names that it returns are pairwise
different, what it hands out for a key is 0, 1, 2 and so on in the order of the calls, and a name
can be claimed the first time only. -/
theorem names_never_repeat (calls : List Call) :
    ((answers .empty calls).filterMap Answer.name?).Nodup ∧
      (∀ key, List.Forall₂ (Answer.Carries key) (List.range (calls.countP (Call.draws key)))
        (answersTo .empty (Call.draws key) calls)) ∧
      ∀ name, answersTo .empty (Call.claims name) calls =
        (List.range (calls.countP (Call.claims name))).map fun i => .claimed (i = 0) := by
  refine ⟨(generated_answers .empty calls).nodup, fun key => ?_, fun name =>
    claims_of_not_mem .empty calls List.not_mem_nil⟩
  rw [List.range_eq_range']
  exact carries_answers .empty calls key

/-- A name may itself be a base, and then has numbers of its own. -/
example : answers .empty
      [.next "b", .take "b", .next "b", .next "b_2", .claim "b", .claim "b"] =
    [.name "b_0", .value 1, .name "b_2", .name "b_2_0", .claimed true, .claimed false] := by
  decide

end ProgramGraph.Registry
