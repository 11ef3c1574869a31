import Mathlib.Data.List.Perm.Basic
import ProgramGraph.Proofs.Independence.Blocks
import ProgramGraph.Proofs.Naming

/-! The order of the definitions of a program decides nothing but the order of what they become. -/
namespace ProgramGraph

open ProgramGraph.Graph Lowering Registry

/-- A program of one statement at top level, lowered. -/
def Stmt.alone (t : Stmt) : Except Fault Assembly := ({} : Assembly).add t

namespace Stmt

/-- What a statement at top level adds to any program that takes it in. -/
def share (t : Stmt) : Assembly := t.alone.toOption.getD {}

/-- The functions that a statement at top level becomes. -/
def functions (t : Stmt) : List Function := t.share.fragment.functions

/-- The texts of the lambdas of these functions. -/
def lambdas (t : Stmt) : List String := t.share.registry.sink

/-- The names that no other statement can claim. -/
def names (t : Stmt) : List String := t.share.registry.claimed

theorem share_of_ok {t : Stmt} {p : Assembly} (h : t.alone = .ok p) : t.share = p := by
  rw [share, h]
  rfl

/-- All functions that a definition defines have names without two underscores in a row. -/
def IsPlain (t : Stmt) : Prop := t.isDefinition = true → ∀ k ∈ t.signatures, IsPlainName k.1

/-- Statements at top level that can all be taken in, behind others that claimed some names. -/
structure Compatible (taken : List String) (ts : List Stmt) : Prop where
  alone : ∀ t ∈ ts, ∃ p, t.alone = .ok p
  distinct : ts.Pairwise fun t u => ∀ x ∈ t.names, x ∉ u.names
  free : ∀ t ∈ ts, ∀ x ∈ t.names, x ∉ taken

end Stmt

namespace Assembly
variable {a a' : Assembly} {t : Stmt}

/-- What a program becomes when it takes in a statement. -/
structure TakesIn (a : Assembly) (t : Stmt) (a' : Assembly) : Prop where
  beside : Beside a.registry t.share.registry a'.registry
  functions : a'.fragment.functions = a.fragment.functions ++ t.functions
  start : a'.start = (a.start <|> t.share.start)

/-- A statement is taken in if it stands alone and claims no name that is taken, and then adds the
same as it does alone. -/
def Decides (a : Assembly) (t : Stmt) : Prop :=
  (∃ p a', t.alone = .ok p ∧ a.add t = .ok a' ∧ TakesIn a t a') ∨
    ∃ f, a.add t = .error f ∧
      ((∃ f', t.alone = .error f') ∨ ∃ x ∈ t.names, x ∈ a.registry.claimed)

/-- A definition is lowered at top level, and what it becomes is put behind the rest. -/
theorem add_functionDef (a : Assembly) (name : String) (parameters : List Parameter)
    (body : List Stmt) (line : Option Int) :
    a.add (.functionDef name parameters body line) =
      (functionDef name parameters line (Stmt.lowerBlock body) ⟨.top, a.registry⟩).map fun p =>
        { a with registry := p.2.registry, fragment := a.fragment ++ p.1 } := by
  unfold add
  rw [Stmt.lower]
  cases functionDef name parameters line (Stmt.lowerBlock body) ⟨.top, a.registry⟩ <;> rfl

theorem decides_definition {name : String} {parameters : List Parameter} {body : List Stmt}
    {line : Option Int} (ha : a.registry.Tidy)
    (ht : ∀ k ∈ (Stmt.functionDef name parameters body line).signatures, IsPlainName k.1) :
    a.Decides (.functionDef name parameters body line) := by
  obtain ⟨hname, hbody⟩ := List.forall_mem_cons.mp ht
  have hagree := agree_functionDef parameters line
    (Stmt.parallel_lowerBlock body hbody name) hname (s := .top) (.empty ha)
  have halone := add_functionDef {} name parameters body line
  have hadd := add_functionDef a name parameters body line
  change Stmt.alone (.functionDef name parameters body line) = _ at halone
  generalize functionDef name parameters line (Stmt.lowerBlock body) ⟨.top, .empty⟩ = x
    at hagree halone
  generalize functionDef name parameters line (Stmt.lowerBlock body) ⟨.top, a.registry⟩ = y
    at hagree hadd
  cases hagree with
  | @ok f s own joint hbeside =>
    have hshare := Stmt.share_of_ok halone
    refine .inl ⟨_, _, halone, hadd, ⟨?_, ?_, ?_⟩⟩
    · rw [hshare]
      exact hbeside
    · rw [Stmt.functions, hshare]
      rfl
    · rw [hshare]
      cases a.start <;> rfl
  | error => exact .inr ⟨_, hadd, .inl ⟨_, halone⟩⟩
  | @taken f s fault x hx hbase =>
    refine .inr ⟨_, hadd, .inr ⟨x, ?_, hbase⟩⟩
    rw [Stmt.names, Stmt.share_of_ok halone]
    exact hx

theorem recordCall_eq (a : Assembly) (callee : String) :
    ∃ log, a.recordCall callee = { a with start := a.start <|> some callee, log := log } := by
  unfold recordCall
  split
  · rename_i h
    exact ⟨a.log, by simp [h]⟩
  · rename_i h
    exact ⟨_, by simp only [note, h]; rfl⟩

/-- Other statements are refused by every program, or leave at most a start. -/
theorem add_other (ht : t.isDefinition = false) :
    (∃ f, ∀ a : Assembly, a.add t = .error f) ∨
      ∃ callee, ∀ a : Assembly, ∃ log,
        a.add t = .ok { a with start := a.start <|> callee, log := log } := by
  have hnote : (∀ a : Assembly, ∃ message, a.add t = .ok (a.note message)) →
      ∀ a : Assembly, ∃ log, a.add t = .ok { a with start := a.start <|> none, log := log } := by
    intro h a
    obtain ⟨message, hmessage⟩ := h a
    exact ⟨a.log ++ [message], by simp [hmessage, note]⟩
  cases t with
  | functionDef => cases ht
  | expr value line =>
    cases value with
    | call func args keywords own =>
      have hadd : ∀ a : Assembly, a.add (.expr (.call func args keywords own) line) =
          (func.callee line >>= fun callee => pure (a.recordCall callee)) := fun _ => rfl
      cases hcallee : func.callee line with
      | error f =>
        refine .inl ⟨f, fun a => ?_⟩
        rw [hadd, hcallee]
        rfl
      | ok callee =>
        refine .inr ⟨some callee, fun a => ?_⟩
        obtain ⟨log, hlog⟩ := a.recordCall_eq callee
        refine ⟨log, ?_⟩
        rw [hadd, hcallee, ← hlog]
        rfl
    | _ => exact .inr ⟨none, hnote fun a => ⟨_, rfl⟩⟩
  | _ => exact .inr ⟨none, hnote fun a => ⟨_, rfl⟩⟩

theorem decides_other (ha : a.registry.Tidy) (ht : t.isDefinition = false) : a.Decides t := by
  rcases add_other ht with ⟨f, hadd⟩ | ⟨callee, hadd⟩
  · exact .inr ⟨f, hadd a, .inl ⟨f, hadd {}⟩⟩
  · obtain ⟨log, halone⟩ := hadd {}
    obtain ⟨log', hadd⟩ := hadd a
    have hshare := Stmt.share_of_ok halone
    refine .inl ⟨_, _, halone, hadd, ⟨?_, ?_, ?_⟩⟩
    · rw [hshare]
      exact .empty ha
    · rw [Stmt.functions, hshare]
      exact (List.append_nil _).symm
    · rw [hshare]
      rfl

theorem decides (ha : a.registry.Tidy) (ht : t.IsPlain) : a.Decides t := by
  cases hd : t.isDefinition with
  | false => exact decides_other ha hd
  | true =>
    cases t with
    | functionDef => exact decides_definition ha (ht rfl)
    | _ => cases hd

/-- Statements are taken in if each stands alone and no two of them claim the same name. -/
theorem addAll_iff {ts : List Stmt} (ha : a.registry.Tidy) (hts : ∀ t ∈ ts, t.IsPlain) :
    (∃ a', a.addAll ts = (a', none)) ↔ Stmt.Compatible a.registry.claimed ts := by
  induction ts generalizing a with
  | nil =>
    constructor
    · exact fun _ => ⟨nofun, .nil, nofun⟩
    · exact fun _ => ⟨a, rfl⟩
  | cons t ts ih =>
    obtain ⟨ht, hts⟩ := List.forall_mem_cons.mp hts
    rcases decides ha ht with ⟨p, a₁, halone, hadd, htakes⟩ | ⟨f, hadd, hrefused⟩
    · have hrun : a.addAll (t :: ts) = a₁.addAll ts := by simp only [addAll, hadd]
      have hclaimed : ∀ x, x ∈ a₁.registry.claimed ↔ x ∈ t.names ∨ x ∈ a.registry.claimed :=
        htakes.beside.claimed
      rw [hrun, ih htakes.beside.joint_tidy hts]
      constructor
      · intro h
        refine ⟨List.forall_mem_cons.mpr ⟨⟨p, halone⟩, h.alone⟩, ?_, ?_⟩
        · refine List.pairwise_cons.mpr ⟨fun u hu x hx hxu => ?_, h.distinct⟩
          exact h.free u hu x hxu ((hclaimed x).mpr (.inl hx))
        · refine List.forall_mem_cons.mpr ⟨htakes.beside.disjoint, fun u hu x hx hxa => ?_⟩
          exact h.free u hu x hx ((hclaimed x).mpr (.inr hxa))
      · intro h
        obtain ⟨hfirst, hdistinct⟩ := List.pairwise_cons.mp h.distinct
        refine ⟨(List.forall_mem_cons.mp h.alone).2, hdistinct, fun u hu x hx hxa => ?_⟩
        rcases (hclaimed x).mp hxa with hxt | hxa
        · exact hfirst u hu x hxt hx
        · exact h.free u (List.mem_cons_of_mem _ hu) x hx hxa
    · have hrun : a.addAll (t :: ts) = (a, some f) := by simp only [addAll, hadd]
      rw [hrun]
      constructor
      · rintro ⟨a', h⟩
        cases (Prod.mk.inj h).2
      · intro h
        rcases hrefused with ⟨f', halone⟩ | ⟨x, hx, hxa⟩
        · obtain ⟨p, hp⟩ := h.alone t List.mem_cons_self
          rw [halone] at hp
          cases hp
        · exact absurd hxa (h.free t List.mem_cons_self x hx)

/-- What a program becomes: the shares of its statements, one after another. -/
theorem addAll_eq {ts : List Stmt} (ha : a.registry.Tidy) (hts : ∀ t ∈ ts, t.IsPlain)
    (h : a.addAll ts = (a', none)) :
    a'.fragment.functions = a.fragment.functions ++ ts.flatMap Stmt.functions ∧
      a'.registry.sink = a.registry.sink ++ ts.flatMap Stmt.lambdas ∧
      a'.start = (a.start <|> ts.findSome? fun t => t.share.start) := by
  induction ts generalizing a with
  | nil =>
    obtain ⟨rfl, -⟩ := Prod.mk.inj h
    simp
  | cons t ts ih =>
    obtain ⟨ht, hts⟩ := List.forall_mem_cons.mp hts
    rcases decides ha ht with ⟨p, a₁, -, hadd, htakes⟩ | ⟨f, hadd, -⟩
    · have hrun : a₁.addAll ts = (a', none) := by
        simpa only [addAll, hadd] using h
      obtain ⟨hfunctions, hsink, hstart⟩ := ih htakes.beside.joint_tidy hts hrun
      refine ⟨?_, ?_, ?_⟩
      · rw [hfunctions, htakes.functions, List.flatMap_cons, List.append_assoc]
      · rw [hsink, htakes.beside.sink, List.flatMap_cons, List.append_assoc]
        rfl
      · rw [hstart, htakes.start, List.findSome?_cons]
        cases a.start with
        | some => rfl
        | none =>
          cases t.share.start <;> rfl
    · have hrun : a.addAll (t :: ts) = (a, some f) := by simp only [addAll, hadd]
      rw [hrun] at h
      cases (Prod.mk.inj h).2

end Assembly

namespace Stmt

theorem Compatible.perm {taken : List String} {ts us : List Stmt} (h : Compatible taken ts)
    (hperm : ts.Perm us) : Compatible taken us where
  alone t ht := h.alone t (hperm.mem_iff.mpr ht)
  distinct := by
    refine (hperm.pairwise_iff ?_).mp h.distinct
    exact fun {t u} htu x hxu hxt => htu x hxt hxu
  free t ht := h.free t (hperm.mem_iff.mpr ht)

/-- Statements other than definitions become nothing, and definitions are no start. -/
theorem share_of_not_isDefinition {t : Stmt} (h : t.isDefinition = false) :
    t.functions = [] ∧ t.lambdas = [] := by
  unfold functions lambdas
  rcases Assembly.add_other h with ⟨f, hadd⟩ | ⟨callee, hadd⟩
  · have hshare : t.share = {} := by
      rw [share, alone, hadd]
      rfl
    rw [hshare]
    exact ⟨rfl, rfl⟩
  · obtain ⟨log, halone⟩ := hadd {}
    rw [share_of_ok halone]
    exact ⟨rfl, rfl⟩

theorem start_of_isDefinition {t : Stmt} (h : t.isDefinition = true) : t.share.start = none := by
  cases t with
  | functionDef name parameters body line =>
    rw [share, alone, Assembly.add_functionDef]
    cases Lowering.functionDef name parameters line (lowerBlock body) ⟨.top, .empty⟩ <;> rfl
  | _ => cases h

end Stmt

theorem flatMap_filter {α β : Type} {p : α → Bool} {f : α → List β} {l : List α}
    (h : ∀ a, p a = false → f a = []) : (l.filter p).flatMap f = l.flatMap f := by
  induction l with
  | nil => rfl
  | cons a l ih =>
    cases hp : p a with
    | true => rw [List.filter_cons_of_pos hp, List.flatMap_cons, List.flatMap_cons, ih]
    | false => rw [List.filter_cons_of_neg (by simp [hp]), List.flatMap_cons, h a hp, ih]; rfl

theorem findSome?_filter {α β : Type} {p : α → Bool} {f : α → Option β} {l : List α}
    (h : ∀ a, p a = false → f a = none) : (l.filter p).findSome? f = l.findSome? f := by
  induction l with
  | nil => rfl
  | cons a l ih =>
    cases hp : p a with
    | true => rw [List.filter_cons_of_pos hp, List.findSome?_cons, List.findSome?_cons, ih]
    | false => rw [List.filter_cons_of_neg (by simp [hp]), List.findSome?_cons, h a hp, ih]

/-- The statements at top level that define no function. -/
def Module.others (ms : List Module) : List Stmt :=
  (Module.topLevel ms).filter (!·.isDefinition)

/-- What the definitions of a program decide, apart from their order. -/
structure Module.Reordered (ms ms' : List Module) : Prop where
  definitions : (Module.definitions ms).Perm (Module.definitions ms')
  others : Module.others ms = Module.others ms'

namespace Module
variable {ms ms' : List Module}

theorem Reordered.perm (h : Reordered ms ms') :
    (Module.topLevel ms).Perm (Module.topLevel ms') := by
  have hsplit := List.filter_append_perm Stmt.isDefinition (Module.topLevel ms)
  have hsplit' := List.filter_append_perm Stmt.isDefinition (Module.topLevel ms')
  have hothers : (Module.topLevel ms).filter (!·.isDefinition) =
      (Module.topLevel ms').filter (!·.isDefinition) := h.others
  refine hsplit.symm.trans (List.Perm.trans ?_ hsplit')
  rw [hothers]
  exact h.definitions.append_right _

theorem isPlain_of_signatures (h : ∀ k ∈ Stmt.signaturesIn (Module.definitions ms),
    IsPlainName k.1) : ∀ t ∈ Module.topLevel ms, t.IsPlain := by
  intro t ht hd k hk
  have hmem : t ∈ Module.definitions ms := List.mem_filter.mpr ⟨ht, hd⟩
  exact h k (Stmt.mem_signaturesIn hmem hk)

end Module

namespace Outcome
variable {ms ms' : List Module} {name date : String}

/-- A program is lowered if its statements stand alone and claim different names. -/
theorem ok_iff (h : ∀ t ∈ Module.topLevel ms, t.IsPlain) :
    (∃ lowered, (ofModules ms name date).result = .ok lowered) ↔
      Stmt.Compatible [] (Module.topLevel ms) := by
  refine Iff.trans ?_ (Assembly.addAll_iff (a := {}) tidy_empty h)
  rw [ofModules_eq]
  constructor
  · rintro ⟨lowered, hl⟩
    split at hl
    · cases hl
    · rename_i a ha
      exact ⟨a, ha⟩
  · rintro ⟨a, ha⟩
    rw [ha]
    exact ⟨_, rfl⟩

/-- The document and the lambdas, share by share. -/
theorem shares_of_ok (h : ∀ t ∈ Module.topLevel ms, t.IsPlain) {lowered : Lowered}
    (hok : (ofModules ms name date).result = .ok lowered) :
    lowered.document.functions = (Module.definitions ms).flatMap Stmt.functions ∧
      lowered.lambdas = (Module.definitions ms).flatMap Stmt.lambdas ∧
      lowered.document.start = ((Module.others ms).findSome? fun t => t.share.start).getD "" := by
  rw [ofModules_eq] at hok
  split at hok
  · cases hok
  · rename_i a ha
    obtain rfl := Except.ok.inj hok
    obtain ⟨hfunctions, hsink, hstart⟩ := Assembly.addAll_eq (a := {}) tidy_empty h ha
    refine ⟨?_, ?_, ?_⟩
    · change a.fragment.functions = _
      rw [hfunctions, Module.definitions,
        flatMap_filter fun t ht => (Stmt.share_of_not_isDefinition ht).1]
      rfl
    · change a.registry.sink = _
      rw [hsink, Module.definitions,
        flatMap_filter fun t ht => (Stmt.share_of_not_isDefinition ht).2]
      rfl
    · change a.start.getD "" = _
      rw [hstart, Module.others, findSome?_filter fun t ht =>
        Stmt.start_of_isDefinition (by simpa using ht)]
      rfl

/-- Definitions can stand in any order: the program is lowered or refused all the same, starts at
the same function, and each definition becomes the same functions and lambdas. -/
theorem definitions_reordered (h : Module.Reordered ms ms')
    (hplain : ∀ k ∈ Stmt.signaturesIn (Module.definitions ms), IsPlainName k.1)
    (name date : String) :
    ((∃ lowered, (ofModules ms name date).result = .ok lowered) ↔
        ∃ lowered, (ofModules ms' name date).result = .ok lowered) ∧
      ∀ lowered lowered', (ofModules ms name date).result = .ok lowered →
        (ofModules ms' name date).result = .ok lowered' →
        lowered.document.start = lowered'.document.start ∧
        lowered.document.functions = (Module.definitions ms).flatMap Stmt.functions ∧
        lowered'.document.functions = (Module.definitions ms').flatMap Stmt.functions ∧
        lowered.lambdas = (Module.definitions ms).flatMap Stmt.lambdas ∧
        lowered'.lambdas = (Module.definitions ms').flatMap Stmt.lambdas := by
  have hms := Module.isPlain_of_signatures hplain
  have hms' : ∀ t ∈ Module.topLevel ms', t.IsPlain := fun t ht =>
    hms t (h.perm.mem_iff.mpr ht)
  constructor
  · rw [ok_iff hms, ok_iff hms']
    exact ⟨fun hc => hc.perm h.perm, fun hc => hc.perm h.perm.symm⟩
  · intro lowered lowered' hok hok'
    obtain ⟨hfunctions, hlambdas, hstart⟩ := shares_of_ok hms hok
    obtain ⟨hfunctions', hlambdas', hstart'⟩ := shares_of_ok hms' hok'
    refine ⟨?_, hfunctions, hfunctions', hlambdas, hlambdas'⟩
    rw [hstart, hstart', h.others]

theorem definitions_reordered_sample :
    let call : Module := ⟨[.expr (.call (.name "f" .load none) [] [] none) none]⟩
    let ms := Module.twoFunctions "f" "g" ++ [call]
    let ms' := call :: Module.twoFunctions "g" "f"
    ∃ lowered lowered', (ofModules ms "m" "2020-01-01").result = .ok lowered ∧
      (ofModules ms' "m" "2020-01-01").result = .ok lowered' ∧
      lowered.document.start = lowered'.document.start ∧
      lowered.document.functions = (Module.definitions ms).flatMap Stmt.functions ∧
      lowered'.document.functions = (Module.definitions ms').flatMap Stmt.functions := by
  intro call ms ms'
  have hok : (ofModules ms "m" "2020-01-01").result.toOption.any (fun _ => true) = true := by
    decide +kernel
  obtain ⟨lowered, h, -⟩ := except_exists_ok_of_any hok
  have hreordered : Module.Reordered ms ms' := ⟨List.Perm.swap _ _ [], rfl⟩
  have hcommute := definitions_reordered hreordered (by decide +kernel) "m" "2020-01-01"
  obtain ⟨lowered', h'⟩ := hcommute.1.mp ⟨lowered, h⟩
  obtain ⟨hstart, hfunctions, hfunctions', -, -⟩ := hcommute.2 lowered lowered' h h'
  exact ⟨lowered, lowered', h, h', hstart, hfunctions, hfunctions'⟩

end Outcome
end ProgramGraph
