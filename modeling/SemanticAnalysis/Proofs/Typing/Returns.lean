import SemanticAnalysis.Proofs.Types.Ascent
import SemanticAnalysis.Proofs.Typing.Coherence
/-!
What an inferred return type admits. The values that a function returns are found in all its blocks and branches, and
their types are known in the end as they were when the return type was inferred. So every value of known type may stand
where the return type is expected, and there is no return type only if nothing is known of any value.
-/
namespace SemanticAnalysis
open Running Analysis SemanticAnalysis.Bound

namespace Bound

/-- The first statement is the second or stands inside it, below however many blocks and branches. -/
inductive Stmt.Within : Stmt → Stmt → Prop where
  | here (s : Stmt) : Within s s
  | block {s t : Stmt} {body : Block} (listed : t ∈ body.stmts) (inside : Within s t) : Within s (.block body)
  | thenBranch {s t : Stmt} {condition : Expr} {thenBranch : Block} {elseBranch : Option Block} {site : Site}
      (listed : t ∈ thenBranch.stmts) (inside : Within s t) : Within s (.branch condition thenBranch elseBranch site)
  | elseBranch {s t : Stmt} {condition : Expr} {thenBranch elseBranch : Block} {site : Site}
      (listed : t ∈ elseBranch.stmts) (inside : Within s t) :
      Within s (.branch condition thenBranch (some elseBranch) site)

def Block.Contains (b : Block) (s : Stmt) : Prop := ∃ t ∈ b.stmts, s.Within t

section Returns
variable {value : Option Expr} {site : Site}

theorem within_plain {s t : Stmt} (inside : s.Within t) (plain : ∀ body, t ≠ .block body)
    (straight : ∀ condition thenBranch elseBranch site, t ≠ .branch condition thenBranch elseBranch site) : s = t := by
  cases inside with
  | here => rfl
  | block => exact absurd rfl (plain _)
  | _ => exact absurd rfl (straight _ _ _ _)

theorem ret_within_block_iff {body : Block} :
    (Stmt.ret value site).Within (.block body) ↔ body.Contains (.ret value site) := by
  constructor
  · intro inside
    cases inside with
    | block listed inside => exact ⟨_, listed, inside⟩
  · rintro ⟨t, listed, inside⟩
    exact .block listed inside

theorem ret_within_branch_iff {condition : Expr} {thenBranch : Block} {elseBranch : Option Block} {place : Site} :
    (Stmt.ret value site).Within (.branch condition thenBranch elseBranch place) ↔
      thenBranch.Contains (.ret value site) ∨ ∃ block ∈ elseBranch, block.Contains (.ret value site) := by
  constructor
  · intro inside
    cases inside with
    | thenBranch listed inside => exact .inl ⟨_, listed, inside⟩
    | elseBranch listed inside => exact .inr ⟨_, rfl, _, listed, inside⟩
  · rintro (⟨t, listed, inside⟩ | ⟨block, rfl, t, listed, inside⟩)
    · exact .thenBranch listed inside
    · exact .elseBranch listed inside

mutual

theorem Stmt.returns_within : ∀ s : Stmt, ⟨value, site⟩ ∈ s.returns ↔ (Stmt.ret value site).Within s
  | .expr e place => by
    refine iff_of_false List.not_mem_nil fun inside => ?_
    cases within_plain inside (by simp) (by simp)
  | .variable v place => by
    refine iff_of_false List.not_mem_nil fun inside => ?_
    cases within_plain inside (by simp) (by simp)
  | .assign target assigned place => by
    refine iff_of_false List.not_mem_nil fun inside => ?_
    cases within_plain inside (by simp) (by simp)
  | .ret returned place => by
    rw [Stmt.returns, List.mem_singleton, Return.mk.injEq]
    constructor
    · rintro ⟨rfl, rfl⟩
      exact .here _
    · intro inside
      cases within_plain inside (by simp) (by simp)
      exact ⟨rfl, rfl⟩
  | .branch condition thenBranch elseBranch place => by
    rw [Stmt.returns, List.mem_append, Block.returns_contained thenBranch, Block.option_returns_contained elseBranch,
      ret_within_branch_iff]
  | .block body => by rw [Stmt.returns, Block.returns_contained body, ret_within_block_iff]

theorem Block.returns_contained : ∀ b : Block, ⟨value, site⟩ ∈ b.returns ↔ b.Contains (.ret value site)
  | .mk stmts _ => Stmt.all_returns_within stmts

theorem Block.option_returns_contained :
    ∀ b : Option Block, ⟨value, site⟩ ∈ Block.optionReturns b ↔ ∃ block ∈ b, block.Contains (.ret value site)
  | none => by simp [Block.optionReturns]
  | some block => by simp [Block.optionReturns, Block.returns_contained block]

theorem Stmt.all_returns_within :
    ∀ ss : List Stmt, ⟨value, site⟩ ∈ Stmt.allReturns ss ↔ ∃ s ∈ ss, (Stmt.ret value site).Within s
  | [] => by simp [Stmt.allReturns]
  | s :: rest => by
    simp [Stmt.allReturns, Stmt.returns_within s, Stmt.all_returns_within rest]

end

end Returns

theorem returned_iff {f : Function} {body : Block} (written : f.body = some body) {e : Expr} :
    e ∈ Program.returnedValues f ↔ ∃ site, body.Contains (.ret (some e) site) := by
  unfold Program.returnedValues
  rw [written, List.mem_filterMap]
  constructor
  · rintro ⟨⟨value, site⟩, listed, same⟩
    cases show value = some e from same
    exact ⟨site, (Block.returns_contained body).mp listed⟩
  · rintro ⟨site, contained⟩
    exact ⟨⟨some e, site⟩, (Block.returns_contained body).mpr contained, rfl⟩

end Bound

theorem implied_modifier_nullable (h : TypeHierarchy) (t : TypeRef) :
    (h.withImpliedModifier t).nullable = t.nullable := by
  unfold TypeHierarchy.withImpliedModifier
  split <;> rfl

section Inference
variable {p : Program} {facts : Facts} {values : List Expr} {t : TypeRef}

theorem inferred_accepts (sealed : p.types.Sealed) (rooted : ∀ a, p.types.Has a → p.types.Below a .any)
    (known : ∀ e ∈ values, p.KnowsType (e.type facts)) (infers : facts.Infers p values (some t)) {e : Expr}
    (returned : e ∈ values) {u : TypeRef} (typed : e.type facts = some u) : p.types.Accepts t u := by
  cases infers with
  | nothing empty =>
    rw [empty] at returned
    cases returned
  | @ancestor base nullable _ closest null =>
    have listed : u.base ∈ (values.filterMap (Expr.type facts)).map TypeRef.base :=
      List.mem_map.mpr ⟨u, List.mem_filterMap.mpr ⟨e, returned, typed⟩, rfl⟩
    have there : ∀ a ∈ (values.filterMap (Expr.type facts)).map TypeRef.base, p.types.Has a := by
      intro a member
      obtain ⟨w, among, rfl⟩ := List.mem_map.mp member
      obtain ⟨d, given, same⟩ := List.mem_filterMap.mp among
      exact known d given w same
    obtain ⟨base', closest', above⟩ :=
      TypeHierarchy.common_ancestor_above sealed rooted (List.ne_nil_of_mem listed) there
    cases closest.symm.trans closest'
    unfold TypeHierarchy.Accepts
    rw [implied_modifier_nullable, Program.implied_modifier_base]
    exact ⟨fun may => null.mpr ⟨e, returned, .inr ⟨u, typed, may⟩⟩, above _ listed⟩

theorem inferred_nullable (infers : facts.Infers p values (some t)) {e : Expr} (returned : e ∈ values)
    (null : e.isNull = true) : t.nullable = true := by
  cases infers with
  | nothing empty =>
    rw [empty] at returned
    cases returned
  | ancestor _ _ may =>
    rw [implied_modifier_nullable]
    exact may.mpr ⟨e, returned, .inl null⟩

theorem inferred_unknown (infers : facts.Infers p values none) :
    (∃ e, e ∈ values) ∧ ∀ e ∈ values, e.type facts = none := by
  cases infers with
  | unknown given untyped => exact ⟨List.exists_mem_of_ne_nil values given, untyped⟩

end Inference

/-- A function with a body and without a written return type has an inferred one, or none. The inferred one admits every
returned value of known type, wherever in the body the return statement stands, and null if that is returned. There is
none only if values are returned and no type of them is known. -/
theorem inferred_returns_admit_values {options : Options} {modules : List Tree.Module} {c : Compilation}
    (bound : Compilation.bind options modules = .ok c) {g : FunctionId} {f : Function} {body : Block}
    (here : c.program.functions[g.index]? = some f) (written : f.body = some body)
    (silent : f.statesReturnType = false) :
    ∃ inferred, c.FunctionReturns g inferred ∧
      (∀ t, inferred = some t →
        (∀ value site u, body.Contains (.ret (some value) site) → value.type c.facts = some u →
          c.program.types.isAssignable u t = .ok true) ∧
        ((∃ place site, body.Contains (.ret (some (.null place)) site)) → t.nullable = true)) ∧
      (inferred = none → (∃ value site, body.Contains (.ret (some value) site)) ∧
        ∀ value site, body.Contains (.ret (some value) site) → value.type c.facts = none) := by
  obtain ⟨_, _, built, lexical, consistent, complete, _⟩ := Compilation.bind_completes bound
  obtain ⟨sealed, rooted⟩ := construct_rooted built
  have known := fun e => Facts.expression_type_known (Compilation.bind_valid bound) consistent e
  have answer := (Compilation.function_returns_iff lexical complete (Array.getElem?_eq_some_iff.mp here).1 _).mpr rfl
  have infers := Compilation.return_type_rule lexical complete here silent
  refine ⟨_, answer, fun t same => ⟨?_, ?_⟩, fun none => ?_⟩
  · intro value site u contained typed
    rw [same] at infers
    have accepts := inferred_accepts sealed rooted (fun e _ => known e) infers
      ((returned_iff written).mpr ⟨site, contained⟩) typed
    obtain ⟨yes, asked, meaning⟩ := TypeHierarchy.is_assignable_iff_accepts sealed u t (known value u typed)
    rw [asked, meaning.mpr accepts]
  · rintro ⟨place, site, contained⟩
    rw [same] at infers
    exact inferred_nullable infers ((returned_iff written).mpr ⟨site, contained⟩) rfl
  · rw [none] at infers
    obtain ⟨⟨value, returned⟩, untyped⟩ := inferred_unknown infers
    refine ⟨⟨value, (returned_iff written).mp returned⟩, fun value site contained => ?_⟩
    exact untyped value ((returned_iff written).mpr ⟨site, contained⟩)

def Tree.running (text : String) (body : List Tree.Stmt) : Tree.Item :=
  .function ⟨⟨text, {}⟩, {}, none, [], none, some (.mk body {}), {}⟩

/-- `pick` returns an integer in one branch, a fraction in a block of the other one, and null at its end. `ping` returns
what `pong` returns or an integer, and `pong` returns what `ping` returns. -/
def Tree.nested : Tree.Module :=
  { path := []
    imports := []
    items := [
      Tree.running "pick" [
        .branch (Tree.name "true") (.mk [.ret (some (.number (.int 1) {})) {}] {})
          (some (.mk [.block (.mk [.ret (some (.number .float {})) {}] {})] {})) {},
        .ret (some (.null {})) {}],
      Tree.running "ping" [
        .branch (Tree.name "true") (.mk [.ret (some (Tree.call "pong")) {}] {}) none {},
        .ret (some (.number (.int 1) {})) {}],
      Tree.running "pong" [.ret (some (Tree.call "ping")) {}]]
    notices := []
    span := {} }

def Compilation.returnsOf (c : Compilation) (g : Nat) : Option (List (Option TypeRef) × Option TypeRef) := do
  let f ← c.program.functions[g]?
  let _ ← f.body
  let t ← c.toldReturn g
  if f.statesReturnType then none else some ((Program.returnedValues f).map (Expr.type c.facts), t)

theorem Compilation.returns_of_some {c : Compilation} {g : Nat} {types : List (Option TypeRef)} {t : Option TypeRef}
    (told : c.returnsOf g = some (types, t)) : ∃ f body, c.program.functions[g]? = some f ∧ f.body = some body ∧
      f.statesReturnType = false ∧ (Program.returnedValues f).map (Expr.type c.facts) = types ∧
      ∀ s, c.FunctionReturns ⟨g⟩ s → s = t := by
  unfold returnsOf at told
  obtain ⟨f, here, told⟩ := Option.bind_eq_some_iff.mp told
  obtain ⟨body, written, told⟩ := Option.bind_eq_some_iff.mp told
  obtain ⟨u, answer, told⟩ := Option.bind_eq_some_iff.mp told
  split at told
  · cases told
  · rename_i silent
    cases told
    refine ⟨f, body, here, written, Bool.eq_false_iff.mpr silent, rfl, fun s returns => ?_⟩
    unfold toldReturn at answer
    rw [show c.session.answer (.returnType ⟨g⟩) = _ from returns] at answer
    cases answer
    rfl

theorem nested_returns_are_admitted : ∃ c, Compilation.bind {} [Tree.nested] = .ok c ∧
    c.FunctionReturns ⟨21⟩ (some ⟨.number, true, some .immutable⟩) ∧
    c.program.types.isAssignable ⟨.int, false, some .immutable⟩ ⟨.number, true, some .immutable⟩ = .ok true ∧
    c.program.types.isAssignable ⟨.float, false, some .immutable⟩ ⟨.number, true, some .immutable⟩ = .ok true ∧
    c.FunctionReturns ⟨22⟩ (some ⟨.int, false, some .immutable⟩) ∧ c.FunctionReturns ⟨23⟩ none := by
  have evaluated : (Compilation.bind {} [Tree.nested]).toOption.any (fun c => decide (
      c.returnsOf 21 = some ([some ⟨.int, false, some .immutable⟩, some ⟨.float, false, some .immutable⟩, none],
        some ⟨.number, true, some .immutable⟩) ∧
      c.returnsOf 22 = some ([none, some ⟨.int, false, some .immutable⟩], some ⟨.int, false, some .immutable⟩) ∧
      c.returnsOf 23 = some ([none], none))) = true := by decide +kernel
  obtain ⟨c, bound, pick, ping, pong⟩ := ok_of_passed evaluated
  have told : ∀ {g types t}, c.returnsOf g = some (types, t) → c.FunctionReturns ⟨g⟩ t ∧
      ∀ u, some u ∈ types → ∀ s, t = some s → c.program.types.isAssignable u s = .ok true := by
    intro g types t known
    obtain ⟨f, body, here, written, silent, rfl, only⟩ := Compilation.returns_of_some known
    obtain ⟨inferred, returns, admits, _⟩ := inferred_returns_admit_values bound (g := ⟨g⟩) here written silent
    cases only inferred returns
    refine ⟨returns, fun u listed s same => ?_⟩
    obtain ⟨value, returned, typed⟩ := List.mem_map.mp listed
    obtain ⟨site, contained⟩ := (returned_iff written).mp returned
    exact (admits s same).1 value site u contained typed
  exact ⟨c, bound, (told pick).1, (told pick).2 _ (by decide) _ rfl, (told pick).2 _ (by decide) _ rfl,
    (told ping).1, (told pong).1⟩

end SemanticAnalysis
