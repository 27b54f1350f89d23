import SemanticAnalysis.Proofs.Compilation.Accounting
import SemanticAnalysis.Proofs.Rewording.Claims
/-!
Verdicts on claims. A compilation tells that a function breaks a claim if and only if it does, once, and where the last
phase comes to that function. The claims of other functions have no part in it unless these have no body.
-/
namespace SemanticAnalysis
open Running Analysis Diagnostics SemanticAnalysis.Bound

def Cause.violated? : Cause → Option Access
  | .purityViolation _ _ _ => some .read
  | .readonlyViolation _ _ _ => some .write
  | _ => none

def Diagnostics.violations (access : Access) (found : List Diagnostic) : List Diagnostic :=
  found.filter (fun d => d.error.cause.violated? = some access)

/-- A function that claims to be pure or read-only claims not to write. -/
def Bound.Function.Claims (f : Function) : Access → Prop
  | .read => f.modifiers.claimsPure = true
  | .write => f.modifiers.claimsPure = true ∨ f.modifiers.claimsReadonly = true

theorem claims_none_iff (access : Access) (f : Function) :
    Program.claimsNone access f.modifiers = true ↔ f.Claims access := by
  cases access with
  | read => rfl
  | write => simp [Program.claimsNone, FunctionModifiers.promisesNoWrites, Function.Claims]

namespace Diagnostics
variable {access : Access} {found more : List Diagnostic}

theorem violations_append : violations access (found ++ more) = violations access found ++ violations access more :=
  List.filter_append ..

theorem violations_lasting : violations access (lasting found) = violations access found := by
  unfold violations lasting
  rw [List.filter_filter]
  apply List.filter_congr
  intro d _
  cases cause : d.error.cause <;> simp [Diagnostic.isRecursionWarning, Cause.violated?, cause]

end Diagnostics

section Account
variable {p : Program} {facts : Facts} {access : Access}

end Account

section Verdict
variable {p : Program} {links : Links} {access : Access}

/-- What is to be told about the claim of a function. -/
noncomputable def Program.verdict (p : Program) (links : Links) (access : Access) (f : Function) : Option Diagnostic :=
  f.body.bind (fun body => (p.brokenClaim links f body access).map (fun cause => .ofError cause f.nameSpan))

theorem broken_claims_violate (f : Function) (body : Block) :
    violations access (p.brokenClaims links f body)
      = ((p.brokenClaim links f body access).map (fun cause => Diagnostic.ofError cause f.nameSpan)).toList := by
  have single (other : Access) : violations access
      ((p.brokenClaim links f body other).toList.map (fun cause => Diagnostic.ofError cause f.nameSpan))
      = if other = access then
          ((p.brokenClaim links f body other).map (fun cause => Diagnostic.ofError cause f.nameSpan)).toList
        else [] := by
    unfold Program.brokenClaim
    split
    · cases other <;> cases access <;> rfl
    · cases other <;> cases access <;> rfl
  unfold Program.brokenClaims
  rw [List.map_append, violations_append, single, single]
  cases access with
  | read => simp
  | write => simp

variable {g : FunctionId}

theorem violations_promised {f : Function} (here : p.functions[g.index]? = some f) :
    violations access (p.brokenPromises links (.function g)) = (p.verdict links access f).toList := by
  rw [Program.brokenPromises, Program.verdict, here, Option.bind_some]
  cases f.body with
  | none => rfl
  | some body => exact broken_claims_violate f body

theorem verdict_some_iff (consistent : p.Consistent) {f : Function}
    (here : p.functions[g.index]? = some f) {d : Diagnostic} :
    p.verdict links access f = some d ↔ ∃ body, f.body = some body ∧ f.Claims access ∧ ¬p.Clean links access g ∧
      d = .ofError (Program.violationCause f (p.offending links access f body) access) f.nameSpan := by
  have same : f.id = g := consistent.functionIds _ _ here
  unfold Program.verdict Program.brokenClaim
  rw [same, Option.bind_eq_some_iff]
  refine exists_congr fun body => and_congr_right fun _ => ?_
  rw [← claims_none_iff]
  split
  · rename_i broken
    simp [broken.1, broken.2, eq_comm]
  · rename_i kept
    simp only [Option.map_none, reduceCtorEq, false_iff]
    exact fun told => kept ⟨told.1, told.2.1⟩

theorem offending_ne_nil {f : Function} {body : Block} (here : p.functions[g.index]? = some f)
    (written : f.body = some body) (unclean : ¬p.Clean links access g) : p.offending links access f body ≠ [] := by
  intro nothing
  unfold Program.offending at nothing
  have offences : p.offences links access f (p.visits access body) = [] := by
    cases places : p.offences links access f (p.visits access body) with
    | nil => rfl
    | cons first rest =>
      rw [places, List.eraseDups_cons] at nothing
      cases nothing
  exact unclean ((Program.clean_body_iff here written).mpr ((Program.offences_none_iff f _).mp offences))

end Verdict

namespace Compilation
variable {options : Options} {modules : List Tree.Module} {c : Compilation}

def told (c : Compilation) (access : Access) (g : FunctionId) : List Diagnostic :=
  violations access (c.facts.report .validation (.function g))

variable {g : FunctionId}

theorem told_verdict (bound : bind options modules = .ok c) {f : Function}
    (declared : .function g ∈ c.program.declarations) (here : c.program.functions[g.index]? = some f)
    (access : Access) : c.told access g = (c.program.verdict c.facts.links access f).toList := by
  obtain ⟨_, _, _, lexical, consistent, complete, _⟩ := bind_completes bound
  obtain ⟨_, _, faithful, upright⟩ := session_upright bound
  have promises := promises_reported (settled_groundwork _ _) consistent lexical faithful complete upright.upright
    declared
  rw [← violations_promised here, ← promises, violations_lasting]
  rfl

/-- It is told that a function breaks its claim about one kind of access if and only if the function has a body, makes
the claim and is not clean. That is told once, with the number and the list of the places of effects, and there are
some. -/
structure Judges (c : Compilation) (access : Access) (g : FunctionId) (f : Function) : Prop where
  told_iff : c.told access g ≠ [] ↔ f.body ≠ none ∧ f.Claims access ∧ ¬c.program.Clean c.facts.links access g
  once : (c.told access g).length ≤ 1
  places : ∀ d ∈ c.told access g, ∃ body, f.body = some body ∧
    c.program.offending c.facts.links access f body ≠ [] ∧
    d = .ofError (Program.violationCause f (c.program.offending c.facts.links access f body) access) f.nameSpan

theorem function_judged (bound : bind options modules = .ok c) {f : Function}
    (declared : .function g ∈ c.program.declarations) (here : c.program.functions[g.index]? = some f)
    (access : Access) : c.Judges access g f := by
  obtain ⟨consistent, _⟩ := session_upright bound
  have told := told_verdict bound declared here access
  refine ⟨?_, ?_, ?_⟩
  · rw [told, ne_eq, Option.toList_eq_nil_iff, ← ne_eq, Option.ne_none_iff_exists']
    constructor
    · rintro ⟨d, verdict⟩
      obtain ⟨body, written, claims, unclean, _⟩ := (verdict_some_iff consistent here).mp verdict
      exact ⟨by simp [written], claims, unclean⟩
    · rintro ⟨some_body, claims, unclean⟩
      obtain ⟨body, written⟩ := Option.ne_none_iff_exists'.mp some_body
      exact ⟨_, (verdict_some_iff consistent here).mpr ⟨body, written, claims, unclean, rfl⟩⟩
  · rw [told]
    cases c.program.verdict c.facts.links access f <;> simp
  · intro d member
    rw [told, Option.mem_toList] at member
    obtain ⟨body, written, _, unclean, same⟩ := (verdict_some_iff consistent here).mp member
    exact ⟨body, written, offending_ne_nil here written unclean, same⟩

end Compilation

open Compilation

def Tree.claiming (text : String) (modifiers : FunctionModifiers) (body : Tree.Stmt) : Tree.Item :=
  .function ⟨⟨text, {}⟩, modifiers, none, [], none, some (.mk [body] {}), {}⟩

/-- `reader` reads a variable of the module, and `caller` calls it. `setter` writes the variable although it claims to
be read-only. `even` and `odd` call each other, and `zero` does nothing. All others claim to be pure, and `reader` may
or may not. -/
def Tree.pledges (claims : Bool) : Tree.Module :=
  { path := []
    imports := []
    items := [.variable ⟨⟨"total", {}⟩, true, none, some (.number (.int 0) {}), {}⟩,
      Tree.claiming "reader" { claimsPure := claims } (.ret (some (Tree.name "total")) {}),
      Tree.claiming "caller" { claimsPure := true } (.ret (some (Tree.call "reader")) {}),
      Tree.claiming "setter" { claimsReadonly := true } (.assign (Tree.name "total") (.number (.int 1) {}) {}),
      Tree.claiming "even" { claimsPure := true } (.ret (some (Tree.call "odd")) {}),
      Tree.claiming "odd" { claimsPure := true } (.ret (some (Tree.call "even")) {}),
      Tree.claiming "zero" { claimsPure := true } (.ret (some (.number (.int 0) {})) {})]
    notices := []
    span := {} }

def Compilation.broken (c : Compilation) (g : Nat) : Nat × Nat :=
  ((c.told .read ⟨g⟩).length, (c.told .write ⟨g⟩).length)

def Compilation.promises (c : Compilation) (g : Nat) : Bool :=
  decide (.function ⟨g⟩ ∈ c.program.declarations) &&
    c.program.functions[g]?.any (fun f => f.body.isSome && f.modifiers.claimsPure)

theorem Compilation.promises_pure {c : Compilation} {g : Nat} (promises : c.promises g = true) :
    .function ⟨g⟩ ∈ c.program.declarations ∧
      ∃ f, c.program.functions[g]? = some f ∧ f.body ≠ none ∧ f.Claims .read := by
  obtain ⟨declared, rest⟩ := Bool.and_eq_true_iff.mp promises
  refine ⟨of_decide_eq_true declared, ?_⟩
  cases here : c.program.functions[g]? with
  | none =>
    rw [here] at rest
    cases rest
  | some f =>
    rw [here, Option.any_some, Bool.and_eq_true] at rest
    exact ⟨f, rfl, Option.isSome_iff_ne_none.mp rest.1, rest.2⟩

end SemanticAnalysis
