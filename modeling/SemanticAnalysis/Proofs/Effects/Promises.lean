import SemanticAnalysis.Proofs.Analysis.Claims
/-!
Broken promises. Which claims a function breaks, and where, follows from what names and calls mean. The order in which
effects are found out shows only in the warnings about recursive calls.
-/
namespace SemanticAnalysis
open Running Analysis SemanticAnalysis.Bound

def Diagnostic.isRecursionWarning (d : Diagnostic) : Bool :=
  d.isWarning && match d.error.cause with
    | .recursivePurityCheck _ => true
    | _ => false

def Diagnostics.lasting (ds : List Diagnostic) : List Diagnostic := ds.filter (fun d => !d.isRecursionWarning)

theorem Diagnostics.lasting_append (ds es : List Diagnostic) : lasting (ds ++ es) = lasting ds ++ lasting es :=
  List.filter_append ..

open Classical in
/-- The claim that a function breaks, said without summing anything up. -/
noncomputable def Program.brokenClaim (p : Program) (links : Links) (f : Function) (body : Block) (access : Access) :
    Option Cause :=
  if claimsNone access f.modifiers = true ∧ ¬p.Clean links access f.id then
    some (violationCause f (p.offending links access f body) access)
  else none

noncomputable def Program.brokenClaims (p : Program) (links : Links) (f : Function) (body : Block) : List Diagnostic :=
  ((p.brokenClaim links f body .read).toList ++ (p.brokenClaim links f body .write).toList).map (fun c =>
    Diagnostic.ofError c f.nameSpan)

variable {p : Program} {links : Links} {I : Facts → Prop} {access : Access} {g : FunctionId} {f : Function}
  {body : Block} {facts after : Facts} {findings : List Diagnostic}

theorem recursion_warnings_fade {calls : List (FunctionId × Span)}
    (ran : p.recursionWarnings calls = .ok findings) : Diagnostics.lasting findings = [] := by
  apply List.filter_eq_nil_iff.mpr
  intro d member
  unfold Program.recursionWarnings at ran
  split at ran
  · obtain ⟨call, _, warned⟩ := map_ok_member ran member
    unfold Program.recursionWarning at warned
    cases found : p.functionAt call.1 with
    | error e =>
      rw [found] at warned
      cases warned
    | ok callee =>
      rw [found] at warned
      cases warned
      simp [Diagnostic.isRecursionWarning, Diagnostic.isWarning, Diagnostic.ofWarning]
  · cases ran
    cases member

theorem broken_claims_last (p : Program) (links : Links) (f : Function) (body : Block) :
    Diagnostics.lasting (p.brokenClaims links f body) = p.brokenClaims links f body := by
  apply List.filter_eq_self.mpr
  intro d member
  obtain ⟨c, _, rfl⟩ := List.mem_map.mp member
  rfl

section Told
variable (ground : Groundwork p links I) (consistent : p.Consistent) {modules : List Tree.Module}
  {ds : List Construction.Declared} (lexical : p.Lexical modules ds) (faithful : links.Faithful p)
  (found : p.functions[g.index]? = some f) (written : f.body = some body)
include ground consistent lexical faithful found written

theorem violation_told {answer : Option Program.Violation} (upright : Facts.Upright p links I {} facts)
    (ran : p.violation? access f facts = (.ok answer, after)) :
    Facts.Upright p links I {} after ∧ answer.map Program.Violation.cause = p.brokenClaim links f body access := by
  have kept := (violation_maintains ground consistent lexical faithful access f facts upright answer after ran).1
  refine ⟨kept, ?_⟩
  have same : f.id = g := consistent.functionIds _ _ found
  unfold Program.violation? at ran
  unfold Program.brokenClaim
  split at ran
  · rename_i claimed
    obtain ⟨summary, middle, asked, rest⟩ := bind_ok_split ran
    obtain ⟨_, right⟩ :=
      summary_ensures ground consistent lexical faithful access f.id facts upright summary middle asked
    have idle : facts.summaries.state (access, f.id) ≠ .inProgress := by
      rw [Ne, upright.running]
      simp [Cells.state]
    cases summary with
    | none => exact absurd rfl (summary_given idle asked)
    | some s =>
      dsimp only at rest
      split at rest
      · rename_i clean
        cases rest
        rw [if_neg (fun broken => broken.2 (right.clean.mp clean))]
        rfl
      · rename_i unclean
        cases rest
        rw [if_pos ⟨claimed, fun clean => unclean (right.clean.mpr clean)⟩, Option.map_some]
        rw [same] at right
        rw [right.offending f body found written]
  · rename_i unclaimed
    cases ran
    rw [if_neg (fun broken => unclaimed broken.1)]
    rfl

theorem claims_told (upright : Facts.Upright p links I {} facts)
    (ran : p.validateClaims f facts = (.ok findings, after)) :
    Diagnostics.lasting findings = p.brokenClaims links f body := by
  obtain ⟨reads, middle, first, rest⟩ := bind_ok_split ran
  obtain ⟨writes, last, second, rest⟩ := bind_ok_split rest
  obtain ⟨warnings, _, told, ended⟩ := bind_ok_split rest
  obtain ⟨warned, rfl⟩ := Prod.mk.inj told
  cases ended
  obtain ⟨upright', ofReads⟩ := violation_told ground consistent lexical faithful found written upright first
  obtain ⟨_, ofWrites⟩ := violation_told ground consistent lexical faithful found written upright' second
  have causes : (reads.toList ++ writes.toList).map (fun v => Diagnostic.ofError v.cause f.nameSpan)
      = p.brokenClaims links f body := by
    unfold Program.brokenClaims
    rw [← ofReads, ← ofWrites, Option.toList_map, Option.toList_map, ← List.map_append, List.map_map]
    rfl
  rw [Diagnostics.lasting_append, recursion_warnings_fade warned, List.append_nil, causes, broken_claims_last]

end Told

end SemanticAnalysis
