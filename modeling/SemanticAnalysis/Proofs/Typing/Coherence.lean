import SemanticAnalysis.Proofs.Compilation.Completion
/-!
The types of a bound program fit together, however its declarations need each other. Where the type of a name or of a
call was found out while the declaration it asks for was still being typed, it is unknown; everywhere else it is the
type of that declaration. The types of declarations follow from what is written and from the types of expressions.
-/
namespace SemanticAnalysis
open Running Analysis SemanticAnalysis.Bound

variable {p : Program} {facts : Facts}

namespace Program

def returnTypeIn (p : Program) (facts : Facts) (g : FunctionId) : Option TypeRef :=
  (p.givenReturn g).getD (facts.returnTypes.find? g).join

end Program

section Answers
variable {modules : List Tree.Module} {ds : List Construction.Declared} (lexical : p.Lexical modules ds)
include lexical

theorem function_present {g : FunctionId} {f : Function} (here : p.functions[g.index]? = some f)
    (states : f.statesReturnType = false) : p.Present (.function g) := by
  rcases Program.function_places lexical here with ⟨_, b, origin⟩ | ⟨decl, listed, _⟩
  · simp [Function.statesReturnType, origin] at states
  · refine .inl ?_
    rw [lexical.declarations]
    exact List.mem_map.mpr ⟨_, listed, rfl⟩

variable (complete : facts.Complete p) (consistent : p.Consistent)
include complete consistent

omit consistent in
theorem return_type_again {g : FunctionId} (there : p.HasFunction g) :
    p.returnType g facts = (.ok (p.returnTypeIn facts g), facts) := by
  have here : p.functions[g.index]? = some p.functions[g.index] := Array.getElem?_eq_getElem there
  change p.returnTypeUsing _ g facts = _
  unfold Program.returnTypeUsing Program.returnTypeIn Program.givenReturn
  rw [run_look_up (function_at_ok_iff.mpr here), here, Option.bind_some]
  cases states : p.functions[g.index].statesReturnType with
  | true => rfl
  | false =>
    obtain ⟨t, known⟩ := complete.returnTypes g (function_present lexical here states)
    rw [if_neg (by simp), if_neg (by simp), Program.inferredReturnType, run_bind_ok (run_get _), known]
    rfl

end Answers

inductive Facts.Infers (p : Program) (facts : Facts) (values : List Expr) : Option TypeRef → Prop where
  | nothing (empty : values = []) : Infers p facts values (some (.simple .unit))
  | unknown (given : values ≠ []) (untyped : ∀ e ∈ values, e.type facts = none) : Infers p facts values none
  | ancestor {base : TypeId} {nullable : Bool} (typed : ∃ e ∈ values, e.type facts ≠ none)
      (closest : p.types.commonAncestor ((values.filterMap (Expr.type facts)).map TypeRef.base) = .ok base)
      (null : nullable = true ↔ ∃ e ∈ values, e.isNull = true ∨ ∃ t, e.type facts = some t ∧ t.nullable = true) :
      Infers p facts values (some (p.types.withImpliedModifier { base, nullable }))

theorem infer_return_infers {values : List Expr} {t : Option TypeRef}
    (inferred : p.inferReturnType facts values = .ok t) : facts.Infers p values t := by
  unfold Program.inferReturnType at inferred
  split at inferred
  · rename_i empty
    cases inferred
    exact .nothing (List.isEmpty_iff.mp empty)
  · rename_i given
    split at inferred
    · rename_i untyped
      cases inferred
      exact .unknown (fun empty => given (List.isEmpty_iff.mpr empty)) (List.filterMap_eq_nil_iff.mp untyped)
    · rename_i typed
      cases closest : p.types.commonAncestor ((values.filterMap (Expr.type facts)).map TypeRef.base) with
      | error e =>
        rw [closest] at inferred
        cases inferred
      | ok base =>
        rw [closest] at inferred
        cases inferred
        refine .ancestor ?_ closest ?_
        · by_contra none
          push Not at none
          exact typed (List.filterMap_eq_nil_iff.mpr none)
        · simp only [Bool.or_eq_true, List.any_eq_true, List.mem_filterMap]
          grind

section Expressions
variable (complete : facts.Complete p)
include complete

variable {call : Invocation} {receiver : Option Expr} {args : List Expr} {g : FunctionId}

end Expressions

namespace Compilation

def FunctionReturns (c : Compilation) (g : FunctionId) (t : Option TypeRef) : Prop :=
  c.session.answer (.returnType g) = (.ok (.type t), c.session)

variable {c : Compilation} {modules : List Tree.Module} {ds : List Construction.Declared}
  (lexical : c.program.Lexical modules ds) (complete : c.facts.Complete c.program)
include lexical complete

theorem function_returns_iff {g : FunctionId} (there : c.program.HasFunction g) (t : Option TypeRef) :
    c.FunctionReturns g t ↔ t = c.program.returnTypeIn c.facts g := by
  unfold FunctionReturns Session.answer Session.ask session
  simp only [Question.answer, run_map, return_type_again lexical complete there]
  simp [eq_comm]

theorem return_type_rule {g : FunctionId} {f : Function} (here : c.program.functions[g.index]? = some f)
    (states : f.statesReturnType = false) :
    c.facts.Infers c.program (Program.returnedValues f) (c.program.returnTypeIn c.facts g) := by
  obtain ⟨t, known⟩ := complete.returnTypes g (function_present lexical here states)
  obtain ⟨f', here', _, inferred⟩ := complete.coherent.returnTypes g t known
  rw [here] at here'
  cases here'
  have same : c.program.returnTypeIn c.facts g = t := by
    simp [Program.returnTypeIn, Program.givenReturn, here, states, known]
  rw [same]
  exact infer_return_infers inferred

end Compilation

def Compilation.toldReturn (c : Compilation) (g : Nat) : Option (Option TypeRef) :=
  match (c.session.answer (.returnType ⟨g⟩)).1 with
  | .ok (.type t) => some t
  | _ => none

end SemanticAnalysis
