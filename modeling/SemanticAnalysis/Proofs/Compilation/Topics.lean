import SemanticAnalysis.Proofs.Typing.Faults
/-!
What findings are about. The cause of a finding tells whether it is about a single expression, assignment or variable,
about a written type, about a text that could not be read, or about a declaration as a whole. Each part of the analysis
keeps to its topics.
-/
namespace SemanticAnalysis
open Running Analysis SemanticAnalysis.Bound Construction

inductive Topic where
  | node
  | type
  | text
  | declaration
deriving DecidableEq

def Cause.topic : Cause → Topic
  | .undefinedIdentifier _ => .node
  | .unresolvedVariable _ => .node
  | .unresolvableFunction _ => .node
  | .unresolvableOperator _ _ => .node
  | .ambiguousInvocation _ _ => .node
  | .unknownMember _ _ => .node
  | .unsafeObjectTraversal => .node
  | .superfluousSafeObjectTraversal => .node
  | .valueNotAssignable _ _ => .node
  | .assignmentToImmutable _ => .node
  | .unknownType _ => .type
  | .forwarded _ => .text
  | .duplicateTypeMembers _ _ _ => .declaration
  | .cyclicTypeHierarchy _ _ => .declaration
  | .unresolvedImport _ => .declaration
  | .purityViolation _ _ _ => .declaration
  | .readonlyViolation _ _ _ => .declaration
  | .recursivePurityCheck _ => .declaration

namespace Diagnostics

def Only (topic : Topic) (found : List Diagnostic) : Prop := ∀ d ∈ found, d.error.cause.topic = topic

variable {topic other : Topic} {found more : List Diagnostic}

theorem only_nil : Only topic [] := fun _ member => absurd member List.not_mem_nil

theorem only_single {d : Diagnostic} (same : d.error.cause.topic = topic) : Only topic [d] := by
  intro e member
  rw [List.mem_singleton.mp member]
  exact same

theorem only_flat_map {α : Type} {f : α → List Diagnostic} {xs : List α} (each : ∀ x ∈ xs, Only topic (f x)) :
    Only topic (xs.flatMap f) := by
  intro d member
  obtain ⟨x, listed, inside⟩ := List.mem_flatMap.mp member
  exact each x listed d inside

end Diagnostics

open Diagnostics

variable {p : Program} {facts : Facts}

namespace Facts

end Facts

theorem notices_topic (modules : List Tree.Module) : Only .text (Compilation.notices modules) := by
  apply only_flat_map
  intro m _ d member
  obtain ⟨notice, _, rfl⟩ := List.mem_map.mp member
  rfl

namespace Program

theorem type_error_topic {scope : ScopeId} {t : Option Tree.TypeExpr} {e : SemanticError}
    (found : p.typeError? scope t = some e) : e.cause.topic = .type := by
  obtain ⟨written, _, failed⟩ := Option.bind_eq_some_iff.mp found
  unfold resolveType at failed
  split at failed
  · cases failed
  · rename_i error refused
    cases failed
    split at refused
    · cases refused
    · cases refused
      rfl

theorem signature_findings_topic (f : Function) : Only .type (p.signatureFindings f) := by
  have each : ∀ scope receiver params returnType, ∀ e ∈ (p.signatureOf scope receiver params returnType).errors,
      e.cause.topic = .type := by
    intro scope receiver params returnType e member
    obtain ⟨t, _, found⟩ := List.mem_filterMap.mp member
    exact type_error_topic found
  intro d member
  obtain ⟨e, listed, rfl⟩ := List.mem_map.mp member
  unfold signature at listed
  split at listed
  · exact each _ _ _ _ e listed
  · exact each _ _ _ _ e listed

theorem member_type_errors_topic (s : Struct) : Only .type (p.memberTypeErrors s) := by
  intro d member
  obtain ⟨m, _, found⟩ := List.mem_filterMap.mp member
  obtain ⟨e, failed, rfl⟩ := Option.map_eq_some_iff.mp found
  exact type_error_topic failed

def variableTypeFindings (p : Program) (v : Variable) : List Diagnostic :=
  (p.declaredTypeError? v).toList.map (fun e => ⟨.error, e⟩)

theorem variable_type_findings_topic (v : Variable) : Only .type (p.variableTypeFindings v) := by
  intro d member
  obtain ⟨e, listed, rfl⟩ := List.mem_map.mp member
  have found : p.declaredTypeError? v = some e := Option.mem_toList.mp listed
  unfold declaredTypeError? at found
  split at found
  · exact type_error_topic found
  · cases found

end Program

theorem Bound.Struct.mem_duplicates {s : Struct} {d : Diagnostic} (member : d ∈ s.duplicates) :
    ∃ name count span, d = .ofError (.duplicateTypeMembers s.name name count) span := by
  obtain ⟨name, _, found⟩ := List.mem_filterMap.mp member
  obtain ⟨entry, _, found⟩ := Option.bind_eq_some_iff.mp found
  obtain ⟨span, _, told⟩ := Option.bind_eq_some_iff.mp found
  exact ⟨name, entry.1, span, (Option.some.inj told).symm⟩

namespace Program

end Program

namespace Construction

end Construction

end SemanticAnalysis
