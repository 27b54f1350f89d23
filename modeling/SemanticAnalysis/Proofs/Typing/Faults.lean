import Mathlib.Data.List.Sort
import Mathlib.Data.List.TakeWhile
import SemanticAnalysis.Proofs.Typing.Dispatch
/-!
What is wrong with a single expression, assignment or variable, told from the final facts. The faults of a node are
what the first two phases found there, although they found it while other types were still to come.
-/
namespace SemanticAnalysis
open Running Analysis SemanticAnalysis.Bound Program

variable {p : Program} {facts : Facts} {call : Invocation} {receiver : Option Expr} {args : List Expr}

def Program.HasMember (p : Program) (type : TypeId) (name : String) : Prop :=
  ∃ s, p.structOf? type = .ok (some s) ∧ ∃ m ∈ s.members, m.name = name

def Bound.Node.malformed : Node → List Diagnostic
  | .number (.malformed text) site => [.forwarded .error ("malformed numeric literal " ++ quoted text) site.span]
  | _ => []

namespace Facts

def traversalFaults (object : Option TypeRef) (nullSafe : Bool) (span : Span) : List Diagnostic :=
  match object with
  | none => []
  | some t =>
    if t.nullable = true ∧ nullSafe = false then [.ofError .unsafeObjectTraversal span]
    else if t.nullable = false ∧ nullSafe = true then [.ofError .superfluousSafeObjectTraversal span]
    else []

def Closest (p : Program) (facts : Facts) (call : Invocation) (receiver : Option Expr) (args : List Expr)
    (g : FunctionId) : Prop :=
  ∃ d, facts.Suits p call receiver args g d ∧ ∀ f e, facts.Suits p call receiver args f e → d ≤ e

section
open Classical

/-- The closest functions, in the order of declaration. -/
noncomputable def rivals (p : Program) (facts : Facts) (call : Invocation) (receiver : Option Expr)
    (args : List Expr) : List FunctionId :=
  (p.offered call).filter (fun g => decide (facts.Closest p call receiver args g))

/-- Several functions are the closest, whatever is still unknown. -/
def Ambiguous (p : Program) (facts : Facts) (call : Invocation) (receiver : Option Expr) (args : List Expr) : Prop :=
  p.options.reportAmbiguousOverloads = true ∧ (∀ e ∈ receiver.toList ++ args, (e.type facts).isSome) ∧
    2 ≤ (facts.rivals p call receiver args).length

noncomputable def ambiguityFaults (p : Program) (facts : Facts) (call : Invocation) (receiver : Option Expr)
    (args : List Expr) : List Diagnostic :=
  if facts.Ambiguous p call receiver args then
    [.ofError (.ambiguousInvocation call.name (" and ".intercalate
      ((facts.rivals p call receiver args).map (fun g => (p.candidateText g).toOption.getD "")))) call.site.span]
  else []

noncomputable def callFaults (p : Program) (facts : Facts) (call : Invocation) (receiver : Option Expr)
    (args : List Expr) : List Diagnostic :=
  (if call.kind = .call then traversalFaults (receiver.bind (Expr.type facts)) call.nullSafe call.site.span else [])
    ++ (if facts.dispatched.find? call.node = none then
        [.ofError (p.unresolvable call (receiver.map (fun e => (e.type facts).getD .nullableAny))
          (args.map (Expr.type facts))) call.site.span]
      else [])
    ++ facts.ambiguityFaults p call receiver args

noncomputable def memberFaults (p : Program) (object : Option TypeRef) (name : Ident) (nullSafe : Bool) (site : Site) :
    List Diagnostic :=
  traversalFaults object nullSafe site.span
    ++ match object with
      | none => []
      | some t =>
        if p.HasMember t.base name.name then []
        else [.ofError (.unknownMember (p.types.nameOf t.base) name.name) name.span]

/-- The faults of a node. A name without meaning is reported by both phases. -/
noncomputable def nodeFaults (p : Program) (facts : Facts) : Node → List Diagnostic
  | .identifier node name site =>
    if facts.referrals.find? node = none then
      [.ofError (.undefinedIdentifier name) site.span, .ofError (.unresolvedVariable name) site.span]
    else []
  | .number _ _ => []
  | .call call receiver args => facts.callFaults p call receiver args
  | .member _ object name nullSafe site => memberFaults p (object.type facts) name nullSafe site

def assignmentFaults (p : Program) (facts : Facts) (target : Expr) (site : Site) : List Diagnostic :=
  match target with
  | .identifier node name _ =>
    match facts.referrals.find? node with
    | some (.variable v) =>
      if p.vars[v.index]?.any (fun v => !v.isMutable) then [.ofError (.assignmentToImmutable name) site.span] else []
    | _ => []
  | _ => []

noncomputable def variableFaults (p : Program) (facts : Facts) (v : Variable) : List Diagnostic :=
  match p.declaredType v, v.initializer with
  | some declared, some initializer =>
    let refused (actual : String) : Diagnostic :=
      .ofError (.valueNotAssignable (p.types.text declared) actual) initializer.site.span
    if initializer.isNull then if declared.nullable then [] else [refused "null"]
    else
      match initializer.type facts with
      | none => []
      | some actual => if p.types.Accepts declared actual then [] else [refused (p.types.text actual)]
  | _, _ => []

end

theorem mem_rivals (ordered : p.scopes.Ordered) {g : FunctionId} :
    g ∈ facts.rivals p call receiver args ↔ facts.Closest p call receiver args g := by
  classical
  unfold rivals
  rw [List.mem_filter, offered_iff_offers ordered, decide_eq_true_iff, and_iff_right_iff_imp]
  rintro ⟨_, suits, _⟩
  exact suits.1

theorem rivals_sorted : (facts.rivals p call receiver args).Pairwise (fun f g => f.index < g.index) :=
  (offered_sorted call).filter _

theorem take_while_least {m : Overload.Match} {ranked : List Overload.Match}
    (sorted : ranked.Pairwise (fun m n => m.distance ≤ n.distance)) (member : m ∈ ranked)
    (least : ∀ n ∈ ranked, m.distance ≤ n.distance) : m ∈ ranked.takeWhile (fun n => n.distance == m.distance) := by
  induction ranked with
  | nil => exact absurd member List.not_mem_nil
  | cons first rest ih =>
    obtain ⟨ahead, rest_sorted⟩ := List.pairwise_cons.mp sorted
    have lower := least first (List.mem_cons_self ..)
    by_cases equal : first.distance = m.distance
    · rw [List.takeWhile_cons_of_pos (by simpa using equal)]
      rcases List.mem_cons.mp member with rfl | later
      · exact List.mem_cons_self ..
      · exact List.mem_cons_of_mem _ (ih rest_sorted later (fun n inside => least n (List.mem_cons_of_mem _ inside)))
    · rcases List.mem_cons.mp member with rfl | later
      · exact absurd rfl equal
      · have higher := ahead m later
        omega

theorem tied_ascending {d : Nat} {ranked : List Overload.Match}
    (sorted : ranked.Pairwise (Precedes Overload.Match.distance (fun m n => m.function.index < n.function.index))) :
    ((ranked.takeWhile (fun m => m.distance == d)).map Overload.Match.function).Pairwise
      (fun f g => f.index < g.index) := by
  rw [List.pairwise_map]
  refine (sorted.sublist (List.takeWhile_sublist _)).imp_of_mem ?_
  intro m n first second precedes
  have one := List.mem_takeWhile_imp first
  have other := List.mem_takeWhile_imp second
  simp only [beq_iff_eq] at one other
  rcases precedes with less | ⟨_, index⟩
  · omega
  · exact index

section Ranked
variable {best : Overload.Match} {rest : List Overload.Match}
  (members : ∀ m, m ∈ best :: rest ↔ facts.Suits p call receiver args m.function m.distance)
  (sorted : (best :: rest).Pairwise
    (Precedes Overload.Match.distance (fun m n => m.function.index < n.function.index)))
include members sorted

theorem tied_rivals (ordered : p.scopes.Ordered) :
    ((best :: rest).takeWhile (fun m => m.distance == best.distance)).map Overload.Match.function
      = facts.rivals p call receiver args := by
  have weak : (best :: rest).Pairwise (fun m n => m.distance ≤ n.distance) := by
    apply sorted.imp
    rintro m n (less | ⟨equal, _⟩)
    · exact Nat.le_of_lt less
    · exact Nat.le_of_eq equal
  have least : ∀ n ∈ best :: rest, best.distance ≤ n.distance := by
    intro n member
    rcases List.mem_cons.mp member with rfl | later
    · exact Nat.le_refl _
    · exact (List.pairwise_cons.mp weak).1 n later
  have irreflexive : Std.Irrefl (fun f g : FunctionId => f.index < g.index) := ⟨fun f => Nat.lt_irrefl f.index⟩
  have asymmetric : Std.Antisymm (fun f g : FunctionId => f.index < g.index) :=
    ⟨fun f g forth back => absurd (Nat.lt_trans forth back) (Nat.lt_irrefl _)⟩
  apply List.Pairwise.eq_of_mem_iff (tied_ascending sorted) rivals_sorted
  intro g
  rw [List.mem_map, mem_rivals ordered]
  constructor
  · rintro ⟨m, tied, rfl⟩
    have equal := List.mem_takeWhile_imp tied
    have suits := (members m).mp ((List.takeWhile_sublist _).subset tied)
    simp only [beq_iff_eq] at equal
    refine ⟨m.distance, suits, ?_⟩
    intro f e other
    rw [equal]
    exact least _ ((members ⟨f, e⟩).mpr other)
  · rintro ⟨d, suits, closest⟩
    have listed := (members ⟨g, d⟩).mpr suits
    have lower := closest best.function best.distance ((members best).mp (List.mem_cons_self ..))
    have upper := least _ listed
    have equal : d = best.distance := Nat.le_antisymm lower upper
    subst equal
    exact ⟨⟨g, best.distance⟩, take_while_least weak listed least, rfl⟩

theorem is_ambiguous_iff (ordered : p.scopes.Ordered) :
    Overload.isAmbiguous (best :: rest) = true ↔ 2 ≤ (facts.rivals p call receiver args).length := by
  rw [← tied_rivals members sorted ordered, List.length_map, List.takeWhile_cons_of_pos (by simp)]
  cases rest with
  | nil => simp [Overload.isAmbiguous]
  | cons second others =>
    unfold Overload.isAmbiguous
    by_cases equal : second.distance = best.distance
    · simp [equal]
    · simp [equal, Ne.symm equal]

end Ranked

section Final
variable (consistent : p.Consistent) (ordered : p.scopes.Ordered)
include consistent ordered

variable (valid : facts.Valid p) (complete : facts.Complete p)
include valid complete

end Final

end Facts

end SemanticAnalysis
