import SemanticAnalysis.Proofs.Typing.Ranked
/-!
Names that are typed too early. The second phase can find out itself which variable a name means. A name that means
something else and has not been looked up goes astray there: it is taken for a variable of that name, or it gets no
type. Either is put on record, and nothing mends it later. Where all types are written down, the second phase of a
declaration enters no other declaration but its local variables, so that it reaches all names of its own and no others.
-/
namespace SemanticAnalysis
open Running Analysis SemanticAnalysis.Bound Program Facts

variable {p : Program} {facts after : Facts} {ask : TypeSource}

/-- Every function states its return type, and every declared variable has a written type that is known. -/
def Program.Annotated (p : Program) : Prop := ∀ d, ¬p.Unannotated d

theorem Program.annotated_iff : p.Annotated ↔ p.inferred = [] := by
  rw [List.eq_nil_iff_forall_not_mem]
  exact forall_congr' (fun d => not_congr mem_inferred.symm)

instance (p : Program) : Decidable p.Annotated := decidable_of_iff _ annotated_iff.symm

theorem annotated_ranked (annotated : p.Annotated) (rank : Declaration → Nat) : p.Ranked rank :=
  fun d _ unannotated => absurd unannotated (annotated d)

theorem types_within_still (annotated : p.Annotated) (depth : Nat) (I : Facts → Prop) :
    (p.typesWithin depth).Maintains I := by
  cases depth with
  | zero => exact ⟨fun _ => maintains_throw _, fun _ => maintains_throw _⟩
  | succ depth =>
    constructor
    · intro id
      apply ensures_look_up
      intro v at_
      cases origin : v.origin with
      | parameter function index param => exact ensures_look_up (fun _ _ => maintains_pure _)
      | declared decl =>
        cases written : p.declaredType v with
        | some t => exact maintains_pure _
        | none => exact absurd ⟨v, decl, variable_at_ok_iff.mp at_, origin, written⟩ (annotated (.variable id))
    · intro id
      apply ensures_look_up
      intro f at_
      split
      · exact maintains_pure _
      · rename_i silent
        exact absurd ⟨f, function_at_ok_iff.mp at_, by simpa using silent⟩ (annotated (.function id))

theorem Bound.Node.id_of_identifier {n : Node} {i : Identifier} (same : n.identifier? = some i) :
    n.id? = some i.node := by
  cases n with
  | identifier node name site =>
    cases same
    rfl
  | _ => cases same

namespace Facts
variable {i : Identifier}

def Unsettled (facts : Facts) (i : Identifier) : Prop :=
  facts.referrals.find? i.node = none ∧ facts.types.find? i.node = none

/-- The name was taken for that of a variable, or it was found to have no type. -/
def Astray (facts : Facts) (i : Identifier) : Prop :=
  (∃ v, facts.referrals.find? i.node = some (.variable v)) ∨ facts.types.find? i.node = some none

theorem astray_extends (grows : facts.Extends after) (astray : facts.Astray i) : after.Astray i := by
  rcases astray with ⟨v, means⟩ | untyped
  · exact .inl ⟨v, grows.referrals _ _ means⟩
  · exact .inr (grows.types _ _ untyped)

/-- Nothing is on record about the name, and no phase has been entered or left since. -/
def Spared (facts base : Facts) (i : Identifier) : Prop := facts.phases = base.phases ∧ facts.Unsettled i

def Dormant (p : Program) (facts : Facts) (i : Identifier) : Prop :=
  ∀ v, i ∈ p.identifiers (.variable v) → facts.phases.state (.variable v, .typing) = .unknown

/-- Some names have been typed: the name is astray, or it is not among them and nothing was done about it. -/
def Passes (p : Program) (facts : Facts) (i : Identifier) (names : List Identifier) : Prop :=
  facts.Astray i ∨ facts.Unsettled i ∧ facts.Dormant p i ∧ i ∉ names

theorem spared_tolerates (base : Facts) {n : Node} (other : n.id? ≠ some i.node) :
    Tolerates p (fun facts => facts.Spared base i) n := by
  have absent : ∀ {ν : Type} {t : Table NodeId ν} {id : NodeId} {v : ν}, n.id? = some id → t.find? i.node = none →
      (t.insertNew id v).find? i.node = none := by
    intro ν t id v here none
    have different : i.node ≠ id := by
      rintro rfl
      exact other here
    rw [Table.find_insert_new, if_neg different]
    exact none
  constructor
  · intro j member v _ facts spared
    have here := Node.id_of_identifier (Option.mem_toList.mp member)
    exact ⟨spared.1, absent here spared.2.1, spared.2.2⟩
  · exact fun id here t facts spared => ⟨spared.1, spared.2.1, absent here spared.2.2⟩
  · exact fun id _ f facts spared => spared

end Facts

section Nodes
variable (still : ∀ I, ask.Maintains I) {i : Identifier} {found : List Diagnostic}
include still

/-- Where nobody knows what the name means, it can only be a variable. -/
theorem type_identifier_strays (unsettled : facts.Unsettled i)
    (ran : p.typeIdentifier ask i.node i.name i.site facts = (.ok found, after)) : after.Astray i := by
  obtain ⟨unknown, untyped⟩ := unsettled
  obtain ⟨_, middle, settled, rest⟩ := bind_ok_split ran
  obtain ⟨_, last, typed, ended⟩ := bind_ok_split rest
  cases ended
  unfold Program.settleReferral at settled
  rw [run_bind_ok (run_get _), unknown] at settled
  unfold Program.settleType at typed
  rw [run_bind_ok (run_get _)] at typed
  cases means : p.scopes.findVariable? i.site.scope i.name with
  | some v =>
    simp only [means] at settled
    cases settled
    have known : (facts.recordReferral i.node (.variable v)).referrals.find? i.node = some (.variable v) := by
      unfold Facts.recordReferral
      rw [Table.find_insert_new, if_pos rfl, unknown]
      rfl
    have untyped' : (facts.recordReferral i.node (.variable v)).types.find? i.node = none := untyped
    rw [untyped', known] at typed
    obtain ⟨t, answered, asked, recorded⟩ := bind_ok_split typed
    cases recorded
    obtain ⟨rfl, _⟩ := (still (· = facts.recordReferral i.node (.variable v))).variableType v _ rfl t answered asked
    exact .inl ⟨v, known⟩
  | none =>
    simp only [means] at settled
    cases settled
    rw [untyped, unknown] at typed
    cases typed
    right
    unfold Facts.recordType
    rw [Table.find_insert_new, if_pos rfl, untyped]
    rfl

variable {modules : List Tree.Module} {ds : List Construction.Declared} (lexical : p.Lexical modules ds)
  (mentioned : p.Mentions i)
include lexical mentioned

theorem type_node_strays {n : Node} (has : p.HasNode n) (unsettled : facts.Unsettled i)
    (ran : n.assignTypes p ask facts = (.ok found, after)) :
    after.Astray i ∨ after.Spared facts i ∧ n.identifier? ≠ some i := by
  by_cases here : n.id? = some i.node
  · left
    have same := node_unique lexical has (mentions_iff.mp mentioned) here rfl
    subst same
    exact type_identifier_strays still unsettled ran
  · right
    have tolerates := spared_tolerates (p := p) facts here
    refine ⟨?_, fun same => here (Node.id_of_identifier same)⟩
    exact (type_node_tolerated (still _) tolerates facts ⟨rfl, unsettled⟩ found after ran).1

variable {lax : Prop} {Open : Facts → Declaration → Prop} (source : ask.Backs p lax Open)
include source

theorem type_nodes_stray {ns : List Node} (members : ∀ n ∈ ns, p.HasNode n) (unsettled : facts.Unsettled i)
    (ran : collect (Node.assignTypes p ask) ns facts = (.ok found, after)) :
    after.Astray i ∨ after.Spared facts i ∧ i ∉ ns.filterMap Node.identifier? := by
  let K : List Node → List Diagnostic → Facts → Prop := fun done _ now =>
    now.Astray i ∨ now.Spared facts i ∧ i ∉ done.filterMap Node.identifier?
  have start : K [] [] facts := .inr ⟨⟨rfl, unsettled⟩, by simp⟩
  refine collect_carries (K := K) ?_ start ran
  rintro done n rest now before new later whole (astray | ⟨spared, others⟩) step
  · exact .inl (astray_extends (source.node_grows step) astray)
  · have has : p.HasNode n := members n (by rw [whole]; simp)
    rcases type_node_strays still lexical mentioned has spared.2 step with astray | ⟨spared', other⟩
    · exact .inl astray
    · refine .inr ⟨⟨spared'.1.trans spared.1, spared'.2⟩, ?_⟩
      simp only [List.filterMap_append, List.mem_append, not_or]
      exact ⟨others, by simpa using other⟩

theorem type_variable_strays {id : VariableId} (unsettled : facts.Unsettled i) (dormant : facts.Dormant p i)
    (ran : p.typeVariable ask id facts = (.ok found, after)) : after.Passes p i (p.identifiers (.variable id)) := by
  obtain ⟨v, at_, rest⟩ := look_up_split ran
  have here := variable_at_ok_iff.mp at_
  rcases once_cases rest with ⟨known, rfl⟩ | ⟨running, _, rfl⟩ | ⟨unknown, last, body, rfl⟩
  · refine .inr ⟨unsettled, dormant, fun inside => ?_⟩
    rw [dormant id inside] at known
    cases known
  · refine .inr ⟨unsettled, dormant, fun inside => ?_⟩
    rw [dormant id inside] at running
    cases running
  · obtain ⟨ofInitializer, middle, work, rest⟩ := bind_ok_split body
    obtain ⟨now, _, got, rest⟩ := bind_ok_split rest
    cases got
    obtain ⟨own, _, told, rest⟩ := bind_ok_split rest
    obtain ⟨_, rfl⟩ := Prod.mk.inj told
    cases rest
    rw [Expr.types_option_collect] at work
    have members : ∀ n ∈ Expr.optionNodes v.initializer, p.HasNode n := by
      intro n member
      refine ⟨.variable id, ?_⟩
      rw [nodes_variable here]
      exact member
    have entered : ((Facts.phaseCell (.variable id) .typing).write .inProgress facts).Unsettled i := unsettled
    rcases type_nodes_stray still lexical mentioned source members entered work with astray | ⟨spared, others⟩
    · exact .inl astray
    · have outside : i ∉ p.identifiers (.variable id) := by
        rw [identifiers_variable here]
        exact others
      refine .inr ⟨spared.2, ?_, outside⟩
      intro w inside
      have different : (Declaration.variable w, Phase.typing) ≠ (.variable id, .typing) := by
        intro same
        cases same
        exact outside inside
      rw [state_write, if_neg different]
      change Cells.state middle.phases _ = _
      rw [spared.1, state_write, if_neg different]
      exact dormant w inside

theorem type_step_strays {s : Step} (members : ∀ n ∈ p.stepNodes s, p.HasNode n) (unsettled : facts.Unsettled i)
    (dormant : facts.Dormant p i) (ran : s.assignTypes p ask facts = (.ok found, after)) :
    after.Passes p i ((p.stepNodes s).filterMap Node.identifier?) := by
  -- what spares the name enters no variable
  have passes : ∀ {now : Facts} {names : List Identifier}, now.Spared facts i → i ∉ names → now.Passes p i names := by
    intro now names spared others
    refine .inr ⟨spared.2, ?_, others⟩
    intro v inside
    rw [spared.1]
    exact dormant v inside
  cases s with
  | node n =>
    rcases type_node_strays still lexical mentioned (members n (List.mem_singleton_self n)) unsettled ran with
      astray | ⟨spared, other⟩
    · exact .inl astray
    · exact passes spared (by simpa [Program.stepNodes] using other)
  | introduce id =>
    have passes := type_variable_strays still lexical mentioned source unsettled dormant ran
    rw [identifiers_eq] at passes
    exact passes
  | assign target value site =>
    simp only [Step.assignTypes, Expr.types_collect] at ran
    obtain ⟨ofTarget, middle, first, rest⟩ := bind_ok_split ran
    obtain ⟨ofValue, last, second, rest⟩ := bind_ok_split rest
    obtain ⟨own, _, third, ended⟩ := bind_ok_split rest
    cases ended
    obtain ⟨rfl, _⟩ := assignment_findings_maintain (I := (· = last)) target site last rfl own _ third
    have ofTargets : ∀ n ∈ target.nodes, p.HasNode n := fun n among => members n (List.mem_append_left _ among)
    have ofValues : ∀ n ∈ value.nodes, p.HasNode n := fun n among => members n (List.mem_append_right _ among)
    rcases type_nodes_stray still lexical mentioned source ofTargets unsettled first with astray | ⟨spared, others⟩
    · exact .inl (astray_extends (source.nodes_grow second) astray)
    · rcases type_nodes_stray still lexical mentioned source ofValues spared.2 second with astray | ⟨spared', others'⟩
      · exact .inl astray
      · apply passes ⟨spared'.1.trans spared.1, spared'.2⟩
        simp only [Program.stepNodes, List.filterMap_append, List.mem_append, not_or]
        exact ⟨others, others'⟩

theorem type_steps_stray {steps : List Step} (members : ∀ n ∈ p.stepsNodes steps, p.HasNode n)
    (unsettled : facts.Unsettled i) (dormant : facts.Dormant p i)
    (ran : collect (Step.assignTypes p ask) steps facts = (.ok found, after)) :
    after.Passes p i ((p.stepsNodes steps).filterMap Node.identifier?) := by
  let K : List Step → List Diagnostic → Facts → Prop := fun done _ now =>
    now.Passes p i ((p.stepsNodes done).filterMap Node.identifier?)
  have start : K [] [] facts := .inr ⟨unsettled, dormant, by simp [Program.stepsNodes]⟩
  refine collect_carries (K := K) ?_ start ran
  rintro done s rest now before new later whole (astray | ⟨unsettled', dormant', others⟩) step
  · exact .inl (astray_extends (source.step_grows step) astray)
  · have inside : ∀ n ∈ p.stepNodes s, p.HasNode n := by
      intro n among
      apply members n
      rw [whole]
      exact List.mem_flatMap.mpr ⟨s, by simp, among⟩
    rcases type_step_strays still lexical mentioned source inside unsettled' dormant' step with
      astray | ⟨unsettled'', dormant'', others'⟩
    · exact .inl astray
    · refine .inr ⟨unsettled'', dormant'', ?_⟩
      simp only [steps_nodes_append, List.filterMap_append, List.mem_append, not_or]
      exact ⟨others, by simpa [Program.stepsNodes] using others'⟩

theorem type_function_strays {id : FunctionId} (member : i ∈ p.identifiers (.function id))
    (unsettled : facts.Unsettled i) (dormant : facts.Dormant p i)
    (unknown : facts.phases.state (.function id, .typing) = .unknown)
    (ran : p.typeFunction ask id facts = (.ok found, after)) : after.Astray i := by
  obtain ⟨f, at_, rest⟩ := look_up_split ran
  have here := function_at_ok_iff.mp at_
  obtain ⟨last, body, rfl⟩ := once_enters unknown rest
  obtain ⟨ofBody, middle, work, rest⟩ := bind_ok_split body
  obtain ⟨now, _, got, rest⟩ := bind_ok_split rest
  cases got
  obtain ⟨inferred, _, told, rest⟩ := bind_ok_split rest
  obtain ⟨_, rfl⟩ := Prod.mk.inj told
  cases rest
  rw [Block.types_option_collect] at work
  have members : ∀ n ∈ p.stepsNodes (Block.optionSteps f.body), p.HasNode n := by
    intro n among
    refine ⟨.function id, ?_⟩
    rw [nodes_function here]
    exact among
  have entered : ((Facts.phaseCell (.function id) .typing).write .inProgress facts).Unsettled i := unsettled
  have dormant' : ((Facts.phaseCell (.function id) .typing).write .inProgress facts).Dormant p i := by
    intro v inside
    rw [state_write, if_neg (by simp)]
    exact dormant v inside
  rcases type_steps_stray still lexical mentioned source members entered dormant' work with astray | ⟨_, _, others⟩
  · exact astray
  · rw [identifiers_eq, nodes_function here] at member
    exact absurd member others

theorem type_struct_strays {id : StructId} (member : i ∈ p.identifiers (.struct id)) (unsettled : facts.Unsettled i)
    (unknown : facts.phases.state (.struct id, .typing) = .unknown)
    (ran : p.typeStruct ask id facts = (.ok found, after)) : after.Astray i := by
  obtain ⟨s, at_, rest⟩ := look_up_split ran
  have here := struct_at_ok_iff.mp at_
  obtain ⟨last, body, rfl⟩ := once_enters unknown rest
  rw [Expr.types_all_collect] at body
  have members : ∀ n ∈ Expr.allNodes s.defaults, p.HasNode n := by
    intro n among
    refine ⟨.struct id, ?_⟩
    rw [nodes_struct here]
    exact among
  have entered : ((Facts.phaseCell (.struct id) .typing).write .inProgress facts).Unsettled i := unsettled
  rcases type_nodes_stray still lexical mentioned source members entered body with astray | ⟨_, others⟩
  · exact astray
  · rw [identifiers_eq, nodes_struct here] at member
    exact absurd member others

end Nodes

theorem unprimed_untouched {lax : Prop} {i : Identifier} (mentioned : p.Mentions i) (typing : facts.Typing p lax)
    (idle : ∀ d, facts.phases.state (d, .typing) ≠ .inProgress) (unprimed : ¬facts.Primes p i) :
    facts.Unsettled i ∧ ∀ d, i ∈ p.identifiers d → facts.phases.state (d, .typing) = .unknown := by
  have unfound : ¬facts.Finds p i := fun finds => unprimed (fun r means _ => finds.trans means)
  have untyped : ¬facts.Typed (some i.node) := fun typed => unfound (typing.finds i mentioned typed)
  refine ⟨⟨?_, ?_⟩, ?_⟩
  · cases stored : facts.referrals.find? i.node with
    | none => rfl
    | some r => exact absurd (stored.trans (typing.named.sound i mentioned r stored).symm) unfound
  · cases stored : facts.types.find? i.node with
    | none => rfl
    | some t =>
      refine absurd ?_ untyped
      intro id same
      cases same
      exact ⟨t, stored⟩
  · intro d member
    cases state : facts.phases.state (d, .typing) with
    | unknown => rfl
    | inProgress => exact absurd state (idle d)
    | computed found =>
      rw [identifiers_eq] at member
      obtain ⟨n, among, same⟩ := List.mem_filterMap.mp member
      have typed := ((typing.cells d found state).nodes n among).1
      rw [Node.id_of_identifier same] at typed
      exact absurd typed untyped

/-- Where all types are written down, the second phase leads astray each name that must be known and is not. -/
theorem typing_leads_astray {modules : List Tree.Module} {ds : List Construction.Declared}
    (lexical : p.Lexical modules ds) (annotated : p.Annotated) {lax : Prop} (typing : facts.Typing p lax)
    (idle : ∀ d, facts.phases.state (d, .typing) ≠ .inProgress) {d : Declaration} {i : Identifier}
    (member : i ∈ p.identifiers d) (unprimed : ¬facts.Primes p i) {found : List Diagnostic}
    (ran : p.runPhase d .typing facts = (.ok found, after)) : after.Astray i := by
  have mentioned : p.Mentions i := ⟨d, member⟩
  have still := types_within_still annotated (p.functions.size + p.vars.size + 1)
  have source := types_within_back lexical (ranked_regime (annotated_ranked annotated (fun _ => 0)))
    (p.functions.size + p.vars.size + 1)
  obtain ⟨unsettled, untouched⟩ := unprimed_untouched mentioned typing idle unprimed
  have dormant : facts.Dormant p i := fun v inside => untouched _ inside
  cases d with
  | function g =>
    exact type_function_strays still lexical mentioned source member unsettled dormant (untouched _ member) ran
  | «variable» v =>
    rcases type_variable_strays still lexical mentioned source unsettled dormant ran with astray | ⟨_, _, others⟩
    · exact astray
    · exact absurd member others
  | struct s => exact type_struct_strays still lexical mentioned source member unsettled (untouched _ member) ran

end SemanticAnalysis
