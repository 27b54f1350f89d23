import SemanticAnalysis.Proofs.Typing.Findings
import SemanticAnalysis.Proofs.Typing.Regime
/-!
What the second phase leaves behind. A declaration is typed from inside its own cell, after its names have been looked
up. This phase can find out itself which variable a name means, so that only names for something else must have been
looked up before. When the cell of a declaration is closed, all its nodes have a type on record, and its findings are
those that the records give then and ever after. Declarations are typed in any order that a regime allows.
-/
namespace SemanticAnalysis
open Running Analysis SemanticAnalysis.Bound Program Facts Table

namespace Facts
variable {p : Program} {lax : Prop} {facts after : Facts}

structure TypesDone (p : Program) (facts : Facts) (d : Declaration) (found : List Diagnostic) : Prop where
  findings : found = p.typeFindings facts d
  nodes : ∀ n ∈ p.nodesOf d, facts.Covers n
  locals : ∀ g, d = .function g → ∀ v, p.Local g v → facts.Done (.variable v) .typing
  variableType : ∀ v, d = .variable v → ∃ t, facts.variableTypes.find? v = some t
  returnType : ∀ g, d = .function g → ∃ t, facts.returnTypes.find? g = some t

variable {d : Declaration}

theorem types_done_extends (grows : facts.Adds after) {found : List Diagnostic}
    (kept : ∀ v, facts.Done (.variable v) .typing → after.Done (.variable v) .typing)
    (done : facts.TypesDone p d found) : after.TypesDone p d found := by
  constructor
  · rw [declaration_findings_extend grows.types done.nodes]
    exact done.findings
  · exact fun n member => covers_extends grows.types (done.nodes n member)
  · exact fun g same v own => kept v (done.locals g same v own)
  · intro v same
    obtain ⟨t, found⟩ := done.variableType v same
    exact ⟨t, grows.variableTypes _ _ found⟩
  · intro g same
    obtain ⟨t, found⟩ := done.returnType g same
    exact ⟨t, grows.returnTypes _ _ found⟩

/-- A state in which declarations may be typed. -/
structure Typing (p : Program) (lax : Prop) (facts : Facts) : Prop where
  named : facts.Named p
  resting : ∀ d, facts.phases.state (d, .resolution) ≠ .inProgress
  grounded : facts.Grounded p lax
  finds : ∀ i, p.Mentions i → facts.Typed (some i.node) → facts.Finds p i
  cells : ∀ d found, facts.phases.state (d, .typing) = .computed found → facts.TypesDone p d found

theorem typing_empty : Typing p lax {} := by
  refine ⟨named_empty, ?_, grounded_empty, ?_, ?_⟩
  · intro d
    simp [Cells.state]
  · intro i _ typed
    obtain ⟨t, impossible⟩ := typed i.node rfl
    simp at impossible
  · intro d found state
    simp [Cells.state] at state

theorem typing_extends (typing : facts.Typing p lax) (grows : facts.Extends after)
    (same : ∀ d, after.phases.state (d, .typing) = facts.phases.state (d, .typing)) (named : after.Named p)
    (grounded : after.Grounded p lax) (finds : ∀ i, p.Mentions i → after.Typed (some i.node) → after.Finds p i) :
    after.Typing p lax := by
  refine ⟨named, ?_, grounded, finds, ?_⟩
  · exact fun d running => typing.resting d ((grows.phases.running _).mp running)
  · intro d found state
    rw [same] at state
    exact types_done_extends grows.adds (fun v done => done_extends grows done) (typing.cells d found state)

theorem typing_names (typing : facts.Typing p lax) (grows : facts.Extends after) (only : facts.NamesOnly after)
    (named : after.Named p) : after.Typing p lax := by
  apply typing_extends typing grows (fun d => only.phases d .typing (by simp)) named
    (grounded_same typing.grounded only.types only.dispatched only.variableTypes only.returnTypes)
  intro i mentioned typed
  unfold Typed at typed
  rw [only.types] at typed
  exact finds_extends grows (named.sound i mentioned) (typing.finds i mentioned typed)

theorem typing_records (typing : facts.Typing p lax) (grows : facts.Extends after)
    (phases : after.phases = facts.phases) (referrals : after.referrals = facts.referrals)
    (grounded : after.Grounded p lax)
    (finds : ∀ i, p.Mentions i → after.Typed (some i.node) → facts.Typed (some i.node) ∨ facts.Finds p i) :
    after.Typing p lax := by
  apply typing_extends typing grows (fun d => by rw [phases])
    (named_same typing.named referrals (fun d => by rw [phases])) grounded
  intro i mentioned typed
  unfold Finds
  rw [referrals]
  exact (finds i mentioned typed).elim (typing.finds i mentioned) id

theorem record_type_finds {modules : List Tree.Module} {ds : List Construction.Declared}
    (lexical : p.Lexical modules ds) {n : Node} {id : NodeId} (has : p.HasNode n) (same : n.id? = some id)
    (known : ∀ i ∈ n.identifier?.toList, facts.Finds p i) (t : Option TypeRef) :
    ∀ i, p.Mentions i → (facts.recordType id t).Typed (some i.node) → facts.Typed (some i.node) ∨ facts.Finds p i := by
  intro i mentioned typed
  by_cases here : i.node = id
  · right
    have equal := node_unique lexical has (mentions_iff.mp mentioned) same (congrArg some here)
    apply known i
    rw [equal]
    exact List.mem_singleton_self _
  · left
    intro k equal
    cases equal
    obtain ⟨s, found⟩ := typed i.node rfl
    unfold recordType at found
    rw [find_insert_new, if_neg here] at found
    exact ⟨s, found⟩

theorem done_write {e : Declaration} {phase other : Phase} {m : Memo (List Diagnostic)}
    (harmless : m ≠ .inProgress ∨ facts.phases.state (d, phase) = .unknown) (left : m ≠ .unknown)
    (done : facts.Done e other) : ((phaseCell d phase).write m facts).Done e other := by
  obtain ⟨found, state⟩ := done
  unfold Done
  rw [state_write]
  split
  · rename_i same
    cases m with
    | computed value => exact ⟨value, rfl⟩
    | unknown => exact absurd rfl left
    | inProgress =>
      rcases harmless with finished | unknown
      · exact absurd rfl finished
      · rw [same, unknown] at state
        cases state
  · exact ⟨found, state⟩

theorem adds_write (d : Declaration) (phase : Phase) (m : Memo (List Diagnostic)) (facts : Facts) :
    facts.Adds ((phaseCell d phase).write m facts) :=
  ⟨grows_refl _, grows_refl _, grows_refl _, grows_refl _⟩

theorem typing_write {m : Memo (List Diagnostic)} (typing : facts.Typing p lax)
    (cells : ∀ e found, ((phaseCell d .typing).write m facts).phases.state (e, .typing) = .computed found →
      ((phaseCell d .typing).write m facts).TypesDone p e found) :
    ((phaseCell d .typing).write m facts).Typing p lax := by
  have names : ∀ e, ((phaseCell d .typing).write m facts).phases.state (e, .resolution)
      = facts.phases.state (e, .resolution) := by
    intro e
    rw [state_write, if_neg (by simp)]
  refine ⟨named_same typing.named rfl names, ?_, grounded_same typing.grounded rfl rfl rfl rfl, typing.finds, cells⟩
  intro e
  rw [names]
  exact typing.resting e

theorem typing_enter (typing : facts.Typing p lax)
    (unknown : facts.phases.state (d, .typing) = .unknown) :
    ((phaseCell d .typing).write .inProgress facts).Typing p lax := by
  apply typing_write typing
  intro e found state
  rw [state_write] at state
  split at state
  · cases state
  · exact types_done_extends (adds_write _ _ _ _) (fun v done => done_write (.inr unknown) (by simp) done)
      (typing.cells e found state)

theorem typing_leave {found : List Diagnostic} (typing : facts.Typing p lax)
    (done : facts.TypesDone p d found) : ((phaseCell d .typing).write (.computed found) facts).Typing p lax := by
  apply typing_write typing
  intro e more state
  have kept : ∀ v, facts.Done (.variable v) .typing →
      ((phaseCell d .typing).write (.computed found) facts).Done (.variable v) .typing :=
    fun v done => done_write (.inl (by simp)) (by simp) done
  rw [state_write] at state
  split at state
  · rename_i same
    cases same
    cases state
    exact types_done_extends (adds_write _ _ _ _) kept done
  · exact types_done_extends (adds_write _ _ _ _) kept (typing.cells e more state)

/-- If the name means something other than a variable, this is on record. -/
def Primes (p : Program) (facts : Facts) (i : Identifier) : Prop :=
  ∀ r, p.referral? i.site.scope i.name = some r → (∀ v, r ≠ .variable v) → facts.referrals.find? i.node = some r

def Primed (p : Program) (facts : Facts) (d : Declaration) : Prop := ∀ i ∈ p.identifiers d, facts.Primes p i

theorem primed_extends (grows : facts.Extends after) (primed : facts.Primed p d) : after.Primed p d :=
  fun i member r means other => grows.referrals _ _ (primed i member r means other)

theorem primed_done (named : facts.Named p) (done : facts.Done d .resolution) : facts.Primed p d := by
  obtain ⟨found, state⟩ := done
  intro i member r means _
  rw [(named.cells d found state).names i member]
  exact means

theorem primed_local {g : FunctionId} {v : VariableId} (own : p.Local g v) (primed : facts.Primed p (.function g)) :
    facts.Primed p (.variable v) := by
  obtain ⟨f, here, introduces⟩ := own
  intro i member
  apply primed i
  rw [identifiers_eq, nodes_function here]
  rw [identifiers_eq] at member
  obtain ⟨n, among, same⟩ := List.mem_filterMap.mp member
  exact List.mem_filterMap.mpr ⟨n, introduced_nodes_member introduces among, same⟩

end Facts

/-- The answers of a source are backed, and the facts they leave behind are in order. -/
structure TypeSource.Backs (p : Program) (lax : Prop) (Open : Facts → Declaration → Prop) (ask : TypeSource) :
    Prop where
  grows : ask.Agree (fun _ => True) ask
  variableType : ∀ v facts t after, facts.Typing p lax → (p.Unannotated (.variable v) → Open facts (.variable v)) →
    ask.variableType v facts = (.ok t, after) →
    after.Typing p lax ∧ Allows lax (p.givenType v) (after.variableTypes.find? v) t
  returnType : ∀ g facts t after, facts.Typing p lax → (p.Unannotated (.function g) → Open facts (.function g)) →
    ask.returnType g facts = (.ok t, after) →
    after.Typing p lax ∧ Allows lax (p.givenReturn g) (after.returnTypes.find? g) t

/-- The declaration is being typed: its names are known as far as need be, and what it uses may be asked for. -/
structure Facts.Inside (p : Program) (Open : Facts → Declaration → Prop) (facts : Facts) (d : Declaration) : Prop where
  primed : facts.Primed p d
  asks : ∀ e, p.Uses d e → p.Unannotated e → Open facts e

variable {p : Program} {lax : Prop} {Open : Facts → Declaration → Prop} {ask : TypeSource} {facts after : Facts}

theorem inside_extends (regime : Regime p lax Open) {d : Declaration} (grows : facts.Extends after)
    (inside : facts.Inside p Open d) : after.Inside p Open d :=
  ⟨primed_extends grows inside.primed, fun e uses inferred => regime.stable grows (inside.asks e uses inferred)⟩

theorem inside_entered (regime : Regime p lax Open) {d : Declaration} (primed : facts.Primed p d)
    (allowed : Open facts d) (unknown : facts.phases.state (d, .typing) = .unknown) :
    ((Facts.phaseCell d .typing).write .inProgress facts).Inside p Open d :=
  ⟨primed, fun _ uses inferred => regime.asks allowed unknown uses inferred⟩

theorem TypeSource.Backs.variable_grows (source : ask.Backs p lax Open) {v : VariableId} {t : Option TypeRef}
    (ran : ask.variableType v facts = (.ok t, after)) : facts.Extends after := by
  have grows := (source.grows.1 v facts trivial).2
  rw [ran] at grows
  exact grows

theorem TypeSource.Backs.return_grows (source : ask.Backs p lax Open) {g : FunctionId} {t : Option TypeRef}
    (ran : ask.returnType g facts = (.ok t, after)) : facts.Extends after := by
  have grows := (source.grows.2 g facts trivial).2
  rw [ran] at grows
  exact grows

variable {found : List Diagnostic}

theorem TypeSource.Backs.node_grows (source : ask.Backs p lax Open) {n : Node}
    (ran : n.assignTypes p ask facts = (.ok found, after)) : facts.Extends after := by
  have grows := (type_node_agrees (p := p) (fun _ _ _ _ => trivial) source.grows n facts trivial).2
  rw [ran] at grows
  exact grows

theorem TypeSource.Backs.nodes_grow (source : ask.Backs p lax Open) {ns : List Node}
    (ran : collect (Node.assignTypes p ask) ns facts = (.ok found, after)) : facts.Extends after := by
  have grows := (type_nodes_agree (p := p) (fun _ _ _ _ => trivial) source.grows ns facts trivial).2
  rw [ran] at grows
  exact grows

theorem TypeSource.Backs.step_grows (source : ask.Backs p lax Open) {s : Step}
    (ran : s.assignTypes p ask facts = (.ok found, after)) : facts.Extends after := by
  have grows := (type_step_agrees (p := p) region_true source.grows s facts trivial).2
  rw [ran] at grows
  exact grows

theorem record_type_typed (id : NodeId) (t : Option TypeRef) (facts : Facts) :
    (facts.recordType id t).Typed (some id) := by
  intro k same
  cases same
  exact insert_new_recorded _ _ _

theorem settle_referral_run {node : NodeId} {name : String} {site : Site}
    (finds : facts.referrals.find? node = p.referral? site.scope name) :
    p.settleReferral node name site facts = (.ok ((Node.identifier node name site).typeFindings p facts), facts) := by
  unfold Program.settleReferral
  rw [run_bind_ok (run_get _), Node.typeFindings, finds]
  cases means : p.referral? site.scope name with
  | some r => rfl
  | none =>
    have absent : p.scopes.findVariable? site.scope name = none := by
      unfold Program.referral? at means
      split at means
      · cases means
      · split at means
        · cases means
        · exact Option.map_eq_none_iff.mp (Option.or_eq_none_iff.mp means).1
    rw [absent]
    rfl

section Nodes
variable {modules : List Tree.Module} {ds : List Construction.Declared} (lexical : p.Lexical modules ds)
  (source : ask.Backs p lax Open) {found : List Diagnostic}
include lexical source

omit source in
theorem settle_referral_finds {i : Identifier} (mentioned : p.Mentions i) (named : facts.Named p)
    (primes : facts.Primes p i) (ran : p.settleReferral i.node i.name i.site facts = (.ok found, after)) :
    found = (Node.identifier i.node i.name i.site).typeFindings p facts ∧ facts.Extends after ∧
      facts.NamesOnly after ∧ after.Named p ∧ after.Finds p i := by
  by_cases finds : facts.Finds p i
  · rw [settle_referral_run finds] at ran
    cases ran
    exact ⟨rfl, extends_refl facts, names_only_refl facts, named, finds⟩
  · -- the name means a variable that nobody has looked up
    have unknown : facts.referrals.find? i.node = none := by
      cases stored : facts.referrals.find? i.node with
      | none => rfl
      | some r => exact absurd (stored.trans (named.sound i mentioned r stored).symm) finds
    obtain ⟨v, means⟩ : ∃ v, p.referral? i.site.scope i.name = some (.variable v) := by
      cases means : p.referral? i.site.scope i.name with
      | none => exact absurd (unknown.trans means.symm) finds
      | some r =>
        apply Classical.byContradiction
        intro other
        have known := primes r means (fun v same => other ⟨v, by rw [same]⟩)
        rw [unknown] at known
        cases known
    unfold Program.settleReferral at ran
    rw [run_bind_ok (run_get _), unknown] at ran
    simp only [referral_variable means] at ran
    cases ran
    obtain ⟨named', finds'⟩ := record_referral_named lexical mentioned named means
    refine ⟨by simp [Node.typeFindings, means], facts.extends_record_referral _ _, ?_, named', finds'⟩
    exact { names_only_refl facts with }

omit lexical in
theorem referred_type_backed {d : Declaration} {node : NodeId} {name : String} {site : Site} {t : Option TypeRef}
    (member : .identifier node name site ∈ p.nodesOf d) (typing : facts.Typing p lax) (inside : facts.Inside p Open d)
    (ran : Program.referredType ask (p.referral? site.scope name) facts = (.ok t, after)) :
    after.Typing p lax ∧ facts.Extends after ∧ after.Backed p lax (.identifier node name site) t := by
  simp only [Facts.Backed]
  cases means : p.referral? site.scope name with
  | none =>
    rw [means] at ran
    cases ran
    exact ⟨typing, extends_refl facts, rfl⟩
  | some r =>
    rw [means] at ran
    cases r with
    | «variable» v =>
      have allowed : p.Unannotated (.variable v) → Open facts (.variable v) :=
        inside.asks (.variable v) ⟨_, member, means⟩
      obtain ⟨typing', allows⟩ := source.variableType v facts t after typing allowed ran
      exact ⟨typing', source.variable_grows ran, allows⟩
    | _ =>
      cases ran
      exact ⟨typing, extends_refl facts, rfl⟩

theorem type_identifier_typed (regime : Regime p lax Open) {d : Declaration} {node : NodeId} {name : String}
    {site : Site} (member : .identifier node name site ∈ p.nodesOf d) (typing : facts.Typing p lax)
    (inside : facts.Inside p Open d)
    (ran : p.typeIdentifier ask node name site facts = (.ok found, after)) :
    after.Typing p lax ∧ found = (Node.identifier node name site).typeFindings p after ∧ after.Typed (some node) ∧
      after.Finds p ⟨node, name, site⟩ := by
  have has : p.HasNode (.identifier node name site) := ⟨d, member⟩
  have listed : ⟨node, name, site⟩ ∈ p.identifiers d := by
    rw [identifiers_eq]
    exact List.mem_filterMap.mpr ⟨_, member, rfl⟩
  obtain ⟨findings, middle, settled, rest⟩ := bind_ok_split ran
  obtain ⟨_, last, typed, ended⟩ := bind_ok_split rest
  cases ended
  obtain ⟨rfl, further, only, named, finds⟩ :=
    settle_referral_finds lexical (i := ⟨node, name, site⟩) ⟨d, listed⟩ typing.named (inside.primed _ listed) settled
  have typing := typing_names typing further only named
  have inside := inside_extends regime further inside
  obtain ⟨now, _, got, rest⟩ := bind_ok_split typed
  cases got
  cases known : middle.types.find? node with
  | some t =>
    rw [known] at rest
    cases rest
    refine ⟨typing, rfl, ?_, finds⟩
    intro k same
    cases same
    exact ⟨t, known⟩
  | none =>
    have means : middle.referrals.find? node = p.referral? site.scope name := finds
    rw [known, means] at rest
    obtain ⟨t, answered, asked, recorded⟩ := bind_ok_split rest
    cases recorded
    obtain ⟨typing', grows, backed⟩ := referred_type_backed source member typing inside asked
    have finds' : answered.Finds p ⟨node, name, site⟩ :=
      finds_extends grows (typing'.named.sound _ ⟨d, listed⟩) finds
    have none_typed : answered.OperandsTyped (.identifier node name site) := by
      intro e operand
      cases operand
    have grounded := grounded_record_type lexical typing'.grounded has rfl none_typed backed
    have known : ∀ i ∈ (Node.identifier node name site).identifier?.toList, answered.Finds p i := by
      intro i only
      rw [List.mem_singleton.mp only]
      exact finds'
    exact ⟨typing_records typing' (answered.extends_record_type _ _) rfl rfl grounded
      (record_type_finds lexical has rfl known t), rfl, record_type_typed _ _ _, finds'⟩

omit lexical in
theorem value_type_allowed {call : Invocation} {f : FunctionId} {value : Option TypeRef} (typing : facts.Typing p lax)
    (allowed : p.Unannotated (.function f) → Open facts (.function f))
    (ran : p.valueType ask call f facts = (.ok value, after)) :
    after.Typing p lax ∧ facts.Extends after ∧
      if Program.yieldsBoolean call then value = some (p.types.withImpliedModifier (.simple .boolean))
      else Allows lax (p.givenReturn f) (after.returnTypes.find? f) value := by
  unfold Program.valueType at ran
  split at ran
  · rename_i boolean
    cases ran
    exact ⟨typing, extends_refl facts, by rw [if_pos boolean]⟩
  · rename_i other
    obtain ⟨typing', allows⟩ := source.returnType _ facts value after typing allowed ran
    refine ⟨typing', source.return_grows ran, ?_⟩
    rw [if_neg other]
    exact allows

theorem settle_dispatch_typed {d : Declaration} {call : Invocation} {receiver : Option Expr} {args : List Expr}
    {best : Overload.Match} {rest : List Overload.Match} {own : List Diagnostic}
    (member : .call call receiver args ∈ p.nodesOf d) (typing : facts.Typing p lax) (inside : facts.Inside p Open d)
    (operands : facts.OperandsTyped (.call call receiver args))
    (findings : p.callFindings call (receiver.map (Expr.type facts)) (args.map (Expr.type facts)) = .ok own)
    (ordered : p.ranked call (receiver.map (Expr.type facts)) (args.map (Expr.type facts)) = .ok (best :: rest))
    (ran : p.settleDispatch ask call best.function
      ((receiver.map (Expr.type facts)).map (fun t => t.getD .nullableAny)) facts = (.ok (), after)) :
    after.Typing p lax ∧ after.Typed (some call.node) := by
  have has : p.HasNode (.call call receiver args) := ⟨d, member⟩
  have allowed : p.Unannotated (.function best.function) → Open facts (.function best.function) :=
    inside.asks (.function best.function) ⟨_, member, ranked_visible ordered⟩
  obtain ⟨now, _, got, work⟩ := bind_ok_split ran
  cases got
  cases known : facts.dispatched.find? call.node with
  | some f =>
    rw [known] at work
    cases work
    obtain ⟨_, typed, _⟩ := typing.grounded.dispatched _ _ f has rfl known
    exact ⟨typing, typed⟩
  | none =>
    rw [known] at work
    obtain ⟨t, answered, asked, recorded⟩ := bind_ok_split work
    cases recorded
    obtain ⟨value, _, given, ended⟩ := bind_ok_split asked
    cases ended
    obtain ⟨typing', grows, gives⟩ := value_type_allowed source typing allowed given
    obtain ⟨ofReceiver, ofArgs⟩ := call_operands_extend grows.types operands
    rw [← ofReceiver, ← ofArgs] at findings ordered
    have grounded := grounded_record_dispatch lexical typing'.grounded has
      (operands_typed_extends grows.types operands) findings ordered ⟨value, gives, rfl⟩
    rw [ofReceiver] at grounded
    refine ⟨typing_records typing' ?_ rfl rfl grounded
      (record_type_finds lexical has rfl (by simp [Node.identifier?]) _), record_type_typed _ _ _⟩
    exact extends_trans (answered.extends_record_dispatch _ _) (extends_record_type _ _ _)

variable (regime : Regime p lax Open)
include regime

theorem type_node_typed {d : Declaration} {n : Node} (member : n ∈ p.nodesOf d) (typing : facts.Typing p lax)
    (inside : facts.Inside p Open d) (operands : facts.OperandsTyped n)
    (ran : n.assignTypes p ask facts = (.ok found, after)) :
    after.Typing p lax ∧ found = n.typeFindings p after ∧ after.Typed n.id? ∧
      ∀ i ∈ n.identifier?.toList, after.Finds p i := by
  have has : p.HasNode n := ⟨d, member⟩
  have grows := source.node_grows ran
  cases n with
  | identifier node name site =>
    obtain ⟨typing', findings, typed, finds⟩ := type_identifier_typed lexical source regime member typing inside ran
    refine ⟨typing', findings, typed, ?_⟩
    intro i only
    rw [List.mem_singleton.mp only]
    exact finds
  | number numeral site =>
    cases ran
    exact ⟨typing, rfl, (fun k same => by cases same), by simp [Node.identifier?]⟩
  | call call receiver args =>
    obtain ⟨now, _, got, work⟩ := bind_ok_split ran
    cases got
    obtain ⟨own, findings, rfl, outcome⟩ := type_invocation_cases work
    have same := node_findings_extend (p := p) grows.types operands
    rw [same, Node.typeFindings, findings]
    rcases outcome with ⟨nothing, rfl⟩ | ⟨best, rest, ordered, settled⟩
    · have backed : facts.Backed p lax (.call call receiver args) none := ⟨⟨own, findings⟩, .inl ⟨nothing, rfl⟩⟩
      have grounded := grounded_record_type lexical typing.grounded has rfl operands backed
      exact ⟨typing_records typing (facts.extends_record_type _ _) rfl rfl grounded
        (record_type_finds lexical has rfl (by simp [Node.identifier?]) none), rfl, record_type_typed _ _ _,
        by simp [Node.identifier?]⟩
    · obtain ⟨typing', typed⟩ := settle_dispatch_typed lexical source member typing inside operands findings ordered
        settled
      exact ⟨typing', rfl, typed, by simp [Node.identifier?]⟩
  | member node object name nullSafe site =>
    obtain ⟨now, _, got, work⟩ := bind_ok_split ran
    cases got
    rw [type_member_run (type_member_looked work)] at work
    cases work
    have grounded := grounded_record_type lexical typing.grounded has rfl operands
      (t := p.memberGives (object.type facts) name) rfl
    refine ⟨typing_records typing (facts.extends_record_type _ _) rfl rfl grounded
      (record_type_finds lexical has rfl (by simp [Node.identifier?]) _), ?_, record_type_typed _ _ _,
      by simp [Node.identifier?]⟩
    exact (node_findings_extend (p := p) grows.types operands).symm

theorem type_nodes_typed {d : Declaration} {ns : List Node} (members : ns ⊆ p.nodesOf d) (order : PostOrder [] ns)
    (typing : facts.Typing p lax) (inside : facts.Inside p Open d)
    (ran : collect (Node.assignTypes p ask) ns facts = (.ok found, after)) :
    after.Typing p lax ∧ found = ns.flatMap (Node.typeFindings p after) ∧ (∀ n ∈ ns, after.Covers n) ∧
      ∀ i ∈ ns.filterMap Node.identifier?, after.Finds p i := by
  let K : List Node → List Diagnostic → Facts → Prop := fun done before now =>
    facts.Extends now ∧ now.Typing p lax ∧ before = done.flatMap (Node.typeFindings p now) ∧
      (∀ n ∈ done, now.Covers n) ∧ ∀ i ∈ done.filterMap Node.identifier?, now.Finds p i
  have start : K [] [] facts := ⟨extends_refl facts, typing, rfl, by simp, by simp⟩
  refine (collect_carries (K := K) ?_ start ran).2
  rintro done n rest now before new later whole ⟨grows, typing', findings, covers, names⟩ step
  have operands : now.OperandsTyped n := by
    rw [whole] at order
    intro e operand id same
    obtain ⟨m, earlier, there⟩ := post_order_at order e operand id same
    exact (covers m earlier).1 id there
  have member : n ∈ p.nodesOf d := members (by rw [whole]; simp)
  have among : ∀ i ∈ done.filterMap Node.identifier?, p.Mentions i := by
    intro i inside
    obtain ⟨m, earlier, same⟩ := List.mem_filterMap.mp inside
    refine ⟨d, ?_⟩
    rw [identifiers_eq]
    exact List.mem_filterMap.mpr ⟨m, members (by rw [whole]; exact List.mem_append_left _ earlier), same⟩
  obtain ⟨typing'', own, typed, finds⟩ :=
    type_node_typed lexical source regime member typing' (inside_extends regime grows inside) operands step
  have further := source.node_grows step
  refine ⟨extends_trans grows further, typing'', ?_, ?_, ?_⟩
  · rw [findings, own, List.flatMap_append, List.flatMap_singleton, nodes_findings_extend further.types covers]
  · exact each_snoc (fun m earlier => covers_extends further.types (covers m earlier))
      ⟨typed, operands_typed_extends further.types operands⟩
  · intro i inside
    rw [List.filterMap_append] at inside
    rcases List.mem_append.mp inside with earlier | last
    · exact finds_extends further (typing''.named.sound i (among i earlier)) (names i earlier)
    · apply finds i
      cases same : n.identifier? with
      | none => simp [same] at last
      | some j => simpa [same] using last

theorem type_variable_typed {id : VariableId} (typing : facts.Typing p lax)
    (primed : facts.Primed p (.variable id)) (allowed : Open facts (.variable id))
    (ran : p.typeVariable ask id facts = (.ok found, after)) : after.Typing p lax := by
  obtain ⟨v, at_, rest⟩ := look_up_split ran
  have here := variable_at_ok_iff.mp at_
  rcases once_cases rest with ⟨known, rfl⟩ | ⟨running, _, rfl⟩ | ⟨unknown, last, body, rfl⟩
  · exact typing
  · exact typing
  · obtain ⟨ofInitializer, middle, work, rest⟩ := bind_ok_split body
    obtain ⟨now, _, got, rest⟩ := bind_ok_split rest
    cases got
    obtain ⟨own, _, told, rest⟩ := bind_ok_split rest
    obtain ⟨findings, rfl⟩ := Prod.mk.inj told
    change p.initializerFindings v _ = .ok own at findings
    obtain ⟨_, _, recorded, ended⟩ := bind_ok_split rest
    cases recorded
    cases ended
    rw [Expr.types_option_collect] at work
    have entered := typing_enter typing unknown
    have inside := inside_entered regime primed allowed unknown
    have members : Expr.optionNodes v.initializer ⊆ p.nodesOf (.variable id) := by
      rw [nodes_variable here]
      exact List.Subset.refl _
    obtain ⟨typing', same, covers, _⟩ :=
      type_nodes_typed lexical source regime members (Expr.option_post_order _) entered inside work
    have typed := covers_initializer covers
    have recorded := middle.extends_record_variable_type id (p.settledType v middle)
    have grounded := grounded_record_variable_type typing'.grounded (v := id) ⟨v, here, typed, rfl⟩
    apply typing_leave (typing_records typing' recorded rfl rfl grounded (fun _ _ typed => .inl typed))
    constructor
    · have told : p.typeFindings (middle.recordVariableType id (p.settledType v middle)) (.variable id)
          = v.typeFindings p middle := by
        rw [Program.typeFindings, here]
        exact variable_findings_extend recorded.types covers
      rw [told, same, Variable.typeFindings, findings]
      rfl
    · rw [nodes_variable here]
      exact fun n member => covers_extends recorded.types (covers n member)
    · intro g impossible
      cases impossible
    · intro w equal
      cases equal
      exact insert_new_recorded _ _ _
    · intro g impossible
      cases impossible

omit lexical source regime in
theorem assignment_findings_run {target : Expr} {site : Site}
    (names : ∀ i ∈ target.nodes.filterMap Node.identifier?, facts.Finds p i)
    (ran : p.assignmentFindings target site facts = (.ok found, after)) :
    after = facts ∧ found = p.targetFindings target site := by
  cases target with
  | identifier node name place =>
    have finds : facts.referrals.find? node = p.referral? place.scope name :=
      names ⟨node, name, place⟩ (by simp [Expr.nodes, Node.identifier?])
    obtain ⟨now, _, got, rest⟩ := bind_ok_split ran
    cases got
    rw [Program.targetFindings]
    simp only [finds] at rest
    cases means : p.referral? place.scope name with
    | none =>
      rw [means] at rest
      cases rest
      exact ⟨rfl, rfl⟩
    | some r =>
      rw [means] at rest
      cases r with
      | literal value =>
        cases rest
        exact ⟨rfl, rfl⟩
      | typeName s =>
        cases rest
        exact ⟨rfl, rfl⟩
      | «variable» id =>
        obtain ⟨v, at_, rest⟩ := look_up_split rest
        cases rest
        refine ⟨rfl, ?_⟩
        dsimp only
        rw [variable_at_ok_iff.mp at_, Option.any_some]
        cases v.isMutable <;> rfl
  | _ =>
    cases ran
    exact ⟨rfl, rfl⟩

variable {g : FunctionId}

theorem type_step_typed {f : Function} (here : p.functions[g.index]? = some f) {s : Step}
    (member : s ∈ Block.optionSteps f.body) (typing : facts.Typing p lax) (inside : facts.Inside p Open (.function g))
    (outside : ∀ v, s = .introduce v → Open facts (.variable v) ∧
      facts.phases.state (.variable v, .typing) ≠ .inProgress)
    (operands : ∀ n, s = .node n → facts.OperandsTyped n) (ran : s.assignTypes p ask facts = (.ok found, after)) :
    after.Typing p lax ∧ found = s.typeFindings p after ∧ (∀ n ∈ p.stepNodes s, after.Covers n) ∧
      ∀ v, s = .introduce v → after.Done (.variable v) .typing := by
  have members : p.stepNodes s ⊆ p.nodesOf (.function g) := by
    rw [nodes_function here]
    exact fun n among => List.mem_flatMap.mpr ⟨s, member, among⟩
  cases s with
  | node n =>
    have grows := source.step_grows ran
    obtain ⟨typing', same, typed, _⟩ := type_node_typed lexical source regime (members (List.mem_singleton_self n))
      typing inside (operands n rfl) ran
    refine ⟨typing', same, ?_, by simp⟩
    intro m among
    rw [List.mem_singleton.mp among]
    exact ⟨typed, operands_typed_extends grows.types (operands n rfl)⟩
  | introduce id =>
    obtain ⟨allowed, idle⟩ := outside id rfl
    have primed := primed_local ⟨f, here, member⟩ inside.primed
    have typing' := type_variable_typed lexical source regime typing primed allowed ran
    have known : after.phases.state (.variable id, .typing) = .computed found := once_reports idle ran
    have left := typing'.cells _ _ known
    refine ⟨typing', left.findings, left.nodes, ?_⟩
    intro v equal
    cases equal
    exact ⟨found, known⟩
  | assign target value site =>
    simp only [Step.assignTypes, Expr.types_collect] at ran
    obtain ⟨ofTarget, middle, first, rest⟩ := bind_ok_split ran
    obtain ⟨ofValue, last, second, rest⟩ := bind_ok_split rest
    obtain ⟨own, _, third, ended⟩ := bind_ok_split rest
    cases ended
    have ofTargets : target.nodes ⊆ p.nodesOf (.function g) :=
      fun n among => members (List.mem_append_left _ among)
    obtain ⟨typing', findings, covers, names⟩ :=
      type_nodes_typed lexical source regime ofTargets (Expr.post_order target) typing inside first
    have grows := source.nodes_grow first
    obtain ⟨typing'', findings', covers', _⟩ :=
      type_nodes_typed lexical source regime (fun n among => members (List.mem_append_right _ among))
        (Expr.post_order value) typing' (inside_extends regime grows inside) second
    have further := source.nodes_grow second
    have names' : ∀ i ∈ target.nodes.filterMap Node.identifier?, last.Finds p i := by
      intro i among
      obtain ⟨n, there, same⟩ := List.mem_filterMap.mp among
      have mentioned : p.Mentions i := by
        refine ⟨.function g, ?_⟩
        rw [identifiers_eq]
        exact List.mem_filterMap.mpr ⟨n, ofTargets there, same⟩
      exact finds_extends further (typing''.named.sound i mentioned) (names i among)
    obtain ⟨rfl, findings''⟩ := assignment_findings_run names' third
    refine ⟨typing'', ?_, ?_, by simp⟩
    · rw [findings, findings', findings'', Step.typeFindings, List.flatMap_append,
        nodes_findings_extend further.types covers]
    · intro n among
      rcases List.mem_append.mp among with inTarget | inValue
      · exact covers_extends further.types (covers n inTarget)
      · exact covers' n inValue

theorem type_steps_typed {f : Function} (here : p.functions[g.index]? = some f)
    (typing : facts.Typing p lax) (inside : facts.Inside p Open (.function g))
    (outside : ∀ v, p.Local g v → Open facts (.variable v) ∧ facts.phases.state (.variable v, .typing) ≠ .inProgress)
    (ran : collect (Step.assignTypes p ask) (Block.optionSteps f.body) facts = (.ok found, after)) :
    after.Typing p lax ∧ found = (Block.optionSteps f.body).flatMap (Step.typeFindings p after) ∧
      (∀ n ∈ p.stepsNodes (Block.optionSteps f.body), after.Covers n) ∧
      ∀ v, p.Local g v → after.Done (.variable v) .typing := by
  let K : List Step → List Diagnostic → Facts → Prop := fun done before now =>
    facts.Extends now ∧ now.Typing p lax ∧ before = done.flatMap (Step.typeFindings p now) ∧
      (∀ n ∈ p.stepsNodes done, now.Covers n) ∧ ∀ v, .introduce v ∈ done → now.Done (.variable v) .typing
  have start : K [] [] facts :=
    ⟨extends_refl facts, typing, rfl, by simp [Program.stepsNodes], by simp⟩
  suffices K (Block.optionSteps f.body) found after by
    obtain ⟨_, typing', findings, covers, locals⟩ := this
    refine ⟨typing', findings, covers, ?_⟩
    rintro v ⟨f', here', introduces⟩
    rw [here] at here'
    cases here'
    exact locals v introduces
  refine collect_carries (K := K) ?_ start ran
  rintro done s rest now before new later whole ⟨grows, typing', findings, covers, locals⟩ step
  have member : s ∈ Block.optionSteps f.body := by
    rw [whole]
    simp
  have operands : ∀ n, s = .node n → now.OperandsTyped n := by
    rintro n rfl e operand id same
    have order := p.option_block_post_order f.body
    rw [whole, steps_nodes_append] at order
    obtain ⟨m, earlier, there⟩ := post_order_at order e operand id same
    exact (covers m earlier).1 id there
  have outside' : ∀ v, s = .introduce v → Open now (.variable v) ∧
      now.phases.state (.variable v, .typing) ≠ .inProgress := by
    rintro v rfl
    obtain ⟨allowed, idle⟩ := outside v ⟨f, here, member⟩
    exact ⟨regime.stable grows allowed, fun running => idle ((grows.phases.running _).mp running)⟩
  obtain ⟨typing'', own, covers', introduced⟩ := type_step_typed lexical source regime here member typing'
    (inside_extends regime grows inside) outside' operands step
  have further := source.step_grows step
  refine ⟨extends_trans grows further, typing'', ?_, ?_, ?_⟩
  · rw [findings, own, List.flatMap_append, List.flatMap_singleton, steps_findings_extend further.types covers]
  · intro n among
    rw [steps_nodes_append] at among
    rcases List.mem_append.mp among with earlier | last
    · exact covers_extends further.types (covers n earlier)
    · apply covers' n
      simpa [Program.stepsNodes] using last
  · intro v among
    rcases List.mem_append.mp among with earlier | last
    · exact done_extends further (locals v earlier)
    · exact introduced v (List.mem_singleton.mp last).symm

theorem type_function_typed {id : FunctionId} (typing : facts.Typing p lax)
    (primed : facts.Primed p (.function id)) (allowed : Open facts (.function id))
    (ran : p.typeFunction ask id facts = (.ok found, after)) : after.Typing p lax := by
  obtain ⟨f, at_, rest⟩ := look_up_split ran
  have here := function_at_ok_iff.mp at_
  rcases once_cases rest with ⟨known, rfl⟩ | ⟨running, _, rfl⟩ | ⟨unknown, last, body, rfl⟩
  · exact typing
  · exact typing
  · obtain ⟨ofBody, middle, work, rest⟩ := bind_ok_split body
    obtain ⟨now, _, got, rest⟩ := bind_ok_split rest
    cases got
    obtain ⟨inferred, _, told, rest⟩ := bind_ok_split rest
    obtain ⟨gives, rfl⟩ := Prod.mk.inj told
    obtain ⟨_, _, recorded, ended⟩ := bind_ok_split rest
    cases recorded
    cases ended
    rw [Block.types_option_collect] at work
    have entered := typing_enter typing unknown
    have inside := inside_entered regime primed allowed unknown
    have outside : ∀ v, p.Local id v → Open ((Facts.phaseCell (.function id) .typing).write .inProgress facts)
        (.variable v) ∧ ((Facts.phaseCell (.function id) .typing).write .inProgress facts).phases.state
          (.variable v, .typing) ≠ .inProgress := by
      intro v own
      obtain ⟨allowed', idle⟩ := regime.locals allowed unknown own
      rw [state_write, if_neg (by simp)]
      exact ⟨allowed', idle⟩
    obtain ⟨typing', findings, covers, locals⟩ := type_steps_typed lexical source regime here entered inside
      outside work
    have recorded := middle.extends_record_return_type id inferred
    have values : ∀ e ∈ Program.returnedValues f, middle.Typed e.id? := by
      intro e returned k same
      obtain ⟨n, among, there⟩ := Expr.id_node same
      have step := returned_nodes returned n among
      exact (covers n (List.mem_flatMap.mpr ⟨_, step, List.mem_singleton_self n⟩)).1 k there
    have grounded := grounded_record_return_type typing'.grounded (g := id) ⟨f, here, values, gives⟩
    apply typing_leave (typing_records typing' recorded rfl rfl grounded (fun _ _ typed => .inl typed))
    constructor
    · rw [Program.typeFindings, here, findings]
      exact (steps_findings_extend recorded.types covers).symm
    · rw [nodes_function here]
      exact fun n member => covers_extends recorded.types (covers n member)
    · intro g same v own
      cases same
      exact done_extends recorded (locals v own)
    · intro w impossible
      cases impossible
    · intro g same
      cases same
      exact insert_new_recorded _ _ _

theorem type_struct_typed {id : StructId} (typing : facts.Typing p lax)
    (primed : facts.Primed p (.struct id)) (allowed : Open facts (.struct id))
    (ran : p.typeStruct ask id facts = (.ok found, after)) : after.Typing p lax := by
  obtain ⟨s, at_, rest⟩ := look_up_split ran
  have here := struct_at_ok_iff.mp at_
  rcases once_cases rest with ⟨known, rfl⟩ | ⟨running, _, rfl⟩ | ⟨unknown, last, body, rfl⟩
  · exact typing
  · exact typing
  · rw [Expr.types_all_collect] at body
    have entered := typing_enter typing unknown
    have inside := inside_entered regime primed allowed unknown
    have members : Expr.allNodes s.defaults ⊆ p.nodesOf (.struct id) := by
      rw [nodes_struct here]
      exact List.Subset.refl _
    obtain ⟨typing', findings, covers, _⟩ :=
      type_nodes_typed lexical source regime members (Expr.all_post_order _) entered inside body
    apply typing_leave typing'
    constructor
    · rw [Program.typeFindings, here, findings]
      rfl
    · rw [nodes_struct here]
      exact covers
    · intro g impossible
      cases impossible
    · intro w impossible
      cases impossible
    · intro g impossible
      cases impossible

omit source regime in
theorem resolve_variable_typing {v : VariableId} (typing : facts.Typing p lax)
    (ran : p.resolveVariable v facts = (.ok found, after)) :
    after.Typing p lax ∧ facts.Extends after ∧ after.Done (.variable v) .resolution := by
  obtain ⟨named, _, done⟩ := resolve_variable_named lexical typing.named (typing.resting _) ran
  have grows := resolve_variable_grows p v facts
  rw [ran] at grows
  have only := (resolve_variable_maintains (names_only_lasting p facts) v facts (names_only_refl facts) found
    after ran).1
  exact ⟨typing_names typing grows only named, grows, done⟩

omit source regime in
theorem resolve_function_typing (typing : facts.Typing p lax)
    (ran : p.resolveFunction g facts = (.ok found, after)) :
    after.Typing p lax ∧ facts.Extends after ∧ after.Done (.function g) .resolution := by
  have named := resolve_function_named lexical typing.named typing.resting ran
  have grows := resolve_function_grows p g facts
  rw [ran] at grows
  have only := (resolve_function_maintains (names_only_lasting p facts) g facts (names_only_refl facts) found
    after ran).1
  exact ⟨typing_names typing grows only named, grows, once_done (typing.resting _) ran⟩

omit lexical source regime in
/-- What is read from a record after typing is right: the record is there unless the typing was going on before. -/
theorem reads_record {onRecord : Option (Option TypeRef)} (recorded : ¬lax → ∃ t, onRecord = some t) :
    Allows lax none onRecord onRecord.join := by
  cases onRecord with
  | some t => exact .inr rfl
  | none =>
    by_cases may : lax
    · exact .inl ⟨may, rfl⟩
    · obtain ⟨t, impossible⟩ := recorded may
      cases impossible

theorem variable_type_backed {v : VariableId} {t : Option TypeRef} (typing : facts.Typing p lax)
    (allowed : p.Unannotated (.variable v) → Open facts (.variable v))
    (ran : p.variableTypeUsing ask v facts = (.ok t, after)) :
    after.Typing p lax ∧ Allows lax (p.givenType v) (after.variableTypes.find? v) t := by
  obtain ⟨var, at_, rest⟩ := look_up_split ran
  have here := variable_at_ok_iff.mp at_
  unfold Program.givenType
  rw [here, Option.bind_some]
  cases origin : var.origin with
  | parameter function index param =>
    rw [origin] at rest
    obtain ⟨f, at_', rest⟩ := look_up_split rest
    cases rest
    dsimp only
    rw [function_at_ok_iff.mp at_']
    exact ⟨typing, rfl⟩
  | declared decl =>
    rw [origin] at rest
    cases written : p.declaredType var with
    | some s =>
      simp only [written] at rest
      cases rest
      exact ⟨typing, rfl⟩
    | none =>
      simp only [written] at rest
      obtain ⟨now, _, got, rest⟩ := bind_ok_split rest
      cases got
      cases known : facts.variableTypes.find? v with
      | some s =>
        rw [known] at rest
        cases rest
        exact ⟨typing, .inr known⟩
      | none =>
        rw [known] at rest
        obtain ⟨_, middle, resolved, rest⟩ := bind_ok_split rest
        obtain ⟨_, last, typed, rest⟩ := bind_ok_split rest
        obtain ⟨now, _, got, ended⟩ := bind_ok_split rest
        cases got
        cases ended
        obtain ⟨typing', grows, named⟩ := resolve_variable_typing lexical typing resolved
        have allowed' := regime.stable grows (allowed ⟨var, decl, here, origin, written⟩)
        have typing'' := type_variable_typed lexical source regime typing' (primed_done typing'.named named)
          allowed' typed
        refine ⟨typing'', reads_record ?_⟩
        intro strict
        have idle := regime.outside.resolve_left strict allowed'
        exact (typing''.cells _ _ (once_reports idle typed)).variableType v rfl

theorem return_type_backed {t : Option TypeRef} (typing : facts.Typing p lax)
    (allowed : p.Unannotated (.function g) → Open facts (.function g))
    (ran : p.returnTypeUsing ask g facts = (.ok t, after)) :
    after.Typing p lax ∧ Allows lax (p.givenReturn g) (after.returnTypes.find? g) t := by
  obtain ⟨f, at_, rest⟩ := look_up_split ran
  have here := function_at_ok_iff.mp at_
  unfold Program.givenReturn
  rw [here, Option.bind_some]
  split at rest
  · rename_i states
    cases rest
    rw [if_pos states]
    exact ⟨typing, rfl⟩
  · rename_i states
    rw [if_neg states]
    obtain ⟨now, _, got, rest⟩ := bind_ok_split rest
    cases got
    cases known : facts.returnTypes.find? g with
    | some s =>
      rw [known] at rest
      cases rest
      exact ⟨typing, .inr known⟩
    | none =>
      rw [known] at rest
      obtain ⟨_, middle, resolved, rest⟩ := bind_ok_split rest
      obtain ⟨_, last, typed, rest⟩ := bind_ok_split rest
      obtain ⟨now, _, got, ended⟩ := bind_ok_split rest
      cases got
      cases ended
      obtain ⟨typing', grows, named⟩ := resolve_function_typing lexical typing resolved
      have allowed' := regime.stable grows (allowed ⟨f, here, by simpa using states⟩)
      have typing'' := type_function_typed lexical source regime typing' (primed_done typing'.named named)
        allowed' typed
      refine ⟨typing'', reads_record ?_⟩
      intro strict
      have idle := regime.outside.resolve_left strict allowed'
      exact (typing''.cells _ _ (once_reports idle typed)).returnType g rfl

end Nodes

theorem types_within_back {modules : List Tree.Module} {ds : List Construction.Declared}
    (lexical : p.Lexical modules ds) (regime : Regime p lax Open) (depth : Nat) :
    (p.typesWithin depth).Backs p lax Open := by
  have grows := types_within_grow p
  induction depth with
  | zero =>
    refine ⟨grows 0, ?_, ?_⟩
    · intro v facts t after _ _ ran
      cases ran
    · intro g facts t after _ _ ran
      cases ran
  | succ depth ih =>
    refine ⟨grows (depth + 1), ?_, ?_⟩
    · intro v facts t after typing allowed ran
      exact variable_type_backed lexical ih regime typing allowed ran
    · intro g facts t after typing allowed ran
      exact return_type_backed lexical ih regime typing allowed ran

end SemanticAnalysis
