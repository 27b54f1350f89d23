import SemanticAnalysis.Proofs.Analysis.Naming
/-!
What stands behind a recorded type. A type is recorded after the types of the operands, and it follows from them, from
the types that are written down and from other records. Records stay, so whatever stands behind one of them goes on to
do so while more is recorded. A record may be empty where a question led back to something in progress; it is never
wrong.
-/
namespace SemanticAnalysis
open Running Analysis SemanticAnalysis.Bound Table

namespace Bound

def Expr.id? : Expr → Option NodeId
  | .identifier node _ _ => some node
  | .number _ _ => none
  | .null _ => none
  | .invocation call _ _ => some call.node
  | .member node _ _ _ _ => some node
  | .paren inner _ => inner.id?

theorem Expr.id_node {id : NodeId} : ∀ {e : Expr}, e.id? = some id → ∃ n ∈ e.nodes, n.id? = some id
  | .identifier node name site, same => ⟨.identifier node name site, by simp [Expr.nodes], same⟩
  | .invocation call receiver args, same => ⟨.call call receiver args, by simp [Expr.nodes], same⟩
  | .member node object name nullSafe site, same =>
    ⟨.member node object name nullSafe site, by simp [Expr.nodes], same⟩
  | .paren inner _, same => by
    rw [Expr.nodes]
    exact Expr.id_node (e := inner) same

def Node.operands : Node → List Expr
  | .call _ receiver args => receiver.toList ++ args
  | .member _ object _ _ _ => [object]
  | _ => []

end Bound

namespace Facts
variable {facts after : Facts}

/-- What is on record stays there. Cells do not matter. -/
structure Adds (before after : Facts) : Prop where
  types : before.types.Grows after.types
  dispatched : before.dispatched.Grows after.dispatched
  variableTypes : before.variableTypes.Grows after.variableTypes
  returnTypes : before.returnTypes.Grows after.returnTypes

theorem Extends.adds (grows : facts.Extends after) : facts.Adds after :=
  ⟨grows.types, grows.dispatched, grows.variableTypes, grows.returnTypes⟩

def Typed (facts : Facts) (node? : Option NodeId) : Prop :=
  ∀ id, node? = some id → ∃ t, facts.types.find? id = some t

theorem typed_extends (grows : facts.types.Grows after.types) {node? : Option NodeId} (typed : facts.Typed node?) :
    after.Typed node? := by
  intro id same
  obtain ⟨t, found⟩ := typed id same
  exact ⟨t, grows _ _ found⟩

def SameAt (facts after : Facts) (node? : Option NodeId) : Prop :=
  ∀ id, node? = some id → after.types.find? id = facts.types.find? id

theorem same_extends (grows : facts.types.Grows after.types) {node? : Option NodeId} (typed : facts.Typed node?) :
    facts.SameAt after node? := by
  intro id same
  obtain ⟨t, found⟩ := typed id same
  rw [found, grows _ _ found]

theorem type_of_same {id : NodeId} (same : facts.SameAt after (some id)) : after.typeOf? id = facts.typeOf? id := by
  unfold typeOf?
  rw [same id rfl]

theorem type_same : ∀ {e : Expr}, facts.SameAt after e.id? → e.type after = e.type facts
  | .identifier .., same => type_of_same same
  | .number (.int _) _, _ => rfl
  | .number .float _, _ => rfl
  | .number (.malformed _) _, _ => rfl
  | .null _, _ => rfl
  | .invocation .., same => type_of_same same
  | .member .., same => type_of_same same
  | .paren inner _, same => type_same (e := inner) same

theorem types_same {es : List Expr} (same : ∀ e ∈ es, facts.SameAt after e.id?) :
    es.map (Expr.type after) = es.map (Expr.type facts) :=
  List.map_congr_left (fun e member => type_same (same e member))

theorem option_type_same {e : Option Expr} (same : ∀ d ∈ e.toList, facts.SameAt after d.id?) :
    e.map (Expr.type after) = e.map (Expr.type facts) := by
  cases e with
  | none => rfl
  | some d => exact congrArg some (type_same (same d (List.mem_singleton_self d)))

theorem type_extends (grows : facts.types.Grows after.types) {e : Expr} (typed : facts.Typed e.id?) :
    e.type after = e.type facts := type_same (same_extends grows typed)

def OperandsTyped (facts : Facts) (n : Node) : Prop := ∀ e ∈ n.operands, facts.Typed e.id?

theorem operands_typed_extends (grows : facts.types.Grows after.types) {n : Node} (typed : facts.OperandsTyped n) :
    after.OperandsTyped n := fun e member => typed_extends grows (typed e member)

end Facts

namespace Program
variable {p : Program}

/-- The type of a variable that has it from what is written, whatever is analysed. -/
def givenType (p : Program) (v : VariableId) : Option (Option TypeRef) :=
  (p.vars[v.index]?).bind (fun var =>
    match var.origin with
    | .parameter function index _ =>
      (p.functions[function.index]?).map (fun f => (p.signature f).params[index]?.join)
    | .declared _ => (p.declaredType var).map some)

def givenReturn (p : Program) (g : FunctionId) : Option (Option TypeRef) :=
  (p.functions[g.index]?).bind (fun f => if f.statesReturnType then some (p.signature f).declaredReturn else none)

end Program

/-- A type is the given one, or else the one on record. In a lax reading it may be unknown instead. -/
def Allows (lax : Prop) (given onRecord : Option (Option TypeRef)) (t : Option TypeRef) : Prop :=
  match given with
  | some s => t = s
  | none => lax ∧ t = none ∨ onRecord = some t

theorem Allows.mono {lax lax' : Prop} {given before after : Option (Option TypeRef)} {t : Option TypeRef}
    (relaxes : lax → lax') (stays : ∀ s, before = some s → after = some s) (allows : Allows lax given before t) :
    Allows lax' given after t := by
  cases given with
  | some s => exact allows
  | none =>
    rcases allows with ⟨may, unknown⟩ | recorded
    · exact .inl ⟨relaxes may, unknown⟩
    · exact .inr (stays t recorded)

namespace Program
variable {p : Program}

def callFindings (p : Program) (call : Invocation) (receiver : Option (Option TypeRef))
    (arguments : List (Option TypeRef)) : Except InternalError (List Diagnostic) := do
  let ranked ← p.ranked call receiver arguments
  match ranked with
  | [] =>
    pure [.ofError (p.unresolvable call (receiver.map (fun t => t.getD .nullableAny)) arguments) call.site.span]
  | best :: rest =>
    p.ambiguityFindings call (receiver.all Option.isSome && arguments.all Option.isSome) (best :: rest)

def traversalFindings (call : Invocation) (receiver : Option (Option TypeRef)) : List Diagnostic :=
  (callTraversal call receiver.join).map (fun c => Diagnostic.ofError c call.site.span)

/-- Dispatching a call ends with a type on record, or leaves that to the function it was dispatched to. -/
theorem type_invocation_cases {ask : TypeSource} {call : Invocation} {receiver : Option (Option TypeRef)}
    {arguments : List (Option TypeRef)} {facts after : Facts} {found : List Diagnostic}
    (ran : p.typeInvocation ask call receiver arguments facts = (.ok found, after)) :
    ∃ own, p.callFindings call receiver arguments = .ok own ∧ found = traversalFindings call receiver ++ own ∧
      ((p.ranked call receiver arguments = .ok [] ∧ after = facts.recordType call.node none) ∨
        ∃ best rest, p.ranked call receiver arguments = .ok (best :: rest) ∧
          p.settleDispatch ask call best.function (receiver.map (fun t => t.getD .nullableAny)) facts
            = (.ok (), after)) := by
  obtain ⟨matches_, ordered, rest⟩ := look_up_split ran
  unfold callFindings
  rw [ordered, ok_bind]
  cases matches_ with
  | nil =>
    obtain ⟨_, _, recorded, ended⟩ := bind_ok_split rest
    cases recorded
    cases ended
    exact ⟨_, rfl, rfl, .inl ⟨rfl, rfl⟩⟩
  | cons best others =>
    obtain ⟨ambiguous, _, told, rest⟩ := bind_ok_split rest
    obtain ⟨findings, rfl⟩ := Prod.mk.inj told
    obtain ⟨_, _, settled, ended⟩ := bind_ok_split rest
    cases ended
    exact ⟨ambiguous, findings, rfl, .inr ⟨best, others, rfl, settled⟩⟩

def memberAccess (p : Program) (object : TypeRef) (member : Ident) : Except Cause (Option TypeRef) :=
  p.accessedType object member (p.structOf? object.base).toOption.join

def memberGives (p : Program) (object : Option TypeRef) (member : Ident) : Option TypeRef :=
  object.bind (fun object => (p.memberAccess object member).toOption.join)

def memberFindings (p : Program) (object : Option TypeRef) (member : Ident) (nullSafe : Bool) (site : Site) :
    List Diagnostic :=
  match object with
  | none => []
  | some object =>
    (traversalFault object nullSafe).toList.map (fun c => Diagnostic.ofError c site.span)
      ++ match p.memberAccess object member with
        | .ok _ => []
        | .error cause => [.ofError cause member.span]

section Member
variable {node : NodeId} {object : Option TypeRef} {member : Ident} {nullSafe : Bool} {site : Site} {facts : Facts}

theorem type_member_run (looked : ∀ t, object = some t → ∃ s, p.structOf? t.base = .ok s) :
    p.typeMember node object member nullSafe site facts
      = (.ok (p.memberFindings object member nullSafe site), facts.recordType node (p.memberGives object member)) := by
  cases object with
  | none => rfl
  | some object =>
    obtain ⟨struct, found⟩ := looked object rfl
    have access : p.memberAccess object member = p.accessedType object member struct := by
      rw [memberAccess, found]
      rfl
    unfold typeMember memberFindings memberGives
    dsimp only
    rw [run_look_up found, access]
    cases accessed : p.accessedType object member struct with
    | ok type =>
      simp only [access, accessed, List.append_nil, Option.bind_some, Except.toOption, Option.join_some]
      rfl
    | error cause =>
      simp only [access, accessed, Option.bind_some, Except.toOption, Option.join_none]
      rfl

theorem type_member_looked {found : List Diagnostic} {after : Facts}
    (ran : p.typeMember node object member nullSafe site facts = (.ok found, after)) (t : TypeRef)
    (typed : object = some t) : ∃ s, p.structOf? t.base = .ok s := by
  subst typed
  obtain ⟨s, looked, _⟩ := look_up_split ran
  exact ⟨s, looked⟩

end Member

end Program

namespace Facts
variable {p : Program} {lax lax' : Prop} {facts after : Facts}

def CallAllows (p : Program) (lax : Prop) (facts : Facts) (call : Invocation) (f : FunctionId)
    (receiver : Option (Option TypeRef)) (t : Option TypeRef) : Prop :=
  ∃ value, (if Program.yieldsBoolean call then value = some (p.types.withImpliedModifier (.simple .boolean))
      else Allows lax (p.givenReturn f) (facts.returnTypes.find? f) value) ∧
    t = value.map (fun t =>
      if call.nullSafe && (receiver.map (fun t => t.getD .nullableAny)).any TypeRef.nullable then t.orNull else t)

/-- What stands behind the type of a node. -/
def Backed (p : Program) (lax : Prop) (facts : Facts) : Node → Option TypeRef → Prop
  | .identifier _ name site, t =>
    match p.referral? site.scope name with
    | some (.literal _) => t = some (.simple .boolean)
    | some (.variable v) => Allows lax (p.givenType v) (facts.variableTypes.find? v) t
    | some (.typeName s) => t = some (.simple s)
    | none => t = none
  | .number _ _, _ => False
  | .call call receiver args, t =>
    (∃ own, p.callFindings call (receiver.map (Expr.type facts)) (args.map (Expr.type facts)) = .ok own) ∧
      ((p.ranked call (receiver.map (Expr.type facts)) (args.map (Expr.type facts)) = .ok [] ∧ t = none) ∨
        ∃ best rest, p.ranked call (receiver.map (Expr.type facts)) (args.map (Expr.type facts)) = .ok (best :: rest) ∧
          facts.dispatched.find? call.node = some best.function ∧
          facts.CallAllows p lax call best.function (receiver.map (Expr.type facts)) t)
  | .member _ object name _ _, t => t = p.memberGives (object.type facts) name

/-- What stands behind a dispatched call: a type on record, and operands for which the function is the best one. -/
def Chosen (p : Program) (facts : Facts) : Node → FunctionId → Prop
  | .call call receiver args, f => facts.Typed (some call.node) ∧
    ∃ best rest, p.ranked call (receiver.map (Expr.type facts)) (args.map (Expr.type facts)) = .ok (best :: rest) ∧
      best.function = f
  | _, _ => False

def VariableBacked (p : Program) (facts : Facts) (v : VariableId) (t : Option TypeRef) : Prop :=
  ∃ var, p.vars[v.index]? = some var ∧ (∀ e ∈ var.initializer.toList, facts.Typed e.id?) ∧ t = p.settledType var facts

def ReturnBacked (p : Program) (facts : Facts) (g : FunctionId) (t : Option TypeRef) : Prop :=
  ∃ f, p.functions[g.index]? = some f ∧ (∀ e ∈ Program.returnedValues f, facts.Typed e.id?) ∧
    p.inferReturnType facts (Program.returnedValues f) = .ok t

variable {receiver : Option Expr} {args : List Expr}

theorem call_operands_same (call : Invocation)
    (same : ∀ e ∈ (Node.call call receiver args).operands, facts.SameAt after e.id?) :
    receiver.map (Expr.type after) = receiver.map (Expr.type facts) ∧
      args.map (Expr.type after) = args.map (Expr.type facts) :=
  ⟨option_type_same (fun e member => same e (List.mem_append_left _ member)),
    types_same (fun e member => same e (List.mem_append_right _ member))⟩

variable {call : Invocation}

theorem call_operands_extend (grows : facts.types.Grows after.types)
    (typed : facts.OperandsTyped (.call call receiver args)) :
    receiver.map (Expr.type after) = receiver.map (Expr.type facts) ∧
      args.map (Expr.type after) = args.map (Expr.type facts) :=
  call_operands_same call (fun e member => same_extends grows (typed e member))

variable {t : Option TypeRef}

theorem call_allows_extends (relaxes : lax → lax') (grows : facts.Adds after) {f : FunctionId}
    {receiver : Option (Option TypeRef)} (allows : facts.CallAllows p lax call f receiver t) :
    after.CallAllows p lax' call f receiver t := by
  obtain ⟨value, gives, same⟩ := allows
  refine ⟨value, ?_, same⟩
  split at gives
  · rename_i boolean
    rw [if_pos boolean]
    exact gives
  · rename_i other
    rw [if_neg other]
    exact gives.mono relaxes (fun s found => grows.returnTypes _ _ found)

theorem backed_extends (relaxes : lax → lax') (grows : facts.Adds after) {n : Node}
    (typed : facts.OperandsTyped n) (backed : facts.Backed p lax n t) : after.Backed p lax' n t := by
  cases n with
  | identifier node name site =>
    simp only [Backed] at backed ⊢
    cases means : p.referral? site.scope name with
    | none => simpa only [means] using backed
    | some r =>
      cases r with
      | «variable» v =>
        simp only [means] at backed ⊢
        exact backed.mono relaxes (fun s found => grows.variableTypes _ _ found)
      | _ => simpa only [means] using backed
  | number numeral site => exact backed
  | call call receiver args =>
    obtain ⟨ofReceiver, ofArgs⟩ := call_operands_extend grows.types typed
    simp only [Backed] at backed ⊢
    rw [ofReceiver, ofArgs]
    refine ⟨backed.1, ?_⟩
    rcases backed.2 with none | ⟨best, rest, ordered, dispatched, allows⟩
    · exact .inl none
    · exact .inr ⟨best, rest, ordered, grows.dispatched _ _ dispatched, call_allows_extends relaxes grows allows⟩
  | member node object name nullSafe site =>
    simp only [Backed] at backed ⊢
    rw [type_extends grows.types (typed object (List.mem_singleton_self _))]
    exact backed

theorem chosen_extends (grows : facts.Adds after) {n : Node} {f : FunctionId} (typed : facts.OperandsTyped n)
    (chosen : facts.Chosen p n f) : after.Chosen p n f := by
  cases n with
  | call call receiver args =>
    obtain ⟨ofReceiver, ofArgs⟩ := call_operands_extend grows.types typed
    simp only [Chosen] at chosen ⊢
    rw [ofReceiver, ofArgs]
    exact ⟨typed_extends grows.types chosen.1, chosen.2⟩
  | _ => exact chosen

theorem settled_type_same {v : Variable} (same : ∀ e ∈ v.initializer.toList, facts.SameAt after e.id?) :
    p.settledType v after = p.settledType v facts := by
  unfold Program.settledType
  cases initial : v.initializer with
  | none => rfl
  | some e =>
    rw [initial] at same
    simp only [Option.bind_some]
    rw [type_same (same e (List.mem_singleton_self e))]

theorem variable_backed_extends (grows : facts.Adds after) {v : VariableId}
    (backed : facts.VariableBacked p v t) : after.VariableBacked p v t := by
  obtain ⟨var, found, typed, same⟩ := backed
  refine ⟨var, found, fun e member => typed_extends grows.types (typed e member), ?_⟩
  rw [settled_type_same (fun e member => same_extends grows.types (typed e member))]
  exact same

theorem infer_return_same {values : List Expr} (same : ∀ e ∈ values, facts.SameAt after e.id?) :
    p.inferReturnType after values = p.inferReturnType facts values := by
  unfold Program.inferReturnType
  rw [List.filterMap_congr (fun e member => type_same (same e member))]

theorem return_backed_extends (grows : facts.Adds after) {g : FunctionId}
    (backed : facts.ReturnBacked p g t) : after.ReturnBacked p g t := by
  obtain ⟨f, found, typed, inferred⟩ := backed
  refine ⟨f, found, fun e member => typed_extends grows.types (typed e member), ?_⟩
  rw [infer_return_same (fun e member => same_extends grows.types (typed e member))]
  exact inferred

/-- Everything on record is about the program, and backed. -/
structure Grounded (p : Program) (lax : Prop) (facts : Facts) : Prop where
  nodes : ∀ id t, facts.types.find? id = some t → ∃ n, p.HasNode n ∧ n.id? = some id
  types : ∀ n id t, p.HasNode n → n.id? = some id → facts.types.find? id = some t →
    facts.OperandsTyped n ∧ facts.Backed p lax n t
  dispatched : ∀ n id f, p.HasNode n → n.id? = some id → facts.dispatched.find? id = some f →
    facts.OperandsTyped n ∧ facts.Chosen p n f
  variableTypes : ∀ v t, facts.variableTypes.find? v = some t → facts.VariableBacked p v t
  returnTypes : ∀ g t, facts.returnTypes.find? g = some t → facts.ReturnBacked p g t

/-- All names have been looked up, and everything on record is backed. -/
structure Coherent (p : Program) (facts : Facts) : Prop extends Grounded p True facts where
  finds : ∀ i, p.Mentions i → facts.Finds p i

theorem dispatched_head (grounded : facts.Grounded p lax)
    (has : p.HasNode (.call call receiver args)) (typed : facts.Typed (some call.node)) :
    ∃ ranked, p.ranked call (receiver.map (Expr.type facts)) (args.map (Expr.type facts)) = .ok ranked ∧
      facts.dispatched.find? call.node = ranked.head?.map Overload.Match.function := by
  obtain ⟨t, known⟩ := typed call.node rfl
  obtain ⟨_, _, outcome⟩ := grounded.types _ _ t has rfl known
  rcases outcome with ⟨nothing, _⟩ | ⟨best, rest, ordered, dispatched, _⟩
  · refine ⟨[], nothing, ?_⟩
    cases dispatched : facts.dispatched.find? call.node with
    | none => rfl
    | some g =>
      obtain ⟨_, _, best, rest, ordered, _⟩ := grounded.dispatched _ _ g has rfl dispatched
      cases nothing.symm.trans ordered
  · exact ⟨best :: rest, ordered, dispatched⟩

theorem adds_refl (facts : Facts) : facts.Adds facts :=
  ⟨grows_refl _, grows_refl _, grows_refl _, grows_refl _⟩

theorem grounded_empty : Grounded p lax {} := by
  constructor
  · intro id t found
    cases found
  · intro n id t _ _ found
    cases found
  · intro n id f _ _ found
    cases found
  · intro v t found
    cases found
  · intro g t found
    cases found

theorem grounded_relax (grounded : facts.Grounded p lax) : facts.Grounded p True := by
  refine { grounded with types := ?_ }
  intro n id t has same found
  obtain ⟨typed, backed⟩ := grounded.types n id t has same found
  exact ⟨typed, backed_extends (fun _ => trivial) (adds_refl facts) typed backed⟩

theorem grounded_extends (grounded : facts.Grounded p lax) (grows : facts.Adds after)
    (nodes : ∀ id t, after.types.find? id = some t →
      facts.types.find? id = some t ∨ ∃ n, p.HasNode n ∧ n.id? = some id)
    (types : ∀ n id t, p.HasNode n → n.id? = some id → after.types.find? id = some t →
      facts.types.find? id = some t ∨ after.OperandsTyped n ∧ after.Backed p lax n t)
    (dispatched : ∀ n id f, p.HasNode n → n.id? = some id → after.dispatched.find? id = some f →
      facts.dispatched.find? id = some f ∨ after.OperandsTyped n ∧ after.Chosen p n f)
    (variableTypes : ∀ v t, after.variableTypes.find? v = some t →
      facts.variableTypes.find? v = some t ∨ after.VariableBacked p v t)
    (returnTypes : ∀ g t, after.returnTypes.find? g = some t →
      facts.returnTypes.find? g = some t ∨ after.ReturnBacked p g t) : after.Grounded p lax := by
  constructor
  · intro id t found
    rcases nodes id t found with old | new
    · exact grounded.nodes id t old
    · exact new
  · intro n id t has same found
    rcases types n id t has same found with old | new
    · obtain ⟨typed, backed⟩ := grounded.types n id t has same old
      exact ⟨operands_typed_extends grows.types typed, backed_extends (fun may => may) grows typed backed⟩
    · exact new
  · intro n id f has same found
    rcases dispatched n id f has same found with old | new
    · obtain ⟨typed, chosen⟩ := grounded.dispatched n id f has same old
      exact ⟨operands_typed_extends grows.types typed, chosen_extends grows typed chosen⟩
    · exact new
  · intro v t found
    rcases variableTypes v t found with old | new
    · exact variable_backed_extends grows (grounded.variableTypes v t old)
    · exact new
  · intro g t found
    rcases returnTypes g t found with old | new
    · exact return_backed_extends grows (grounded.returnTypes g t old)
    · exact new

theorem grounded_same (grounded : facts.Grounded p lax) (types : after.types = facts.types)
    (dispatched : after.dispatched = facts.dispatched) (variableTypes : after.variableTypes = facts.variableTypes)
    (returnTypes : after.returnTypes = facts.returnTypes) : after.Grounded p lax := by
  apply grounded_extends grounded
  · constructor
    · rw [types]
      exact grows_refl _
    · rw [dispatched]
      exact grows_refl _
    · rw [variableTypes]
      exact grows_refl _
    · rw [returnTypes]
      exact grows_refl _
  · rw [types]
    exact fun _ _ found => .inl found
  · rw [types]
    exact fun _ _ _ _ _ found => .inl found
  · rw [dispatched]
    exact fun _ _ _ _ _ found => .inl found
  · rw [variableTypes]
    exact fun _ _ found => .inl found
  · rw [returnTypes]
    exact fun _ _ found => .inl found

section Recording
variable {modules : List Tree.Module} {ds : List Construction.Declared} (lexical : p.Lexical modules ds)
  (grounded : facts.Grounded p lax)

theorem find_insert_new_cases {κ ν : Type} [DecidableEq κ] {t : Table κ ν} {k j : κ} {v w : ν}
    (found : (t.insertNew k v).find? j = some w) : t.find? j = some w ∨ j = k ∧ v = w := by
  rw [find_insert_new] at found
  split at found
  · rename_i same
    subst same
    cases old : t.find? j with
    | some u =>
      rw [old] at found
      exact .inl found
    | none =>
      rw [old] at found
      exact .inr ⟨rfl, Option.some.inj found⟩
  · exact .inl found

include grounded in
theorem grounded_record_variable_type {v : VariableId} {t : Option TypeRef} (backed : facts.VariableBacked p v t) :
    (facts.recordVariableType v t).Grounded p lax := by
  have grows := (facts.extends_record_variable_type v t).adds
  apply grounded_extends grounded grows
  · exact fun _ _ found => .inl found
  · exact fun _ _ _ _ _ found => .inl found
  · exact fun _ _ _ _ _ found => .inl found
  · intro w s found
    rcases find_insert_new_cases found with old | ⟨rfl, rfl⟩
    · exact .inl old
    · exact .inr (variable_backed_extends grows backed)
  · exact fun _ _ found => .inl found

include grounded in
theorem grounded_record_return_type {g : FunctionId} {t : Option TypeRef} (backed : facts.ReturnBacked p g t) :
    (facts.recordReturnType g t).Grounded p lax := by
  have grows := (facts.extends_record_return_type g t).adds
  apply grounded_extends grounded grows
  · exact fun _ _ found => .inl found
  · exact fun _ _ _ _ _ found => .inl found
  · exact fun _ _ _ _ _ found => .inl found
  · exact fun _ _ found => .inl found
  · intro h s found
    rcases find_insert_new_cases found with old | ⟨rfl, rfl⟩
    · exact .inl old
    · exact .inr (return_backed_extends grows backed)

include lexical grounded

theorem grounded_record_type {n : Node} {id : NodeId} {t : Option TypeRef} (has : p.HasNode n) (same : n.id? = some id)
    (typed : facts.OperandsTyped n) (backed : facts.Backed p lax n t) : (facts.recordType id t).Grounded p lax := by
  have grows := (facts.extends_record_type id t).adds
  apply grounded_extends grounded grows
  · intro k s found
    rcases find_insert_new_cases found with old | ⟨rfl, rfl⟩
    · exact .inl old
    · exact .inr ⟨n, has, same⟩
  · intro m k s has' same' found
    rcases find_insert_new_cases found with old | ⟨rfl, rfl⟩
    · exact .inl old
    · rw [Program.node_unique lexical has' has same' same]
      exact .inr ⟨operands_typed_extends grows.types typed, backed_extends id grows typed backed⟩
  · exact fun _ _ _ _ _ found => .inl found
  · exact fun _ _ found => .inl found
  · exact fun _ _ found => .inl found

theorem grounded_record_dispatch {call : Invocation} {receiver : Option Expr} {args : List Expr}
    {best : Overload.Match} {rest : List Overload.Match} {own : List Diagnostic} {t : Option TypeRef}
    (has : p.HasNode (.call call receiver args)) (typed : facts.OperandsTyped (.call call receiver args))
    (findings : p.callFindings call (receiver.map (Expr.type facts)) (args.map (Expr.type facts)) = .ok own)
    (ordered : p.ranked call (receiver.map (Expr.type facts)) (args.map (Expr.type facts)) = .ok (best :: rest))
    (allows : facts.CallAllows p lax call best.function (receiver.map (Expr.type facts)) t) :
    ((facts.recordDispatch call.node best.function).recordType call.node t).Grounded p lax := by
  have grows := (extends_trans (facts.extends_record_dispatch call.node best.function)
    ((facts.recordDispatch call.node best.function).extends_record_type call.node t)).adds
  obtain ⟨ofReceiver, ofArgs⟩ := call_operands_extend grows.types typed
  -- whatever was on record for this call before names the same function
  have dispatched : ((facts.recordDispatch call.node best.function).recordType call.node t).dispatched.find? call.node
      = some best.function := by
    change (facts.dispatched.insertNew call.node best.function).find? call.node = _
    rw [find_insert_new, if_pos rfl]
    cases old : facts.dispatched.find? call.node with
    | none => rfl
    | some f =>
      obtain ⟨_, _, best', rest', ordered', rfl⟩ := grounded.dispatched _ _ f has rfl old
      rw [ordered] at ordered'
      cases ordered'
      rfl
  have onRecord : ((facts.recordDispatch call.node best.function).recordType call.node t).Typed (some call.node) := by
    intro k equal
    cases equal
    exact insert_new_recorded _ _ _
  apply grounded_extends grounded grows
  · intro k s found
    rcases find_insert_new_cases found with old | ⟨rfl, rfl⟩
    · exact .inl old
    · exact .inr ⟨_, has, rfl⟩
  · intro m k s has' same' found
    rcases find_insert_new_cases found with old | ⟨rfl, rfl⟩
    · exact .inl old
    · rw [Program.node_unique lexical has' has same' rfl]
      refine .inr ⟨operands_typed_extends grows.types typed, ?_⟩
      simp only [Backed]
      rw [ofReceiver, ofArgs]
      exact ⟨⟨own, findings⟩, .inr ⟨best, rest, ordered, dispatched, call_allows_extends id grows allows⟩⟩
  · intro m k f has' same' found
    rcases find_insert_new_cases found with old | ⟨rfl, rfl⟩
    · exact .inl old
    · rw [Program.node_unique lexical has' has same' rfl]
      refine .inr ⟨operands_typed_extends grows.types typed, onRecord, best, rest, ?_, rfl⟩
      rw [ofReceiver, ofArgs]
      exact ordered
  · exact fun _ _ found => .inl found
  · exact fun _ _ found => .inl found

end Recording

end Facts

end SemanticAnalysis
