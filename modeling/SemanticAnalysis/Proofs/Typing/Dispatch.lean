import SemanticAnalysis.Proofs.Compilation.Completion
/-!
A call is dispatched to the best of the functions that are seen where it stands: to the closest one to the final types
of its operands, and to the one declared first if several are equally close. Only a call to which no function applies
is left without one.
-/
namespace SemanticAnalysis
open Running Analysis SemanticAnalysis.Bound Program

variable {p : Program} {facts : Facts} {call : Invocation} {receiver : Option Expr} {args : List Expr}

namespace Program

/-- The functions that a call may mean are seen under its name where it stands. Those that an operator may mean are
declared as operators. -/
def Offers (p : Program) (call : Invocation) (g : FunctionId) : Prop :=
  p.scopes.Sees call.site.scope call.name g ∧
    (call.kind ≠ .call → ∃ f, p.functions[g.index]? = some f ∧ f.modifiers.operator = true)

theorem offered_iff_offers (ordered : p.scopes.Ordered) (call : Invocation) (g : FunctionId) :
    g ∈ p.offered call ↔ p.Offers call g := by
  unfold offered Offers
  rw [← ScopeTree.find_functions_iff_sees ordered]
  cases call.kind with
  | call => simp
  | _ => simp [Option.any_eq_true]

end Program

namespace Facts

/-- A function that a call may mean applies to its operands, at a distance. A receiver of unknown type counts as
`Any?`. -/
def Suits (p : Program) (facts : Facts) (call : Invocation) (receiver : Option Expr) (args : List Expr)
    (g : FunctionId) (d : Nat) : Prop :=
  p.Offers call g ∧
    p.Applicable (receiver.map (fun e => (e.type facts).getD .nullableAny)) (args.map (Expr.type facts)) g d

/-- No other function is closer, and none that is as close was declared before. -/
def Best (p : Program) (facts : Facts) (call : Invocation) (receiver : Option Expr) (args : List Expr)
    (g : FunctionId) : Prop :=
  ∃ d, facts.Suits p call receiver args g d ∧
    ∀ f e, facts.Suits p call receiver args f e → d < e ∨ d = e ∧ g.index ≤ f.index

theorem best_unique {f g : FunctionId} (first : facts.Best p call receiver args f)
    (second : facts.Best p call receiver args g) : f = g := by
  obtain ⟨d, suits, least⟩ := first
  obtain ⟨e, suits', least'⟩ := second
  have index : f.index = g.index := by
    have forth := least g e suits'
    have back := least' f d suits
    omega
  cases f
  cases g
  exact congrArg FunctionId.mk index

theorem ranked_suits (consistent : p.Consistent) (ordered : p.scopes.Ordered) (valid : facts.Valid p)
    {ranked : List Overload.Match}
    (ran : p.ranked call (receiver.map (Expr.type facts)) (args.map (Expr.type facts)) = .ok ranked) :
    (∀ m, m ∈ ranked ↔ facts.Suits p call receiver args m.function m.distance) ∧
      ranked.Pairwise (Precedes Overload.Match.distance (fun m n => m.function.index < n.function.index)) := by
  have knows : ∀ t, receiver.map (Expr.type facts) = some t → p.KnowsType t := by
    intro t typed
    obtain ⟨e, _, rfl⟩ := Option.map_eq_some_iff.mp typed
    exact expression_type_known valid consistent e
  have known : ∀ t ∈ args.map (Expr.type facts), p.KnowsType t := by
    intro t member
    obtain ⟨e, _, rfl⟩ := List.mem_map.mp member
    exact expression_type_known valid consistent e
  obtain ⟨ranked', ran', members, sorted⟩ := ranked_ok consistent call knows known
  cases ran.symm.trans ran'
  refine ⟨?_, sorted⟩
  intro m
  rw [members m, offered_iff_offers ordered, Option.map_map]
  rfl

theorem first_is_best {best : Overload.Match} {rest : List Overload.Match}
    (members : ∀ m, m ∈ best :: rest ↔ facts.Suits p call receiver args m.function m.distance)
    (sorted : (best :: rest).Pairwise
      (Precedes Overload.Match.distance (fun m n => m.function.index < n.function.index))) :
    facts.Best p call receiver args best.function := by
  refine ⟨best.distance, (members best).mp (List.mem_cons_self ..), ?_⟩
  intro f e suits
  rcases List.mem_cons.mp ((members ⟨f, e⟩).mpr suits) with rfl | later
  · exact .inr ⟨rfl, Nat.le_refl _⟩
  · have ahead := (List.pairwise_cons.mp sorted).1 _ later
    exact ahead.imp_right (And.imp_right Nat.le_of_lt)

theorem dispatched_first (complete : facts.Complete p) (has : p.HasNode (.call call receiver args)) :
    ∃ ranked, p.ranked call (receiver.map (Expr.type facts)) (args.map (Expr.type facts)) = .ok ranked ∧
      facts.dispatched.find? call.node = ranked.head?.map Overload.Match.function :=
  dispatched_head complete.coherent.toGrounded has (complete.covers _ has).1

end Facts

/-- The functions of a bound program are numbered in the order of declaration, the built-in ones first. A call in it is
dispatched to a function if and only if that is the best for the final types, and to none if and only if none
applies. -/
theorem calls_mean_the_best_function {options : Options} {modules : List Tree.Module} {c : Compilation}
    (bound : Compilation.bind options modules = .ok c) :
    c.program.functions.toList.map Function.origin
      = BuiltinFunction.all.map .builtin ++ (Tree.placed modules).filterMap Tree.Placed.origin? ∧
    ∀ call receiver args, c.program.HasNode (.call call receiver args) →
      (c.facts.dispatched.find? call.node = none ↔ ∀ g d, ¬ c.facts.Suits c.program call receiver args g d) ∧
      ∀ g, c.facts.dispatched.find? call.node = some g ↔ c.facts.Best c.program call receiver args g := by
  obtain ⟨ds, _, _, lexical, consistent, complete, _⟩ := Compilation.bind_completes bound
  refine ⟨lexical.origins, ?_⟩
  intro call receiver args has
  obtain ⟨ranked, ran, first⟩ := Facts.dispatched_first complete has
  obtain ⟨members, sorted⟩ :=
    Facts.ranked_suits consistent lexical.grounded.ordered (Compilation.bind_valid bound) ran
  rw [first]
  cases ranked with
  | nil =>
    have never : ∀ g d, ¬ c.facts.Suits c.program call receiver args g d := by
      intro g d suits
      exact absurd ((members ⟨g, d⟩).mpr suits) List.not_mem_nil
    refine ⟨iff_of_true rfl never, ?_⟩
    intro g
    constructor
    · intro impossible
      cases impossible
    · rintro ⟨d, suits, _⟩
      exact absurd suits (never g d)
  | cons best rest =>
    have optimal := Facts.first_is_best members sorted
    constructor
    · constructor
      · intro impossible
        cases impossible
      · intro never
        obtain ⟨d, suits, _⟩ := optimal
        exact absurd suits (never _ d)
    · intro g
      constructor
      · intro same
        cases same
        exact optimal
      · intro other
        exact congrArg some (Facts.best_unique optimal other)

def Tree.accepting (text type : String) : Tree.Item :=
  .function ⟨⟨text, {}⟩, {}, none, [⟨⟨"x", {}⟩, some ⟨⟨type, {}⟩, false, none, {}⟩, {}⟩], none, some (.mk [] {}), {}⟩

/-- Two of three functions take a number with the same distance. A call without arguments has no function, and what it
gives is accepted by all three. -/
def Tree.overloaded : Tree.Module :=
  { path := []
    imports := []
    items := [Tree.accepting "f" "Any", Tree.accepting "f" "Int", Tree.accepting "f" "Int",
      Tree.returning "g" (.invocation (Tree.name "f") [.number (.int 1) {}] {}),
      Tree.returning "h" (.invocation (Tree.name "f") [Tree.call "f"] {})]
    notices := []
    span := {} }

def Compilation.targets (c : Compilation) (g : Nat) : List (Option FunctionId) :=
  (c.program.nodesOf (.function ⟨g⟩)).filterMap (fun n =>
    match n with
    | .call call _ _ => some (c.facts.dispatched.find? call.node)
    | _ => none)

theorem Compilation.target_call {c : Compilation} {g : Nat} {target : Option FunctionId}
    (listed : target ∈ c.targets g) :
    ∃ call receiver args, c.program.HasNode (.call call receiver args) ∧
      c.facts.dispatched.find? call.node = target := by
  obtain ⟨n, member, same⟩ := List.mem_filterMap.mp listed
  cases n with
  | call call receiver args => exact ⟨call, receiver, args, ⟨_, member⟩, Option.some.inj same⟩
  | _ => cases same

theorem overloads_mean_the_best_function : ∃ c, Compilation.bind {} [Tree.overloaded] = .ok c ∧
    (∃ call receiver args, c.program.HasNode (.call call receiver args) ∧
      c.facts.Best c.program call receiver args ⟨22⟩) ∧
    (∃ call receiver args, c.program.HasNode (.call call receiver args) ∧
      c.facts.Best c.program call receiver args ⟨21⟩) ∧
    ∃ call receiver args, c.program.HasNode (.call call receiver args) ∧
      ∀ g d, ¬ c.facts.Suits c.program call receiver args g d := by
  have evaluated : (Compilation.bind {} [Tree.overloaded]).toOption.map (fun c => (c.targets 24, c.targets 25))
      = some ([some ⟨22⟩], [none, some ⟨21⟩]) := by decide +kernel
  cases bound : Compilation.bind {} [Tree.overloaded] with
  | error e =>
    rw [bound] at evaluated
    cases evaluated
  | ok c =>
    rw [bound] at evaluated
    obtain ⟨number, nested⟩ := Prod.mk.inj (Option.some.inj evaluated)
    obtain ⟨_, dispatched⟩ := calls_mean_the_best_function bound
    have best : ∀ g f, some f ∈ c.targets g → ∃ call receiver args,
        c.program.HasNode (.call call receiver args) ∧ c.facts.Best c.program call receiver args f := by
      intro g f listed
      obtain ⟨call, receiver, args, has, found⟩ := Compilation.target_call listed
      exact ⟨call, receiver, args, has, ((dispatched call receiver args has).2 f).mp found⟩
    refine ⟨c, rfl, best 24 _ (by simp [number]), best 25 _ (by simp [nested]), ?_⟩
    have missing : none ∈ c.targets 25 := by simp [nested]
    obtain ⟨call, receiver, args, has, found⟩ := Compilation.target_call missing
    exact ⟨call, receiver, args, has, (dispatched call receiver args has).1.mp found⟩

end SemanticAnalysis
