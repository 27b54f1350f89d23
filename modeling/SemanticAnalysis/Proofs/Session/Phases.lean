import SemanticAnalysis.Proofs.Session.Order
import SemanticAnalysis.Proofs.Typing.Strays
/-!
Phases out of order. Any phase of any declaration may be asked for before a program is analysed. Where all types are
written down, the analysis of the whole program finds the same afterwards exactly if no declaration was typed before its
names for truth values and types had been looked up. Which variable a name means is found out by typing itself, but it
knows of nothing else that a name may mean, and what it has recorded stays.
-/
namespace SemanticAnalysis
open Running Analysis SemanticAnalysis.Bound Facts

variable {p : Program} {facts after : Facts} {modules : List Tree.Module} {ds : List Construction.Declared}
  {rank : Declaration → Nat}

def Program.requested (p : Program) (facts : Facts) (requests : List (Declaration × Phase)) : Facts :=
  requests.foldl (fun facts r => (p.runPhase r.1 r.2 facts).2) facts

/-- If a declaration is to be typed, its names for truth values and types have been looked up. -/
def Program.Timely (p : Program) (facts : Facts) (r : Declaration × Phase) : Prop :=
  r.2 = .typing → facts.Primed p r.1

def Program.AllTimely (p : Program) : Facts → List (Declaration × Phase) → Prop
  | _, [] => True
  | facts, r :: rest => p.Timely facts r ∧ p.AllTimely (p.runPhase r.1 r.2 facts).2 rest

/-- What a name must have on record before it is typed. -/
def Program.needed (p : Program) (i : Identifier) : Option Referral :=
  match p.referral? i.site.scope i.name with
  | some (.variable _) => none
  | r => r

theorem primes_iff {i : Identifier} :
    facts.Primes p i ↔ ∀ r ∈ p.needed i, facts.referrals.find? i.node = some r := by
  unfold Facts.Primes Program.needed
  cases p.referral? i.site.scope i.name with
  | none => simp
  | some r => cases r <;> simp

instance (p : Program) (facts : Facts) : DecidablePred (facts.Primes p) := fun i =>
  decidable_of_iff (∀ r ∈ p.needed i, facts.referrals.find? i.node = some r) primes_iff.symm

instance (p : Program) (facts : Facts) : DecidablePred (facts.Primed p) := fun d =>
  inferInstanceAs (Decidable (∀ i ∈ p.identifiers d, facts.Primes p i))

instance (p : Program) (facts : Facts) : DecidablePred (p.Timely facts) := fun r =>
  inferInstanceAs (Decidable (r.2 = .typing → facts.Primed p r.1))

instance Program.decideTimely (p : Program) :
    (facts : Facts) → (requests : List (Declaration × Phase)) → Decidable (p.AllTimely facts requests)
  | _, [] => isTrue trivial
  | facts, r :: rest =>
    have := p.decideTimely (p.runPhase r.1 r.2 facts).2 rest
    inferInstanceAs (Decidable (p.Timely facts r ∧ p.AllTimely (p.runPhase r.1 r.2 facts).2 rest))

section Requests
variable (lexical : p.Lexical modules ds) {found : List Diagnostic}
include lexical

theorem resolution_calm {d : Declaration} (calm : facts.Calm p)
    (ran : p.runPhase d .resolution facts = (.ok found, after)) : after.Calm p := by
  have grows := run_phase_grows p d .resolution facts
  rw [ran] at grows
  have only := (run_names_maintains (names_only_lasting p facts) d facts (names_only_refl facts) found after
    ran).1
  have named : after.Named p := by
    cases d with
    | function g => exact resolve_function_named lexical calm.typing.named calm.typing.resting ran
    | «variable» v => exact (resolve_variable_named lexical calm.typing.named (calm.typing.resting _) ran).1
    | struct s => exact resolve_struct_named lexical calm.typing.named ran
  exact calm_extends calm grows (typing_names calm.typing grows only named)

variable (ranked : p.Ranked rank)
include ranked

theorem typing_calm {d : Declaration} (calm : facts.Calm p) (primed : facts.Primed p d)
    (ran : p.runPhase d .typing facts = (.ok found, after)) : after.Calm p := by
  have grows := run_phase_grows p d .typing facts
  rw [ran] at grows
  have regime := ranked_regime ranked
  have source := types_within_back lexical regime (p.functions.size + p.vars.size + 1)
  have clear : facts.Clear p rank d := clear_idle calm.idle d
  apply calm_extends calm grows
  cases d with
  | function g => exact type_function_typed lexical source regime calm.typing primed clear ran
  | «variable» v => exact type_variable_typed lexical source regime calm.typing primed clear ran
  | struct s => exact type_struct_typed lexical source regime calm.typing primed clear ran

variable (consistent : p.Consistent) {links : Links} (ground : Groundwork p links (Facts.Calm p))
  (faithful : links.Faithful p)
include consistent ground faithful

variable {r : Declaration × Phase}

theorem request_upright (upright : Facts.Upright p links (Facts.Calm p) {} facts)
    (timely : p.Timely facts r) (ran : p.runPhase r.1 r.2 facts = (.ok found, after)) :
    Facts.Upright p links (Facts.Calm p) {} after := by
  obtain ⟨d, phase⟩ := r
  -- the first two phases sum up nothing
  have early : phase ≠ .validation → after.summaries = facts.summaries := fun early =>
    (run_phase_maintains (summaries_robust p facts.summaries) d early facts rfl found after ran).1
  cases phase with
  | resolution => exact upright_same upright (early (by simp)) (resolution_calm lexical upright.ground ran)
  | typing =>
    exact upright_same upright (early (by simp)) (typing_calm lexical ranked upright.ground (timely rfl) ran)
  | validation =>
    exact (validation_maintains ground consistent lexical faithful d facts upright found after ran).1

omit lexical ranked ground faithful in
theorem request_vouched (informed : facts.Informed p links)
    (ran : p.runPhase r.1 r.2 facts = (.ok found, after)) : after.Vouched p := by
  obtain ⟨d, phase⟩ := r
  have grows := run_phase_grows p d phase facts
  rw [ran] at grows
  by_cases last : phase = .validation
  · subst last
    have begun := informed_begun informed
    have start : facts.Validating p (fun _ => True) := ⟨trivial, begun.idle, begun.rested, informed.vouched⟩
    exact (validation_validates (claims_quiet consistent) consistent d facts start found after ran).1.vouched
  · have same := (run_phase_maintains (validations_robust p facts) d last facts (fun _ => rfl) found after ran).1
    exact vouched_extends grows same informed.vouched

theorem request_informed (informed : facts.Informed p links) (timely : p.Timely facts r) :
    (p.runPhase r.1 r.2 facts).2.Informed p links := by
  by_cases known : p.HasDeclaration r.1
  · obtain ⟨found, after, ran, sound, _⟩ := run_phase_runs consistent known r.2 facts informed.sound
    rw [ran]
    exact ⟨sound, request_upright lexical ranked consistent ground faithful informed.upright timely ran,
      request_vouched consistent informed ran⟩
  · -- the look-up fails before anything is written
    have fails := run_phase_dangles known r.2
    rw [fails]
    exact informed

theorem requests_informed {requests : List (Declaration × Phase)} (informed : facts.Informed p links)
    (timely : p.AllTimely facts requests) : (p.requested facts requests).Informed p links := by
  induction requests generalizing facts with
  | nil => exact informed
  | cons r rest ih =>
    exact ih (request_informed lexical ranked consistent ground faithful informed timely.1) timely.2

end Requests

theorem request_sound (consistent : p.Consistent) (r : Declaration × Phase) (sound : Facts.Sound p {} facts) :
    Facts.Sound p {} (p.runPhase r.1 r.2 facts).2 := by
  by_cases known : p.HasDeclaration r.1
  · obtain ⟨found, after, ran, sound', _⟩ := run_phase_runs consistent known r.2 facts sound
    rw [ran]
    exact sound'
  · have fails := run_phase_dangles known r.2
    rw [fails]
    exact sound

theorem requests_sound (consistent : p.Consistent) (requests : List (Declaration × Phase))
    (sound : Facts.Sound p {} facts) : Facts.Sound p {} (p.requested facts requests) := by
  induction requests generalizing facts with
  | nil => exact sound
  | cons r rest ih => exact ih (request_sound consistent r sound)

theorem requests_grow (requests : List (Declaration × Phase)) : facts.Extends (p.requested facts requests) := by
  induction requests generalizing facts with
  | nil => exact extends_refl facts
  | cons r rest ih => exact extends_trans (run_phase_grows p r.1 r.2 facts) ih

theorem no_identifiers {d : Declaration} (missing : ¬p.HasDeclaration d) : p.identifiers d = [] := by
  cases d with
  | _ => simp [Program.identifiers, Array.getElem?_eq_none (Nat.le_of_not_lt missing)]

theorem untimely_strays (lexical : p.Lexical modules ds) (consistent : p.Consistent) (annotated : p.Annotated)
    {links : Links} (ground : Groundwork p links (Facts.Calm p)) (faithful : links.Faithful p)
    {requests : List (Declaration × Phase)} (informed : facts.Informed p links)
    (untimely : ¬p.AllTimely facts requests) :
    ∃ i, p.Mentions i ∧ (∃ r, r ∈ p.needed i) ∧ (p.requested facts requests).Astray i := by
  have ranked := annotated_ranked annotated (fun _ => 0)
  induction requests generalizing facts with
  | nil => exact absurd trivial untimely
  | cons r rest ih =>
    by_cases timely : p.Timely facts r
    · have informed' := request_informed lexical ranked consistent ground faithful informed timely
      exact ih informed' (fun others => untimely ⟨timely, others⟩)
    · obtain ⟨d, phase⟩ := r
      obtain ⟨rfl, unprimed⟩ := Classical.not_imp.mp timely
      obtain ⟨i, early⟩ := Classical.not_forall.mp unprimed
      obtain ⟨member, early⟩ := Classical.not_imp.mp early
      have needs : ∃ r, r ∈ p.needed i := by
        apply Classical.byContradiction
        intro nothing
        exact early (primes_iff.mpr (fun r needed => absurd ⟨r, needed⟩ nothing))
      have known : p.HasDeclaration d := by
        apply Classical.byContradiction
        intro missing
        rw [no_identifiers missing] at member
        cases member
      obtain ⟨found, after, ran, _⟩ := run_phase_runs consistent known .typing facts informed.sound
      have calm := informed.upright.ground
      have astray := typing_leads_astray lexical annotated calm.typing calm.idle member early ran
      refine ⟨i, ⟨d, member⟩, needs, ?_⟩
      change (p.requested (p.runPhase d .typing facts).2 rest).Astray i
      rw [ran]
      exact astray_extends (requests_grow rest) astray

theorem outcome_not_astray {links : Links} {i : Identifier} (outcome : facts.Outcome p links) (mentioned : p.Mentions i)
    {r : Referral} (needed : r ∈ p.needed i) : ¬facts.Astray i := by
  have has := Program.mentions_iff.mp mentioned
  have finds : facts.referrals.find? i.node = p.referral? i.site.scope i.name :=
    outcome.complete.coherent.finds i mentioned
  unfold Program.needed at needed
  rintro (⟨v, means⟩ | untyped)
  · rw [finds] at means
    rw [means] at needed
    cases needed
  · obtain ⟨_, backed⟩ := outcome.typing.grounded.types _ _ _ has rfl untyped
    unfold Facts.Backed at backed
    cases means : p.referral? i.site.scope i.name with
    | none =>
      rw [means] at needed
      cases needed
    | some r =>
      simp only [means] at needed backed
      cases r with
      | «variable» v => cases needed
      | _ => cases backed

/-- Where all types are written down, phases may be asked for out of order, as long as no declaration is typed before
its names for truth values and types have been looked up. Otherwise the analysis leaves something else behind. -/
theorem phases_may_be_requested {options : Options} {ofConstruction : List Diagnostic}
    (built : Program.construct options modules = .ok (p, ofConstruction)) (annotated : p.Annotated)
    (requests : List (Declaration × Phase)) :
    ∃ plain final found facts, p.analyse {} = (.ok plain, final) ∧
      p.analyse (p.requested {} requests) = (.ok found, facts) ∧
      (p.AllTimely {} requests ↔ Diagnostics.lasting found = Diagnostics.lasting plain ∧
        ∀ n id, p.HasNode n → n.id? = some id →
          facts.types.find? id = final.types.find? id ∧ facts.referrals.find? id = final.referrals.find? id ∧
            facts.dispatched.find? id = final.dispatched.find? id) := by
  have ranked := annotated_ranked annotated (fun _ => 0)
  obtain ⟨_, ds, lexical⟩ := construct_lexical built
  have consistent := construct_consistent built
  obtain ⟨plain, final, ran, _⟩ := Compilation.analyse_start_ok consistent
  obtain ⟨complete, typing, _⟩ :=
    analyse_completes lexical consistent (ranked_regime ranked) Facts.begun_empty ran
  have ground := calm_groundwork lexical consistent ranked complete typing
  have faithful := complete_faithful complete
  have start := informed_empty (p := p) final.links
  obtain ⟨_, _, ran', first, whole⟩ := informed_outcome lexical consistent ranked ground faithful start
  cases ran.symm.trans ran'
  obtain ⟨found, facts, later, _⟩ :=
    analyse_runs consistent _ (requests_sound consistent requests start.sound)
  refine ⟨plain, final, found, facts, ran, later, ?_, ?_⟩
  · intro timely
    have asked := requests_informed lexical ranked consistent ground faithful start timely
    obtain ⟨_, _, later', second, whole'⟩ := informed_outcome lexical consistent ranked ground faithful asked
    cases later.symm.trans later'
    refine ⟨?_, fun n id has same => outcomes_agree lexical consistent ranked has same first second⟩
    rw [whole, whole']
    exact findings_agree lexical consistent ranked ground faithful first second
  · rintro ⟨_, agree⟩
    apply Classical.byContradiction
    intro untimely
    obtain ⟨i, mentioned, ⟨r, needed⟩, astray⟩ :=
      untimely_strays lexical consistent annotated ground faithful start untimely
    have grows := analyse_grows p (p.requested {} requests)
    rw [later] at grows
    obtain ⟨types, referrals, _⟩ := agree _ i.node (Program.mentions_iff.mp mentioned) rfl
    have astray' := Facts.astray_extends grows astray
    unfold Facts.Astray at astray'
    rw [types, referrals] at astray'
    exact outcome_not_astray first mentioned needed astray'

def Tree.typed (text type : String) (value : Tree.Expr) : Tree.VariableDecl :=
  ⟨⟨text, {}⟩, false, some ⟨⟨type, {}⟩, false, none, {}⟩, some value, {}⟩

/-- `even` and `odd` claim to be pure and call each other. `pick` returns a variable of its own that starts as `total`,
`flag` starts as `true`, and what `gap` starts as means nothing. -/
def Tree.written : Tree.Module :=
  { path := []
    imports := []
    items := [Tree.promising "even" (.invocation (Tree.name "odd") [] { line := 1 }),
      Tree.promising "odd" (.invocation (Tree.name "even") [] { line := 2 }),
      .function ⟨⟨"pick", {}⟩, {}, none, [], some ⟨⟨"Int", {}⟩, false, none, {}⟩, some (.mk [
        .variable (Tree.typed "copy" "Int" (Tree.name "total")),
        .ret (some (Tree.name "copy")) {}] {}), {}⟩,
      .variable (Tree.typed "flag" "Boolean" (Tree.name "true")),
      .variable (Tree.typed "total" "Int" (.number (.int 0) {})),
      .variable (Tree.typed "gap" "Int" (Tree.name "missing"))]
    notices := []
    span := {} }

def Tree.writtenRequests : List (Declaration × Phase) :=
  [(.function ⟨22⟩, .validation), (.function ⟨23⟩, .typing), (.variable ⟨3⟩, .validation), (.variable ⟨2⟩, .typing),
    (.variable ⟨0⟩, .resolution), (.variable ⟨0⟩, .typing), (.function ⟨99⟩, .typing)]

def Program.findings? (p : Program) (facts : Facts) : Option (List Diagnostic) := (p.analyse facts).1.toOption

theorem written_types_forget_requests : ∃ p ofConstruction plain final found facts,
    Program.construct {} [Tree.written] = .ok (p, ofConstruction) ∧ p.Annotated ∧
      p.AllTimely {} Tree.writtenRequests ∧ p.analyse {} = (.ok plain, final) ∧
      p.analyse (p.requested {} Tree.writtenRequests) = (.ok found, facts) ∧
      found ≠ plain ∧ Diagnostics.lasting found = Diagnostics.lasting plain ∧
      ∀ n id, p.HasNode n → n.id? = some id →
        facts.types.find? id = final.types.find? id ∧ facts.referrals.find? id = final.referrals.find? id ∧
          facts.dispatched.find? id = final.dispatched.find? id := by
  have evaluated : (Program.construct {} [Tree.written]).toOption.map (fun result =>
      (decide result.1.Annotated, decide (result.1.AllTimely {} Tree.writtenRequests),
        decide (result.1.findings? (result.1.requested {} Tree.writtenRequests) = result.1.findings? {})))
      = some (true, true, false) := by decide +kernel
  cases built : Program.construct {} [Tree.written] with
  | error e =>
    rw [built] at evaluated
    cases evaluated
  | ok result =>
    obtain ⟨p, ofConstruction⟩ := result
    rw [built] at evaluated
    simp only [Except.toOption, Option.map_some, Option.some.injEq, Prod.mk.injEq, decide_eq_true_eq,
      decide_eq_false_iff_not] at evaluated
    obtain ⟨annotated, timely, differ⟩ := evaluated
    obtain ⟨plain, final, found, facts, ran, ran', exactly⟩ :=
      phases_may_be_requested built annotated Tree.writtenRequests
    obtain ⟨same, nodes⟩ := exactly.mp timely
    refine ⟨p, ofConstruction, plain, final, found, facts, rfl, annotated, timely, ran, ran', ?_, same, nodes⟩
    rintro rfl
    exact differ (by rw [Program.findings?, Program.findings?, ran, ran'])

def Tree.truthful : Tree.Module :=
  { path := []
    imports := []
    items := [.function ⟨⟨"f", {}⟩, {}, none, [], some ⟨⟨"Boolean", {}⟩, false, none, {}⟩,
      some (.mk [.ret (some (Tree.name "true")) {}] {}), {}⟩]
    notices := []
    span := {} }

def Program.outcome (p : Program) (requests : List (Declaration × Phase)) (d : Declaration) :
    Option (List Diagnostic × List (Option TypeRef)) :=
  let (result, facts) := p.analyse (p.requested {} requests)
  result.toOption.map (fun found => (found, (p.nodesOf d).filterMap (fun n => n.id?.bind facts.types.find?)))

/-- If the function is typed first, `true` is taken for an unknown variable. It never gets its type. -/
theorem truth_typed_too_early : ∃ p ofConstruction,
    Program.construct {} [Tree.truthful] = .ok (p, ofConstruction) ∧ p.Annotated ∧
      p.outcome [] (.function ⟨21⟩) = some ([], [some (.simple .boolean)]) ∧
      p.outcome [(.function ⟨21⟩, .typing)] (.function ⟨21⟩)
        = some ([.ofError (.unresolvedVariable "true") {}], [none]) := by
  have evaluated : (Program.construct {} [Tree.truthful]).toOption.map (fun result =>
      decide (result.1.Annotated ∧ result.1.outcome [] (.function ⟨21⟩) = some ([], [some (.simple .boolean)]) ∧
        result.1.outcome [(.function ⟨21⟩, .typing)] (.function ⟨21⟩)
          = some ([.ofError (.unresolvedVariable "true") {}], [none]))) = some true := by decide +kernel
  cases built : Program.construct {} [Tree.truthful] with
  | error e =>
    rw [built] at evaluated
    cases evaluated
  | ok result =>
    obtain ⟨p, ofConstruction⟩ := result
    rw [built] at evaluated
    exact ⟨p, ofConstruction, rfl, of_decide_eq_true (Option.some.inj evaluated)⟩

end SemanticAnalysis
