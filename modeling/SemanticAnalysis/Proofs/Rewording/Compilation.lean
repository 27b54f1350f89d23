import SemanticAnalysis.Proofs.Construction.Sealing
import SemanticAnalysis.Proofs.Rewording.Analysis
import SemanticAnalysis.Proofs.Rewording.Construction
import SemanticAnalysis.Proofs.Session.Order
/-!
Compilation of a text in other words. If the two programs that are built mirror each other, the two compilations find
out the same facts and give the same answers, and the findings of the one are those of the other as far as they are kept
and looked at.
-/
namespace SemanticAnalysis
open Running Analysis Diagnostics SemanticAnalysis.Bound Program Rewording

variable {r : Rewording} {β : Type} {keep : Diagnostic → Bool} {view : Diagnostic → β} {options options' : Options}
  {modules modules' : List Tree.Module}

variable {p q : Program}

theorem Program.Kin.mirrors (kin : p.Kin r Eq options options' q) : p.Mirrors r q where
  types := kin.types
  functions := kin.functions
  vars := kin.vars
  structs := kin.structs
  structTypes := kin.structTypes
  modules := kin.modules
  findVariable _ _ := by rw [kin.scopes]
  findType _ _ := by rw [kin.scopes]
  findFunctions _ _ := by rw [kin.scopes]
  isWithin _ _ _ := by rw [kin.scopes]

theorem Program.Kin.reports {S : ScopeTree → ScopeTree → Prop} (kin : p.Kin r S options options' q)
    (reports : options.Reports r keep view options') : p.options.Reports r keep view q.options := by
  rwa [kin.first, kin.second]

theorem modifiers_report {modifiers : FunctionModifiers → FunctionModifiers}
    {operator : ∀ m, (modifiers m).operator = m.operator}
    (ambiguous : options'.reportAmbiguousOverloads = options.reportAmbiguousOverloads)
    (recursive : options'.warnOnRecursivePurity = options.warnOnRecursivePurity) :
    options.Reports (Rewording.ofModifiers modifiers operator) (fun _ => true) id options' where
  plain _ _ := rfl
  ambiguous _ _ _ := by rw [Bool.and_true, ambiguous]
  recursive _ _ := by rw [Bool.and_true, recursive]
  initializer _ e := by rw [modifiers_bound_value]; rfl

theorem literal_items (items : List Tree.Item) : items.map Rewording.literal.item = items := by
  rw [show Rewording.literal.item = id from funext literal_item, List.map_id]

theorem literal_modules (modules : List Tree.Module) : modules.map Rewording.literal.moduleDecl = modules := by
  have same : Rewording.literal.moduleDecl = id := by
    funext m
    unfold Rewording.moduleDecl
    rw [literal_items]
    rfl
  rw [same, List.map_id]

theorem literal_kin {S : ScopeTree → ScopeTree → Prop}
    (kin : p.Kin Rewording.literal S options options' q) :
    q = { p with options := options', scopes := q.scopes } := by
  have functions := kin.functions
  have vars := kin.vars
  have structs := kin.structs
  rw [show Rewording.literal.boundFunction = id from funext literal_function, Array.map_id] at functions
  rw [show Rewording.literal.boundVariable = id from funext modifiers_bound_variable, Array.map_id] at vars
  rw [show Rewording.literal.boundStruct = id from funext modifiers_bound_struct, Array.map_id] at structs
  have table := kin.structTypes
  have types := kin.types
  have nodes := kin.nodes
  have modules := kin.modules
  have options' := kin.second
  cases q
  simp_all

theorem literal_value (e : Expr) : Rewording.literal.boundValue e = e := modifiers_bound_keeping _ e

theorem construction_causes {found : List Diagnostic}
    (built : Program.construct options modules = .ok (p, found)) {d : Diagnostic} (member : d ∈ found) :
    (∃ target, d.error.cause = .unresolvedImport target) ∨ (∃ name, d.error.cause = .unknownType name) ∨
      ∃ name supertype, d.error.cause = .cyclicTypeHierarchy name supertype := by
  obtain ⟨unresolved, imports, whole⟩ := (construct_seals built).findings
  rw [whole] at member
  rcases List.mem_append.mp member with first | second
  · obtain ⟨target, span, rfl⟩ := imports d first
    exact .inl ⟨target, rfl⟩
  · obtain ⟨s, _, inside⟩ := List.mem_flatMap.mp second
    obtain ⟨written, _, left⟩ := List.mem_filterMap.mp inside
    unfold Program.supertypeFinding Construction.leftOut at left
    split at left
    · cases left
      exact .inr (.inl ⟨_, rfl⟩)
    · split at left
      · cases left
      · cases left
        exact .inr (.inr ⟨_, _, rfl⟩)

theorem construction_plain {found : List Diagnostic}
    (built : Program.construct options modules = .ok (p, found)) :
    ∀ d ∈ found, d.error.cause.isOptional = false := by
  intro d member
  rcases construction_causes built member with ⟨_, same⟩ | ⟨_, same⟩ | ⟨_, _, same⟩
  all_goals rw [same]; rfl

namespace Compilation

theorem bind_alike {K : Program → Program → Prop}
    (alike : Alike (fun a b => b.2 = a.2 ∧ K a.1 b.1) (Program.construct options modules)
      (Program.construct options' modules')) :
    Alike (fun c c' => K c.program c'.program ∧ ∃ found,
        Program.construct options modules = .ok (c.program, found) ∧
        Program.construct options' modules' = .ok (c'.program, found))
      (bind options modules) (bind options' modules') := by
  generalize first : Program.construct options modules = x at alike
  generalize second : Program.construct options' modules' = y at alike
  cases alike with
  | error e =>
    have failed : bind options modules = .error e := by unfold bind; rw [first]; rfl
    have failed' : bind options' modules' = .error e := by unfold bind; rw [second]; rfl
    rw [failed, failed']
    exact .error e
  | @ok a b related =>
    obtain ⟨same, related⟩ := related
    obtain ⟨ofPhases, facts, ran, _⟩ := analyse_start_ok (construct_consistent first)
    obtain ⟨ofPhases', facts', ran', _⟩ := analyse_start_ok (construct_consistent second)
    have ended : bind options modules = .ok ⟨a.1, facts, notices modules ++ a.2 ++ ofPhases⟩ := by
      unfold bind
      rw [first, ok_bind]
      dsimp only
      rw [ran]
      rfl
    have ended' : bind options' modules' = .ok ⟨b.1, facts', notices modules' ++ b.2 ++ ofPhases'⟩ := by
      unfold bind
      rw [second, ok_bind]
      dsimp only
      rw [ran']
      rfl
    rw [ended, ended']
    exact .ok ⟨related, a.2, rfl, by rw [← same]⟩

variable {c c' : Compilation} {found : List Diagnostic}

theorem bind_retells (claims : ∀ m, r.modifiers m = m) (mirrors : c.program.Mirrors r c'.program)
    (reports : c.program.options.Reports r keep view c'.program.options)
    (bound : bind options modules = .ok c) (bound' : bind options' modules' = .ok c')
    (built : Program.construct options modules = .ok (c.program, found))
    (built' : Program.construct options' modules' = .ok (c'.program, found))
    (same : notices modules' = notices modules) :
    c.facts.Matches (Retells keep view) c'.facts ∧ Retells keep view c.findings c'.findings := by
  obtain ⟨ofConstruction, ofPhases, built₁, ran, whole⟩ := bind_ok_parts bound
  obtain ⟨ofConstruction', ofPhases', built₂, ran', whole'⟩ := bind_ok_parts bound'
  rw [built] at built₁
  cases built₁
  rw [built'] at built₂
  cases built₂
  obtain ⟨told, after, again, related, matched⟩ :=
    analyse_accords mirrors reports claims {} {} Facts.matches_empty ofPhases c.facts ran
  rw [ran'] at again
  cases again
  refine ⟨matched, ?_⟩
  rw [whole, whole', same]
  refine retells_append _ _ _ _ (retells_append _ _ _ _ ?_ ?_) related
  · exact topic_retold reports (notices_topic modules) (.inr rfl)
  · exact plain_retold reports (construction_plain built)

end Compilation

section Questions
variable {p q : Program} (mirrors : p.Mirrors r q) (reports : p.options.Reports r keep view q.options)
  (claims : ∀ m, r.modifiers m = m)
include mirrors reports claims

theorem answer_accords {question : Question} (asks : question.AsksFact) :
    Accords (Retells keep view) Eq (question.answer p) (question.answer q) := by
  have source : p.typeSource.Accords (Retells keep view) q.typeSource := type_source_accords mirrors reports
  cases question with
  | analyse => exact asks.elim
  | phase part step => exact asks.elim
  | effects part boundary => exact asks.elim
  | signature g =>
    refine accords_look_up (function_at_mirrors mirrors g) (fun f _ => ?_)
    rw [signature_mirrors mirrors]
    exact accords_pure rfl
  | returnType g => exact accords_map (source.returnType g) fun _ _ same => congrArg _ same
  | variableType v => exact accords_map (source.variableType v) fun _ _ same => congrArg _ same
  | memberType s name =>
    refine accords_look_up (struct_at_mirrors mirrors s) (fun struct _ => ?_)
    rw [member_type_mirrors mirrors]
    exact accords_pure rfl
  | summary access g =>
    exact accords_map (summary_accords mirrors reports claims access g) fun _ _ same => congrArg _ same
  | isClean access g =>
    refine accords_map (R := Eq) (accords_bind (summary_accords mirrors reports claims access g) ?_)
      fun _ _ same => congrArg _ same
    intro summary _ same
    rw [same]
    exact accords_pure rfl

theorem function_effects_accord (access : Access) (boundary : ScopeId) (g : FunctionId) :
    Accords (Retells keep view) Eq ((Part.declaration (.function g)).effects p access boundary)
      ((Part.declaration (.function g)).effects q access boundary) := by
  refine accords_look_up (function_at_mirrors mirrors g) (fun f _ => ?_)
  rw [Block.effects_option_collect, Block.effects_option_collect]
  change Accords _ Eq _ (collect _ (Block.optionSteps (r.boundOption f.body)))
  rw [r.option_steps]
  exact steps_effects_accord mirrors (summary_accords mirrors reports claims access) boundary _

end Questions

theorem has_declaration_mirrors (mirrors : p.Mirrors r q) (d : Declaration) :
    q.HasDeclaration d ↔ p.HasDeclaration d := by
  cases d <;>
    simp only [Program.HasDeclaration, Program.HasFunction, Program.HasVariable, mirrors.functions, mirrors.vars,
      mirrors.structs, Array.size_map]

theorem unknown_same (mirrors : p.Mirrors r q) {question : Question} (missing : ¬question.Known p)
    (facts other : Facts) : (question.answer q other).1 = (question.answer p facts).1 := by
  simp only [Question.Known, not_forall] at missing
  obtain ⟨d, about, absent⟩ := missing
  rw [question_dangles about absent, question_dangles about (mt (has_declaration_mirrors mirrors d).mp absent)]

namespace Compilation

/-- Two compilations found out the same facts and give the same answers about them. -/
structure Agree (c c' : Compilation) : Prop where
  referrals : c'.facts.referrals = c.facts.referrals
  types : c'.facts.types = c.facts.types
  dispatched : c'.facts.dispatched = c.facts.dispatched
  variableTypes : c'.facts.variableTypes = c.facts.variableTypes
  returnTypes : c'.facts.returnTypes = c.facts.returnTypes
  summaries : c'.facts.summaries = c.facts.summaries
  answers : ∀ q : Question, q.AsksFact → (q.answer c'.program c'.facts).1 = (q.answer c.program c.facts).1
  effects : ∀ access boundary g,
    ((Part.declaration (.function g)).effects c'.program access boundary c'.facts).1 =
      ((Part.declaration (.function g)).effects c.program access boundary c.facts).1

variable {c c' c'' : Compilation}

theorem Agree.symm (agree : c.Agree c') : c'.Agree c where
  referrals := agree.referrals.symm
  types := agree.types.symm
  dispatched := agree.dispatched.symm
  variableTypes := agree.variableTypes.symm
  returnTypes := agree.returnTypes.symm
  summaries := agree.summaries.symm
  answers q asks := (agree.answers q asks).symm
  effects access boundary g := (agree.effects access boundary g).symm

theorem Agree.trans (first : c.Agree c') (second : c'.Agree c'') : c.Agree c'' where
  referrals := second.referrals.trans first.referrals
  types := second.types.trans first.types
  dispatched := second.dispatched.trans first.dispatched
  variableTypes := second.variableTypes.trans first.variableTypes
  returnTypes := second.returnTypes.trans first.returnTypes
  summaries := second.summaries.trans first.summaries
  answers q asks := (second.answers q asks).trans (first.answers q asks)
  effects access boundary g := (second.effects access boundary g).trans (first.effects access boundary g)

theorem answer_same {α : Type} {rel : List Diagnostic → List Diagnostic → Prop} {x y : Analysis α} {facts other : Facts}
    {I : Facts → Prop} (accords : Accords rel Eq x y) (matched : facts.Matches rel other) (runs : Runs I x)
    (holds : I facts) : (y other).1 = (x facts).1 := by
  obtain ⟨a, after, ran, _⟩ := runs facts holds
  obtain ⟨b, after', ran', same, _⟩ := accords facts other matched a after ran
  rw [ran, ran', same]

theorem agree_of_matches (claims : ∀ m, r.modifiers m = m) (mirrors : c.program.Mirrors r c'.program)
    (reports : c.program.options.Reports r keep view c'.program.options) (bound : bind options modules = .ok c)
    (matched : c.facts.Matches (Retells keep view) c'.facts) : c.Agree c' := by
  obtain ⟨consistent, _, _, upright⟩ := session_upright bound
  have sound : Facts.Sound c.program {} c.facts := upright.sound
  refine ⟨matched.referrals, matched.types, matched.dispatched, matched.variableTypes, matched.returnTypes,
    matched.summaries, fun q asks => ?_, fun access boundary g => ?_⟩
  · by_cases known : q.Known c.program
    · exact answer_same (answer_accords mirrors reports claims asks) matched (known_question_runs consistent known) sound
    · exact unknown_same mirrors known _ _
  · by_cases known : c.program.HasFunction g
    · have there : (Part.declaration (.function g)).Known c.program := known
      exact answer_same (function_effects_accord mirrors reports claims access boundary g) matched
        (part_effects_run consistent there access boundary) sound
    · have missing : ¬(Part.declaration (.function g)).Known c.program := known
      have missing' : ¬(Part.declaration (.function g)).Known c'.program :=
        mt (has_declaration_mirrors mirrors (.function g)).mp known
      rw [part_effects_dangle missing, part_effects_dangle missing']

end Compilation

end SemanticAnalysis
