import Mathlib.Data.List.Induction
import SemanticAnalysis.Proofs.Compilation.Topics
import SemanticAnalysis.Proofs.Construction.Sealing
import SemanticAnalysis.Proofs.Session.Constancy
/-!
Members of structs. A name that is declared more than once is told of once, at its second declaration, before anything
else is told of the struct; and the name means its first declaration. This holds whenever a struct is asked about, since
what its first phase finds follows from the program alone.
-/
namespace SemanticAnalysis
open Running Analysis SemanticAnalysis.Bound

theorem erase_dups_in_order {α : Type} [DecidableEq α] (xs : List α) :
    xs.eraseDups.Pairwise (fun a b => xs.idxOf a < xs.idxOf b) := by
  induction xs using List.reverseRecOn with
  | nil => simp
  | append_singleton xs x ih =>
    have earlier : ∀ a ∈ xs.eraseDups, (xs ++ [x]).idxOf a = xs.idxOf a := fun a member =>
      List.idxOf_append_of_mem (List.mem_eraseDups.mp member)
    have kept : xs.eraseDups.Pairwise (fun a b => (xs ++ [x]).idxOf a < (xs ++ [x]).idxOf b) := by
      apply ih.imp_of_mem
      intro a b first second less
      rw [earlier a first, earlier b second]
      exact less
    rw [erase_dups_snoc]
    split
    · exact kept
    · rename_i new
      refine List.pairwise_append.mpr ⟨kept, by simp, ?_⟩
      intro a member b last
      have absent : x ∉ xs := fun here => new (List.mem_eraseDups.mpr here)
      rw [List.mem_singleton.mp last, earlier a member, List.idxOf_append_of_notMem absent, List.idxOf_cons_self]
      exact List.idxOf_lt_length_of_mem (List.mem_eraseDups.mp member)

namespace Bound.Struct
variable (s : Struct)

def names : List String := s.members.map Member.name

/-- The member is the second one of that name. -/
def Second (name : String) (m : Member) : Prop :=
  ∃ before after, s.members = before ++ m :: after ∧ m.name = name ∧ (before.map Member.name).count name = 1

/-- The finding gives the number of declarations of a name and the place of the second one. -/
def Tells (name : String) (d : Diagnostic) : Prop :=
  ∃ m, s.Second name m ∧ d = .ofError (.duplicateTypeMembers s.name name (s.names.count name)) m.decl.span

/-- The findings are about the names that are declared more than once, one about each, in the order of the text. -/
structure TellsDuplicates (found : List Diagnostic) (told : List String) : Prop where
  order : told.Pairwise (fun a b => s.names.idxOf a < s.names.idxOf b)
  names : ∀ name, name ∈ told ↔ 2 ≤ s.names.count name
  findings : List.Forall₂ s.Tells told found

variable {s}

theorem count_names (name : String) : s.names.count name = (s.members.filter (fun m => m.name == name)).length := by
  unfold names
  rw [List.count_eq_countP, List.countP_map, List.countP_eq_length_filter]
  rfl

theorem second_of_filter {name : String} {first second : Member} {rest : List Member}
    (found : s.members.filter (fun m => m.name == name) = first :: second :: rest) : s.Second name second := by
  have none : ∀ {ms : List Member}, (∀ m ∈ ms, ¬(m.name == name) = true) → (ms.map Member.name).count name = 0 := by
    intro ms others
    rw [List.count_eq_zero, List.mem_map]
    rintro ⟨m, member, same⟩
    exact others m member (by simp [same])
  obtain ⟨outer, inner, whole, before, named, rest_eq⟩ := List.filter_eq_cons_iff.mp found
  obtain ⟨between, after, whole', between_none, named', _⟩ := List.filter_eq_cons_iff.mp rest_eq
  refine ⟨outer ++ first :: between, after, ?_, by simpa using named', ?_⟩
  · rw [whole, whole', List.append_assoc, List.cons_append]
  · rw [List.map_append, List.map_cons, List.count_append, none before, List.count_cons, none between_none,
      if_pos named]

end Bound.Struct

namespace Bound

def noted : List Member → Option (Nat × Option Span)
  | [] => none
  | [_] => some (1, none)
  | _ :: second :: rest => some (rest.length + 2, some second.decl.span)

theorem noted_snoc (ms : List Member) (m : Member) :
    noted (ms ++ [m]) = some (((noted ms).getD (0, none)).1 + 1,
      if ((noted ms).getD (0, none)).1 + 1 = 2 then some m.decl.span else ((noted ms).getD (0, none)).2) := by
  rcases ms with _ | ⟨first, _ | ⟨second, rest⟩⟩ <;> simp [noted]

theorem noted_some_iff (ms : List Member) : (noted ms).isSome = true ↔ ms ≠ [] := by
  rcases ms with _ | ⟨first, _ | ⟨second, rest⟩⟩ <;> simp [noted]

/-- What a tally knows of the members that it has seen: the names in the order of their first declarations, and about
each the number of its declarations and the place of the second one. -/
structure Tally.Sums (t : Tally) (seen : List Member) : Prop where
  order : t.order = (seen.map Member.name).eraseDups
  counts : ∀ name, t.counts.find? name = noted (seen.filter (fun m => m.name == name))

theorem Tally.sums_add {t : Tally} {seen : List Member} (sums : t.Sums seen) (m : Member) :
    (t.add m).Sums (seen ++ [m]) := by
  constructor
  · have known : (t.counts.find? m.name).isSome = true ↔ m.name ∈ (seen.map Member.name).eraseDups := by
      rw [sums.counts, noted_some_iff, List.mem_eraseDups, Ne, List.filter_eq_nil_iff]
      simp
    simp only [add, known, List.map_append, List.map_cons, List.map_nil, erase_dups_snoc, sums.order]
  · intro name
    simp only [add, Table.find_insert, List.filter_append, sums.counts]
    by_cases same : name = m.name
    · simp [same, noted_snoc]
    · simp [same, Ne.symm same]

theorem Tally.sums_all (members : List Member) : (members.foldl Tally.add {}).Sums members := by
  induction members using List.reverseRecOn with
  | nil => exact ⟨rfl, fun _ => rfl⟩
  | append_singleton seen m ih =>
    rw [List.foldl_append]
    exact sums_add ih m

end Bound

namespace Bound.Struct
variable {s : Struct}

theorem findings_among {t : Tally} (sums : t.Sums s.members) (names : List String) :
    List.Forall₂ s.Tells (names.filter (fun name => 2 ≤ s.names.count name)) (names.filterMap (t.finding? s.name)) := by
  induction names with
  | nil => exact .nil
  | cons name names ih =>
    have count := count_names (s := s) name
    have entry := sums.counts name
    rw [List.filter_cons, List.filterMap_cons, Tally.finding?, entry]
    cases found : s.members.filter (fun m => m.name == name) with
    | nil =>
      rw [found] at count
      simpa [count, noted] using ih
    | cons first others =>
      cases others with
      | nil =>
        rw [found] at count
        simpa [count, noted] using ih
      | cons second rest =>
        rw [found, List.length_cons, List.length_cons] at count
        rw [if_pos (by simp [count])]
        refine .cons ⟨second, second_of_filter found, ?_⟩ ih
        rw [count]

theorem duplicates_told (s : Struct) :
    s.TellsDuplicates s.duplicates (s.names.eraseDups.filter (fun name => 2 ≤ s.names.count name)) := by
  have sums := Tally.sums_all s.members
  constructor
  · exact (erase_dups_in_order s.names).filter _
  · intro name
    rw [List.mem_filter, List.mem_eraseDups, decide_eq_true_iff]
    refine ⟨fun both => both.2, fun twice => ⟨List.count_pos_iff.mp ?_, twice⟩⟩
    exact Nat.lt_of_lt_of_le Nat.two_pos twice
  · rw [duplicates, sums.order]
    exact findings_among sums s.names.eraseDups

theorem member_first {before after : List Member} {m : Member} (whole : s.members = before ++ m :: after)
    (first : ∀ other ∈ before, other.name ≠ m.name) : s.member? m.name = some m := by
  unfold member?
  rw [whole, List.find?_append, List.find?_cons_of_pos (by simp), List.find?_eq_none.mpr, Option.none_or]
  intro other member
  simpa using first other member

end Bound.Struct

variable {p : Program}

theorem other_findings (s : Struct) {d : Diagnostic}
    (member : d ∈ p.memberTypeErrors s ++ (Expr.allNodes s.defaults).flatMap (Node.nameFindings p)) :
    d.error.cause.topic ≠ .declaration := by
  rcases List.mem_append.mp member with types | defaults
  · rw [Program.member_type_errors_topic s d types]
    simp
  · obtain ⟨n, _, found⟩ := List.mem_flatMap.mp defaults
    cases n with
    | identifier node name site =>
      unfold Node.nameFindings at found
      dsimp only at found
      split at found
      · rw [List.mem_singleton.mp found]
        simp [Diagnostic.ofError, Cause.topic]
      · cases found
    | number numeral site =>
      cases numeral with
      | malformed text =>
        rw [List.mem_singleton.mp found]
        simp [Diagnostic.forwarded, Cause.topic]
      | _ => cases found
    | call => cases found
    | member => cases found

def Facts.Told (p : Program) (facts : Facts) : Prop :=
  ∀ id found, facts.phases.state (.struct id, .resolution) = .computed found → p.MayFind (.struct id) found

theorem told_write {facts : Facts} {d : Declaration} {phase : Phase} {m : Memo (List Diagnostic)} (told : facts.Told p)
    (here : phase = .resolution → ∀ found, m = .computed found → p.MayFind d found) :
    ((Facts.phaseCell d phase).write m facts).Told p := by
  intro id found state
  rw [Facts.state_write] at state
  split at state
  · rename_i same
    cases same
    exact here rfl found state
  · exact told id found state

theorem told_steady (p : Program) : Steady p (Facts.Told p) where
  mentioned _ _ := trivial
  referral _ _ _ _ _ told := told
  type _ _ _ told := told
  dispatch _ _ _ told := told
  variableType _ _ _ told := told
  returnType _ _ _ told := told
  enterNames _ _ told := told_write told (by simp)
  leaveNames _ _ _ told finds := told_write told (fun _ _ same => by cases same; exact finds)
  enter _ _ told := told_write told (by simp)
  leave _ _ _ told _ := told_write told (by simp)
  validation _ _ _ told := told_write told (by simp)
  summary _ _ _ _ told := told

theorem told_empty : Facts.Told p {} := by
  intro id found state
  simp [Cells.state] at state

namespace Session

theorem step_told {s t : Session} (orderly : s.Orderly) (told : s.facts.Told s.program) (step : s.Step t) :
    t.facts.Told t.program := by
  rcases step_work orderly.settled.consistent step with ⟨scope, e, rfl⟩ | ⟨α, work, rfl, tidy, ends⟩
  · unfold bindExpr
    split
    · exact told
    · exact told
  · unfold ask
    rcases ends with runs | ⟨_, fails⟩
    · obtain ⟨a, after, ran, _⟩ := runs s.facts orderly.settled.sound
      rw [ran]
      exact ((tidy _ (told_steady s.program)).maintains s.facts told a after ran).1
    · rw [fails]
      exact told

theorem steps_told {s t : Session} (orderly : s.Orderly) (told : s.facts.Told s.program)
    (steps : Relation.ReflTransGen Step s t) : t.facts.Told t.program := by
  induction steps with
  | refl => exact told
  | tail before step ih => exact step_told (steps_continue orderly before).2 ih step

theorem first_phase_of_struct {s : Session} (orderly : s.Orderly) (told : s.facts.Told s.program) {id : StructId}
    {struct : Struct} (there : s.program.structs[id.index]? = some struct) :
    (s.answer (.phase (.declaration (.struct id)) .resolution)).1 = .ok (.findings (s.program.structFindings struct)) := by
  have consistent := orderly.settled.consistent
  have known : s.program.HasDeclaration (.struct id) := (Array.getElem?_eq_some_iff.mp there).1
  obtain ⟨found, after, ran, _⟩ := run_phase_runs consistent known .resolution s.facts orderly.settled.sound
  have recorded := run_phase_reports (orderly.idle _) ran
  have told' := ((run_phase_tidy (told_steady s.program) consistent (.struct id) .resolution).maintains s.facts told
    found after ran).1
  rw [← told' id found recorded id struct rfl there]
  simp only [Session.answer, ask, Question.answer, Part.runPhase, run_map, ran]

theorem member_type_of_struct {s : Session} {id : StructId} {struct : Struct}
    (there : s.program.structs[id.index]? = some struct) (name : String) :
    (s.answer (.memberType id name)).1 = .ok (.type (s.program.memberType struct name)) := by
  simp only [Session.answer, ask, Question.answer]
  rw [run_look_up (struct_at_ok_iff.mpr there)]
  rfl

end Session

open Session in
/-- At every time in a session, the first phase of a struct tells of each name that is declared more than once, one
finding for each name, in the order of the first declarations; with the number of declarations and at the second one.
Types of members and defaults come after that. The type of a member is that of its first declaration. -/
theorem duplicate_members_are_told_once {options : Options} {modules : List Tree.Module} {findings : List Diagnostic}
    (built : Program.construct options modules = .ok (p, findings)) {s : Session}
    (steps : Relation.ReflTransGen Step { program := p } s) {id : StructId} {struct : Struct}
    (there : p.structs[id.index]? = some struct) :
    struct.members.map Member.decl = struct.decl.members ∧
    (∃ duplicates names types defaults, struct.TellsDuplicates duplicates names ∧
      (s.answer (.phase (.declaration (.struct id)) .resolution)).1 = .ok (.findings (duplicates ++ types ++ defaults)) ∧
      types = p.memberTypeErrors struct ∧ defaults = (Expr.allNodes struct.defaults).flatMap (Node.nameFindings p) ∧
      ∀ d ∈ types ++ defaults, ∀ type member count, d.error.cause ≠ .duplicateTypeMembers type member count) ∧
    (∀ before m after, struct.members = before ++ m :: after → (∀ other ∈ before, other.name ≠ m.name) →
      (s.answer (.memberType id m.name)).1 = .ok (.type (p.resolvedType struct.scope (some m.decl.type)))) ∧
    ∀ name, name ∉ struct.names → (s.answer (.memberType id name)).1 = .ok (.type none) := by
  have start := construct_orderly built
  obtain ⟨⟨⟨nodes, same⟩, _⟩, orderly⟩ := steps_continue start steps
  have told := steps_told start told_empty steps
  have here : s.program.structs[id.index]? = some struct := by
    rw [same]
    exact there
  have phase := first_phase_of_struct orderly told here
  have types := member_type_of_struct here
  rw [same] at phase types
  refine ⟨?_, ⟨_, _, _, _, struct.duplicates_told, phase, rfl, rfl, ?_⟩, ?_, ?_⟩
  · exact (construct_seals built).members struct (Array.mem_toList_iff.mpr (Array.mem_of_getElem? there))
  · intro d member type name count equal
    apply other_findings struct member
    rw [equal]
    rfl
  · intro before m after whole first
    rw [types, Program.memberType, Struct.member_first whole first]
    rfl
  · intro name absent
    rw [types, Program.memberType, Struct.member?, List.find?_eq_none.mpr]
    · rfl
    · intro m member
      rw [beq_iff_eq]
      exact fun equal => absent (equal ▸ List.mem_map_of_mem member)

def Tree.crowded : Tree.Module :=
  let member (name type : String) : Tree.MemberDecl := ⟨⟨name, {}⟩, { name := ⟨type, {}⟩, span := {} }, none, {}⟩
  { path := []
    imports := []
    items := [.struct ⟨⟨"Crowd", {}⟩, [],
      [member "x" "Int", member "y" "Ghost", member "x" "Long", member "z" "Int", member "y" "Int", member "x" "Int"],
      {}⟩]
    notices := []
    span := {} }

theorem crowded_members_are_told_once : ∃ p findings struct, Program.construct {} [Tree.crowded] = .ok (p, findings) ∧
    p.structs[0]? = some struct ∧ struct.names = ["x", "y", "x", "z", "y", "x"] ∧
    (∃ duplicates names types defaults, struct.TellsDuplicates duplicates names ∧
      "x" ∈ names ∧ "y" ∈ names ∧ "z" ∉ names ∧
      (Session.answer { program := p } (.phase (.declaration (.struct ⟨0⟩)) .resolution)).1 =
        .ok (.findings (duplicates ++ types ++ defaults))) ∧
    (Session.answer { program := p } (.memberType ⟨0⟩ "w")).1 = .ok (.type none) := by
  have evaluated : (Program.construct {} [Tree.crowded]).toOption.any (fun built =>
      decide (built.1.structs[0]?.map Struct.names = some ["x", "y", "x", "z", "y", "x"])) = true := by decide +kernel
  obtain ⟨⟨p, findings⟩, built, names⟩ := ok_of_passed evaluated
  obtain ⟨struct, there, names⟩ := Option.map_eq_some_iff.mp names
  have first : p.structs[(⟨0⟩ : StructId).index]? = some struct := there
  obtain ⟨_, ⟨duplicates, told, types, defaults, tells, answer, _⟩, _, absent⟩ :=
    duplicate_members_are_told_once built .refl first
  refine ⟨p, findings, struct, built, there, names, ⟨duplicates, told, types, defaults, tells, ?_, ?_, ?_, answer⟩, ?_⟩
  · rw [tells.names, names]
    decide
  · rw [tells.names, names]
    decide
  · rw [tells.names, names]
    decide
  · apply absent
    rw [names]
    decide

end SemanticAnalysis
