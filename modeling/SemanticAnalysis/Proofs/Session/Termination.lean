import Mathlib.Data.List.Nodup
import SemanticAnalysis.Proofs.Analysis.Recursion
import SemanticAnalysis.Proofs.Session.Requests
/-!
Analysis terminates, also where functions and variables refer to each other in circles. The main statement puts
together that every request in a session ends, that the recursion behind types and effects has a decreasing measure
and enters no cell twice on one call stack, and that the bounds of its definition are never felt.
-/
namespace SemanticAnalysis
open Analysis

/-- The recursion of a program's types and effects terminates. -/
structure Program.Terminates (p : Program) : Prop where
  typesDecrease : ∀ asker asked, p.AsksType asker asked → p.idleTypings asked.2 < p.idleTypings asker.2
  summariesDecrease : ∀ access asker asked, p.AsksSummary access asker asked →
    p.idleSummaries access asked.2 < p.idleSummaries access asker.2
  typingsOnce : ∀ stack : List (TypeQuestion × Facts), stack.IsChain p.AsksType →
    (stack.dropLast.map (fun call => call.1.declaration)).Nodup
  summariesOnce : ∀ access (stack : List (FunctionId × Facts)), stack.IsChain (p.AsksSummary access) →
    (stack.dropLast.map Prod.fst).Nodup
  typesUnfold : ∀ ask, ask = p.typesUsing ask ↔ ask = p.typeSource
  summariesUnfold : ∀ access ask, ask = p.summaryUsing access ask ↔ ask = p.summary access

theorem program_terminates (p : Program) : p.Terminates where
  typesDecrease _ _ := asks_type_decreases
  summariesDecrease _ _ _ := asks_summary_decreases
  typingsOnce stack calls := by
    have distinct := stack_cells_distinct (fun call : TypeQuestion × Facts => (call.1.declaration, Phase.typing))
      (fun call => call.2.phases) (fun _ _ asks => (asks_type_enters asks).2) calls
    exact List.Nodup.of_map (fun d => (d, Phase.typing)) (by rw [List.map_map]; exact distinct)
  summariesOnce access stack calls := by
    have distinct := stack_cells_distinct (fun call : FunctionId × Facts => (access, call.1))
      (fun call => call.2.summaries) (fun _ _ asks => (asks_summary_enters asks).2) calls
    exact List.Nodup.of_map (fun f => (access, f)) (by rw [List.map_map]; exact distinct)
  typesUnfold ask := ⟨type_source_unique, fun same => same ▸ type_source_unfolds p⟩
  summariesUnfold access ask := ⟨summary_unique, fun same => same ▸ summary_unfolds p access⟩

/-- For the program of any modules and from every state of a session: binding succeeds, nothing is in progress,
every request ends, and the recursion behind the requests terminates. -/
theorem analysis_terminates {options : Options} {modules : List Tree.Module} {s : Session}
    (reachable : Session.Reachable options modules s) :
    (∃ c, Compilation.bind options modules = .ok c) ∧
      ((∀ k, s.facts.phases.state k ≠ .inProgress) ∧ ∀ k, s.facts.summaries.state k ≠ .inProgress) ∧
      (∀ r, (r.Known s.program → (s.perform r).1 = none) ∧
        (¬ r.Known s.program → (∃ kind index, (s.perform r).1 = some (.danglingId kind index)) ∨
          ∃ span, (s.perform r).1 = some (.invalidInvocationTarget span))) ∧
      s.program.Terminates := by
  have settled := Session.reachable_settled reachable
  have built : ∃ p findings, Program.construct options modules = .ok (p, findings) := by
    induction reachable with
    | start built => exact ⟨_, _, built⟩
    | next _ _ ih => exact ih (Session.reachable_settled ‹_›)
  refine ⟨?_, ⟨?_, ?_⟩, fun r => (Session.request_ends settled r).2, program_terminates s.program⟩
  · obtain ⟨p, findings, ended⟩ := built
    rcases Compilation.construct_outcome options modules with ⟨_, _, _, failed⟩ | ⟨clear, _⟩
    · rw [failed] at ended
      cases ended
    · rcases Compilation.bind_outcome options modules with ⟨_, _, faulty, _⟩ | ⟨_, bound⟩
      · rw [clear] at faulty
        cases faulty
      · exact bound
  · intro k running
    have := (settled.sound.running.phases k).mp running
    simp [Cells.state] at this
  · intro k running
    have := (settled.sound.running.summaries k).mp running
    simp [Cells.state] at this

def Tree.name (text : String) : Tree.Expr := .name ⟨text, {}⟩ {}

def Tree.call (text : String) : Tree.Expr := .invocation (Tree.name text) [] {}

def Tree.returning (text : String) (value : Tree.Expr) : Tree.Item :=
  .function ⟨⟨text, {}⟩, {}, none, [], none, some (.mk [.ret (some value) {}] {}), {}⟩

def Tree.initialized (text : String) (value : Tree.Expr) : Tree.Item :=
  .variable ⟨⟨text, {}⟩, false, none, some value, {}⟩

/-- `f` and `g` return each other, `a` and `b` start as each other, `c` starts as itself, and `h` returns a variable
that starts as a call of `h`. -/
def Tree.circles : Tree.Module :=
  { path := []
    imports := []
    items := [Tree.returning "f" (Tree.call "g"), Tree.returning "g" (Tree.call "f"),
      Tree.initialized "a" (Tree.name "b"), Tree.initialized "b" (Tree.name "a"),
      Tree.initialized "c" (Tree.name "c"), Tree.returning "h" (Tree.name "d"),
      Tree.initialized "d" (Tree.call "h")]
    notices := []
    span := {} }

theorem circles_terminate : ∃ s, Session.Reachable {} [Tree.circles] s ∧
    (∃ c, Compilation.bind {} [Tree.circles] = .ok c) ∧
    (∀ r : Session.Request, r.Known s.program → (s.perform r).1 = none) ∧ s.program.Terminates := by
  rcases Compilation.construct_outcome {} [Tree.circles] with ⟨_, _, faulty, _⟩ | ⟨_, p, _, built, _⟩
  · cases faulty
  · have reachable := Session.Reachable.start built
    obtain ⟨bound, _, requests, terminates⟩ := analysis_terminates reachable
    exact ⟨_, reachable, bound, fun r => (requests r).1, terminates⟩

end SemanticAnalysis
