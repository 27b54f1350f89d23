import SemanticAnalysis.Memo
/-!
Scripts of requests to a family of cells. The computation of a cell may itself make requests, to any cell and to any
depth, before it succeeds or fails.
-/
namespace SemanticAnalysis

inductive Script (κ ε α : Type) where
  | look (key : κ)
  /-- Asks for a value; if it has to be computed, `inner` runs first and `result` is the result. -/
  | compute (key : κ) (inner : List (Script κ ε α)) (result : Except ε α)

inductive Script.Reply (ε α : Type) where
  | state (memo : Memo α)
  | value (inner : Option (List (Script.Reply ε α))) (result : Except ε (Option α))

structure Script.Run (κ ε α : Type) where
  cells : Cells κ α := {}
  replies : List (Script.Reply ε α) := []

namespace Script
variable {κ ε α : Type} [DecidableEq κ]

def Run.cell (key : κ) : Cell (Run κ ε α) α :=
  ⟨fun run => run.cells.state key, fun m run => { run with cells := run.cells.insert key m }⟩

def Run.reply (run : Run κ ε α) (r : Reply ε α) : Run κ ε α := { run with replies := run.replies ++ [r] }

mutual

def perform : Script κ ε α → Run κ ε α → Run κ ε α
  | .look key, run => run.reply (.state (run.cells.state key))
  | .compute key inner result, run =>
    let (value, after) :=
      (Run.cell key).compute (fun started => (result, performAll inner { started with replies := [] })) run
    let ran := match run.cells.state key with
      | .unknown => some after.replies
      | _ => none
    { cells := after.cells, replies := run.replies ++ [.value ran value] }

def performAll : List (Script κ ε α) → Run κ ε α → Run κ ε α
  | [], run => run
  | request :: rest, run => performAll rest (perform request run)

end

end Script

end SemanticAnalysis
