import SemanticAnalysis.Table
/-!
Facts that are computed at most once. A cell remembers that its computation has started, so a request from inside
that computation sees a cell in progress instead of starting over.
-/
namespace SemanticAnalysis

inductive Memo (α : Type) where
  | unknown
  | inProgress
  | computed (value : α)
deriving DecidableEq

namespace Memo
variable {α : Type}

def value? : Memo α → Option α
  | .computed value => some value
  | _ => none

def isInProgress : Memo α → Bool
  | .inProgress => true
  | _ => false

end Memo

structure Cell (σ α : Type) where
  read : σ → Memo α
  write : Memo α → σ → σ

/-- The value of a cell, computed by `body` if nothing is known. A cell in progress has no value to give and stays as
it is. A failing computation leaves the cell unknown and keeps whatever else it found out. -/
def Cell.compute {σ ε α : Type} (cell : Cell σ α) (body : ExceptT ε (StateM σ) α) :
    ExceptT ε (StateM σ) (Option α) := fun s =>
  match cell.read s with
  | .computed value => (.ok (some value), s)
  | .inProgress => (.ok none, s)
  | .unknown =>
    match body (cell.write .inProgress s) with
    | (.ok value, s) => (.ok (some value), cell.write (.computed value) s)
    | (.error e, s) => (.error e, cell.write .unknown s)

abbrev Cells (κ α : Type) := Table κ (Memo α)

namespace Cells
variable {κ α : Type} [DecidableEq κ]

def state (cells : Cells κ α) (key : κ) : Memo α := (cells.find? key).getD .unknown

def cell (key : κ) : Cell (Cells κ α) α := ⟨fun cells => cells.state key, fun m cells => cells.insert key m⟩

end Cells

end SemanticAnalysis
