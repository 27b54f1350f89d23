/-!
Finite tables. The newest entry of a key counts, so writing is adding an entry in front.
-/
namespace SemanticAnalysis

structure Table (κ ν : Type) where
  entries : List (κ × ν) := []

namespace Table
variable {κ ν : Type} [DecidableEq κ]

def find? (t : Table κ ν) (k : κ) : Option ν := t.entries.lookup k

def insert (t : Table κ ν) (k : κ) (v : ν) : Table κ ν := ⟨(k, v) :: t.entries⟩

/-- Writes an entry unless the key has one: what was written first stays. -/
def insertNew (t : Table κ ν) (k : κ) (v : ν) : Table κ ν :=
  match t.find? k with
  | some _ => t
  | none => t.insert k v

@[simp] theorem find_empty (k : κ) : ({} : Table κ ν).find? k = none := rfl

@[simp] theorem find_insert (t : Table κ ν) (k j : κ) (v : ν) :
    (t.insert k v).find? j = if j = k then some v else t.find? j := by
  rw [find?, insert, List.lookup_cons, find?]
  by_cases h : j = k
  · simp [h]
  · have different : (j == k) = false := by simpa using h
    simp [h, different]

@[simp] theorem find_insert_new (t : Table κ ν) (k j : κ) (v : ν) :
    (t.insertNew k v).find? j = if j = k then some ((t.find? k).getD v) else t.find? j := by
  rw [insertNew]
  cases h : t.find? k with
  | none => simp
  | some w => by_cases hj : j = k <;> simp [hj, h]

theorem insert_new_recorded (t : Table κ ν) (k : κ) (v : ν) : ∃ w, (t.insertNew k v).find? k = some w :=
  ⟨(t.find? k).getD v, by simp⟩

end Table

end SemanticAnalysis
