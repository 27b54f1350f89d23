/-!
Sorting that keeps the order of elements which compare as equal. Insertion from the right: an element is put in
front of the first one it may precede, so what came first stays first among equals.
-/
namespace SemanticAnalysis
variable {α : Type}

def insertSorted (before : α → α → Bool) (x : α) : List α → List α
  | [] => [x]
  | y :: ys => if before x y then x :: y :: ys else y :: insertSorted before x ys

def stableSort (before : α → α → Bool) : List α → List α
  | [] => []
  | x :: xs => insertSorted before x (stableSort before xs)

theorem insert_sorted_perm (before : α → α → Bool) (x : α) (ys : List α) :
    (insertSorted before x ys).Perm (x :: ys) := by
  induction ys with
  | nil => exact .refl _
  | cons y ys ih =>
    rw [insertSorted]
    split
    · exact .refl _
    · exact (ih.cons y).trans (.swap x y ys)

theorem stable_sort_perm (before : α → α → Bool) (xs : List α) :
    (stableSort before xs).Perm xs := by
  induction xs with
  | nil => exact .refl _
  | cons x xs ih => exact (insert_sorted_perm before x _).trans (ih.cons x)

theorem insert_sorted_filter {before : α → α → Bool} {keep : α → Bool}
    (alike : ∀ a b, keep a = true → keep b = true → before a b = true) (x : α) (ys : List α) :
    (insertSorted before x ys).filter keep = (x :: ys).filter keep := by
  induction ys with
  | nil => rfl
  | cons y ys ih =>
    rw [insertSorted]
    split
    · rfl
    · rename_i after
      -- at most one of the two is kept
      rw [List.filter_cons, ih]
      by_cases here : keep y = true
      · have apart : ¬keep x = true := fun there => after (alike x y there here)
        simp [here, apart]
      · simp [List.filter_cons, here]

theorem stable_sort_filter {before : α → α → Bool} {keep : α → Bool}
    (alike : ∀ a b, keep a = true → keep b = true → before a b = true) (xs : List α) :
    (stableSort before xs).filter keep = xs.filter keep := by
  induction xs with
  | nil => rfl
  | cons x xs ih => rw [stableSort, insert_sorted_filter alike, List.filter_cons, List.filter_cons, ih]

section Sorted
variable {before : α → α → Bool}

theorem insert_sorted_pairwise {R : α → α → Prop} {x : α} {ys : List α}
    (front : ∀ y ∈ ys, before x y = true → R x y) (ahead : ∀ y, ∀ z ∈ ys, before x y = true → R y z → R x z)
    (behind : ∀ y, ¬before x y = true → R y x) (sorted : ys.Pairwise R) : (insertSorted before x ys).Pairwise R := by
  induction ys with
  | nil => exact List.pairwise_singleton _ _
  | cons y ys ih =>
    obtain ⟨first, rest⟩ := List.pairwise_cons.mp sorted
    rw [insertSorted]
    split
    · rename_i here
      apply List.pairwise_cons.mpr ⟨?_, sorted⟩
      intro z member
      rcases List.mem_cons.mp member with rfl | later
      · exact front z member here
      · exact ahead y z member here (first z later)
    · rename_i after
      have ordered := ih (fun z later => front z (List.mem_cons_of_mem y later))
        (fun w z later => ahead w z (List.mem_cons_of_mem y later)) rest
      apply List.pairwise_cons.mpr ⟨?_, ordered⟩
      intro z member
      rcases List.mem_cons.mp ((insert_sorted_perm _ _ _).mem_iff.mp member) with rfl | later
      · exact behind y after
      · exact first z later

theorem stable_sort_sorted (transitive : ∀ a b c, before a b = true → before b c = true → before a c = true)
    (total : ∀ a b, before a b = true ∨ before b a = true) (xs : List α) :
    (stableSort before xs).Pairwise (fun a b => before a b = true) := by
  induction xs with
  | nil => exact .nil
  | cons x xs ih =>
    exact insert_sorted_pairwise (fun _ _ first => first) (fun y z _ => transitive x y z)
      (fun y after => (total x y).resolve_left after) ih

end Sorted

def Precedes (key : α → Nat) (R : α → α → Prop) (a b : α) : Prop := key a < key b ∨ key a = key b ∧ R a b

/-- What stood in some order before stands in it afterwards, among equals. -/
theorem stable_sort_pairwise (key : α → Nat) {R : α → α → Prop} {xs : List α} (stood : xs.Pairwise R) :
    (stableSort (fun a b => key a ≤ key b) xs).Pairwise (Precedes key R) := by
  induction xs with
  | nil => exact .nil
  | cons x xs ih =>
    obtain ⟨first, rest⟩ := List.pairwise_cons.mp stood
    have precedes : ∀ y ∈ stableSort (fun a b => key a ≤ key b) xs, key x ≤ key y → Precedes key R x y := by
      intro y member le
      have stood := first y ((stable_sort_perm _ _).mem_iff.mp member)
      exact (Nat.lt_or_eq_of_le le).imp_right (fun equal => ⟨equal, stood⟩)
    refine insert_sorted_pairwise (fun y member here => precedes y member (of_decide_eq_true here))
      (fun y z member here later => precedes z member ?_) (fun y after => .inl ?_) (ih rest)
    · have le : key x ≤ key y := of_decide_eq_true here
      rcases later with less | ⟨equal, _⟩ <;> omega
    · exact Nat.lt_of_not_le (fun le => after (decide_eq_true le))

end SemanticAnalysis
