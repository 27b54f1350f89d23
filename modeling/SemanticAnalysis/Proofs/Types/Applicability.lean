import SemanticAnalysis.Overload
import SemanticAnalysis.Proofs.Types.Queries
/-!
When a function applies to operands, and how far it is from them. What is asked of a sealed hierarchy has an answer, so
the search for a distance ends, with a distance exactly for the functions that apply.
-/
namespace SemanticAnalysis
open Running TypeHierarchy

/-- A number is found if there is one, and it is the only one. -/
def Measures (found : Option Nat) (P : Nat → Prop) : Prop := ∀ n, found = some n ↔ P n

theorem measures_none {P : Nat → Prop} (never : ∀ n, ¬ P n) : Measures none P := by
  intro n
  constructor
  · intro impossible
    cases impossible
  · intro holds
    exact absurd holds (never n)

theorem measures_some {P : Nat → Prop} {n : Nat} (holds : P n) (only : ∀ m, P m → m = n) : Measures (some n) P := by
  intro m
  constructor
  · intro same
    cases same
    exact holds
  · intro other
    rw [only m other]

namespace TypeHierarchy
variable {h : TypeHierarchy}

theorem measure_ok (sealed : h.Sealed) {a b : TypeId} (there : h.Has a) {ask : Except InternalError Bool}
    {condition : Prop} (answers : ∃ answer, ask = .ok answer ∧ (answer = true ↔ condition ∧ h.Below a b)) :
    ∃ found, (do if ← ask then some <$> h.distance a b else pure none : Except InternalError (Option Nat)) = .ok found ∧
      Measures found (fun n => condition ∧ h.Away n a b) := by
  obtain ⟨answer, asked, meaning⟩ := answers
  rw [asked, ok_bind]
  cases answer with
  | true =>
    obtain ⟨holds, below⟩ := meaning.mp rfl
    obtain ⟨n, counted, shortest⟩ := distance_shortest sealed there below
    refine ⟨some n, by rw [if_pos rfl, counted]; rfl, measures_some ⟨holds, shortest⟩ ?_⟩
    intro m other
    exact Away.unique other.2 shortest
  | false =>
    refine ⟨none, by rw [if_neg Bool.false_ne_true]; rfl, measures_none ?_⟩
    intro n away
    exact Bool.false_ne_true (meaning.mpr ⟨away.1, walk_below away.2.1⟩)

end TypeHierarchy

namespace Overload
variable {h : TypeHierarchy} {s : Signature}

/-- A function without a receiver is called without one. Where the declared receiver is not known, any type will do. -/
inductive ReceiverFits (h : TypeHierarchy) (s : Signature) : Option TypeRef → Nat → Prop where
  | absent (without : s.hasReceiver = false) : ReceiverFits h s none 0
  | unstated (actual : TypeRef) (has : s.hasReceiver = true) (unknown : s.receiver = none) :
      ReceiverFits h s (some actual) 0
  | below (actual declared : TypeRef) (n : Nat) (has : s.hasReceiver = true) (stated : s.receiver = some declared)
      (away : h.Away n actual.base declared.base) : ReceiverFits h s (some actual) n

/-- Nothing is asked of an argument or a parameter of unknown type. -/
inductive ArgumentFits (h : TypeHierarchy) : Option TypeRef → Option TypeRef → Nat → Prop where
  | unstated (argument : Option TypeRef) : ArgumentFits h none argument 0
  | unknown (param : TypeRef) : ArgumentFits h (some param) none 0
  | below (param argument : TypeRef) (n : Nat) (nullable : argument.nullable = true → param.nullable = true)
      (away : h.Away n argument.base param.base) : ArgumentFits h (some param) (some argument) n

/-- There are as many arguments as parameters, and each fits its own. -/
inductive ArgumentsFit (h : TypeHierarchy) : List (Option TypeRef) → List (Option TypeRef) → Nat → Prop where
  | nil : ArgumentsFit h [] [] 0
  | cons {param argument : Option TypeRef} {params arguments : List (Option TypeRef)} {n m : Nat}
      (first : ArgumentFits h param argument n) (rest : ArgumentsFit h params arguments m) :
      ArgumentsFit h (param :: params) (argument :: arguments) (n + m)

def Applies (h : TypeHierarchy) (s : Signature) (receiver : Option TypeRef) (arguments : List (Option TypeRef))
    (d : Nat) : Prop :=
  ∃ n m, ReceiverFits h s receiver n ∧ ArgumentsFit h s.params arguments m ∧ d = n + m

def Known (h : TypeHierarchy) (t : Option TypeRef) : Prop := ∀ known, t = some known → h.Has known.base

theorem receiver_distance_fits (sealed : h.Sealed) {receiver : Option TypeRef} (known : Known h receiver) :
    ∃ found, receiverDistance h s receiver = .ok found ∧ Measures found (ReceiverFits h s receiver) := by
  cases receiver with
  | none =>
    refine ⟨_, rfl, ?_⟩
    cases has : s.hasReceiver with
    | true =>
      apply measures_none
      rintro n ⟨without⟩
      cases has.symm.trans without
    | false =>
      apply measures_some (.absent has)
      rintro n ⟨_⟩
      rfl
  | some actual =>
    unfold receiverDistance
    cases has : s.hasReceiver with
    | false =>
      refine ⟨none, rfl, measures_none ?_⟩
      intro n fits
      cases fits with
      | unstated _ has' => cases has.symm.trans has'
      | below _ _ _ has' => cases has.symm.trans has'
    | true =>
      dsimp only
      rw [if_pos rfl]
      cases stated : s.receiver with
      | none =>
        refine ⟨some 0, rfl, measures_some (.unstated actual has stated) ?_⟩
        intro n fits
        cases fits with
        | unstated => rfl
        | below _ _ _ _ other => cases stated.symm.trans other
      | some declared =>
        obtain ⟨answer, asked, meaning⟩ :=
          is_subtype_iff_below sealed (known actual rfl) declared.base
        obtain ⟨found, measured, distance⟩ := measure_ok sealed (known actual rfl)
          ⟨answer, asked, meaning.trans (iff_of_eq (true_and _).symm)⟩
        refine ⟨found, measured, ?_⟩
        intro n
        rw [distance n]
        constructor
        · rintro ⟨_, away⟩
          exact .below actual declared n has stated away
        · intro fits
          cases fits with
          | unstated _ _ unknown => cases stated.symm.trans unknown
          | below _ _ _ _ other away =>
            cases stated.symm.trans other
            exact ⟨trivial, away⟩

theorem argument_distance_fits (sealed : h.Sealed) (param : Option TypeRef) {argument : Option TypeRef}
    (known : Known h argument) :
    ∃ found, argumentDistance h param argument = .ok found ∧ Measures found (ArgumentFits h param argument) := by
  cases param with
  | none =>
    refine ⟨some 0, rfl, measures_some (.unstated argument) ?_⟩
    rintro n ⟨_⟩
    rfl
  | some param =>
    cases argument with
    | none =>
      refine ⟨some 0, rfl, measures_some (.unknown param) ?_⟩
      rintro n ⟨_⟩
      rfl
    | some argument =>
      obtain ⟨found, measured, distance⟩ := measure_ok sealed (known argument rfl)
        (is_assignable_iff_accepts sealed argument param (known argument rfl))
      refine ⟨found, measured, ?_⟩
      intro n
      rw [distance n]
      constructor
      · rintro ⟨nullable, away⟩
        exact .below param argument n nullable away
      · intro fits
        cases fits with
        | below _ _ _ nullable away => exact ⟨nullable, away⟩

theorem arguments_distance_fits (sealed : h.Sealed) {params arguments : List (Option TypeRef)}
    (known : ∀ t ∈ arguments, Known h t) (paired : params.length = arguments.length) :
    ∃ found, argumentsDistance h (params.zip arguments) = .ok found ∧
      Measures found (ArgumentsFit h params arguments) := by
  induction params generalizing arguments with
  | nil =>
    cases List.eq_nil_of_length_eq_zero paired.symm
    refine ⟨some 0, rfl, measures_some .nil ?_⟩
    rintro n ⟨⟩
    rfl
  | cons param params ih =>
    cases arguments with
    | nil => cases paired
    | cons argument arguments =>
      obtain ⟨first, measured, here⟩ := argument_distance_fits sealed param (known argument (by simp))
      obtain ⟨others, counted, later⟩ := ih (fun t member => known t (List.mem_cons_of_mem _ member))
        (Nat.succ.inj paired)
      rw [List.zip_cons_cons, argumentsDistance, measured, ok_bind]
      cases first with
      | none =>
        refine ⟨none, rfl, measures_none ?_⟩
        intro n fits
        cases fits with
        | cons fits => cases (here _).mpr fits
      | some distance =>
        refine ⟨others.map (fun d => distance + d), by dsimp only; rw [counted]; rfl, ?_⟩
        intro n
        constructor
        · intro same
          obtain ⟨m, total, rfl⟩ := Option.map_eq_some_iff.mp same
          exact .cons ((here _).mp rfl) ((later m).mp total)
        · intro fits
          cases fits with
          | cons fits rest =>
            cases (here _).mpr fits
            rw [(later _).mpr rest]
            rfl

theorem arguments_fit_length {params arguments : List (Option TypeRef)} {n : Nat}
    (fits : ArgumentsFit h params arguments n) : params.length = arguments.length := by
  induction fits with
  | nil => rfl
  | cons _ _ ih => rw [List.length_cons, List.length_cons, ih]

theorem candidate_distance_applies (sealed : h.Sealed) {receiver : Option TypeRef} {arguments : List (Option TypeRef)}
    (known : Known h receiver) (others : ∀ t ∈ arguments, Known h t) :
    ∃ found, candidateDistance h s receiver arguments = .ok found ∧
      Measures found (Applies h s receiver arguments) := by
  obtain ⟨first, measured, here⟩ := receiver_distance_fits (s := s) sealed known
  rw [candidateDistance, measured, ok_bind]
  cases first with
  | none =>
    refine ⟨none, rfl, measures_none ?_⟩
    rintro d ⟨n, _, fits, _⟩
    cases (here n).mpr fits
  | some distance =>
    dsimp only
    by_cases paired : s.params.length = arguments.length
    · obtain ⟨rest, counted, later⟩ := arguments_distance_fits sealed others paired
      rw [if_pos paired, counted, ok_bind]
      refine ⟨rest.map (fun d => distance + d), rfl, ?_⟩
      intro d
      constructor
      · intro same
        obtain ⟨m, total, rfl⟩ := Option.map_eq_some_iff.mp same
        exact ⟨distance, m, (here _).mp rfl, (later m).mp total, rfl⟩
      · rintro ⟨n, m, fits, rest_fits, rfl⟩
        cases (here n).mpr fits
        rw [(later m).mpr rest_fits]
        rfl
    · rw [if_neg paired]
      refine ⟨none, rfl, measures_none ?_⟩
      rintro d ⟨_, m, _, fits, _⟩
      exact paired (arguments_fit_length fits)

end Overload

end SemanticAnalysis
