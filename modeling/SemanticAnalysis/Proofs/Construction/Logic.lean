import SemanticAnalysis.Bound.Construction
import SemanticAnalysis.Proofs.Construction.Calls
import SemanticAnalysis.Proofs.Running
/-!
Reasoning about construction. Work on a state is given a list of faults, the places of malformed calls it will come
to. It fails at the first of them; if there is none it ends with a result about which something holds. Faults of a
sequence of steps are those of the first step followed by those of the others.
-/
namespace SemanticAnalysis.Construction
variable {σ α β : Type}

theorem run_state_bind (x : StateT σ (Except InternalError) α) (f : α → StateT σ (Except InternalError) β) (s : σ) :
    (x >>= f) s = match x s with
      | .ok (a, t) => f a t
      | .error e => .error e := by
  change ((x s).bind fun (a, t) => f a t) = _
  cases x s <;> rfl

theorem run_state_get (f : σ → StateT σ (Except InternalError) β) (s : σ) : (get >>= f) s = f s s := rfl

/-- The work meets the first of the faults, or ends as described. -/
def Builds (x : StateT σ (Except InternalError) α) (s : σ) (faults : List Span) (P : α → σ → Prop) : Prop :=
  match faults with
  | [] => ∃ a t, x s = .ok (a, t) ∧ P a t
  | span :: _ => x s = .error (.invalidInvocationTarget span)

variable {x : StateT σ (Except InternalError) α} {f : α → StateT σ (Except InternalError) β} {s t : σ}
  {faults more : List Span} {P : α → σ → Prop} {Q : β → σ → Prop}

theorem builds_bind (first : Builds x s faults P) (second : ∀ a t, P a t → Builds (f a) t more Q) :
    Builds (x >>= f) s (faults ++ more) Q := by
  cases faults with
  | cons span rest =>
    change (x >>= f) s = _
    rw [run_state_bind, first]
  | nil =>
    obtain ⟨a, t, ran, holds⟩ := first
    have step : (x >>= f) s = f a t := by rw [run_state_bind, ran]
    unfold Builds
    rw [List.nil_append, step]
    exact second a t holds

theorem builds_clear (first : Builds x s [] P) (second : ∀ a t, P a t → Builds (f a) t more Q) :
    Builds (x >>= f) s more Q := builds_bind first second

theorem builds_step {a : α} (ran : x s = .ok (a, t)) (rest : Builds (f a) t more Q) : Builds (x >>= f) s more Q :=
  builds_clear (P := fun b u => b = a ∧ u = t) ⟨a, t, ran, rfl, rfl⟩ (by rintro _ _ ⟨rfl, rfl⟩; exact rest)

theorem builds_last (first : Builds x s faults P) (second : ∀ a t, P a t → Builds (f a) t [] Q) :
    Builds (x >>= f) s faults Q := by
  have whole := builds_bind first second
  rwa [List.append_nil] at whole

theorem builds_pure {a : α} (holds : P a s) : Builds (pure a) s [] P := ⟨a, s, rfl, holds⟩

theorem builds_done {a : α} (ran : x s = .ok (a, t)) (holds : P a t) : Builds x s [] P := ⟨a, t, ran, holds⟩

theorem builds_weaken {P' : α → σ → Prop} (strong : Builds x s faults P) (weaker : ∀ a t, P a t → P' a t) :
    Builds x s faults P' := by
  cases faults with
  | cons span rest => exact strong
  | nil =>
    obtain ⟨a, t, ran, holds⟩ := strong
    exact ⟨a, t, ran, weaker a t holds⟩

/-- A loop. The invariant speaks of the part of the list that is done and of its results. -/
theorem builds_map {g : α → StateT σ (Except InternalError) β} {faultsOf : α → List Span}
    {J : List α → List β → σ → Prop} (xs : List α) (start : J [] [] s)
    (step : ∀ done x rest results t, xs = done ++ x :: rest → J done results t →
      Builds (g x) t (faultsOf x) (fun b u => J (done ++ [x]) (results ++ [b]) u)) :
    Builds (xs.mapM g) s (xs.flatMap faultsOf) (J xs) := by
  induction xs generalizing J s with
  | nil => exact builds_pure start
  | cons x rest ih =>
    rw [List.mapM_cons, List.flatMap_cons]
    refine builds_bind (step [] x rest [] s rfl start) (fun b t holds => ?_)
    -- the rest of the list is a loop of its own, which goes on with the first result
    refine builds_last (ih (J := fun done results => J (x :: done) (b :: results)) holds ?_)
      (fun more u holds' => builds_pure holds')
    intro done y later results u whole holds'
    exact step (x :: done) y later (b :: results) u (by rw [whole]; rfl) holds'

theorem for_each_map (g : α → StateT σ (Except InternalError) PUnit) (xs : List α) :
    xs.forM g = xs.mapM g >>= fun _ => pure ⟨⟩ := by
  induction xs with
  | nil => rfl
  | cons x rest ih =>
    change (g x >>= fun _ => rest.forM g) = _
    simp [ih]

theorem builds_for {g : α → StateT σ (Except InternalError) PUnit} (faultsOf : α → List Span) {J : List α → σ → Prop}
    (xs : List α) (start : J [] s)
    (step : ∀ done x rest t, xs = done ++ x :: rest → J done t →
      Builds (g x) t (faultsOf x) (fun _ u => J (done ++ [x]) u)) :
    Builds (xs.forM g) s (xs.flatMap faultsOf) (fun _ u => J xs u) := by
  rw [for_each_map]
  refine builds_last (builds_map (J := fun done _ => J done) xs start ?_) (fun _ _ holds => builds_pure holds)
  exact fun done x rest _ => step done x rest

theorem no_faults (xs : List α) : xs.flatMap (fun _ => ([] : List Span)) = [] := by
  simp

theorem builds_map_clear {g : α → StateT σ (Except InternalError) β} {J : List α → List β → σ → Prop} (xs : List α)
    (start : J [] [] s)
    (step : ∀ done x rest results t, xs = done ++ x :: rest → J done results t →
      Builds (g x) t [] (fun b u => J (done ++ [x]) (results ++ [b]) u)) :
    Builds (xs.mapM g) s [] (J xs) :=
  no_faults xs ▸ builds_map xs start step

theorem builds_for_clear {g : α → StateT σ (Except InternalError) PUnit} {J : List α → σ → Prop}
    (xs : List α) (start : J [] s)
    (step : ∀ done x rest t, xs = done ++ x :: rest → J done t →
      Builds (g x) t [] (fun _ u => J (done ++ [x]) u)) :
    Builds (xs.forM g) s [] (fun _ u => J xs u) :=
  no_faults xs ▸ builds_for (fun _ => []) xs start step

/-- If the work ends, it ends as described. -/
def Yields (x : StateT σ (Except InternalError) α) (s : σ) (P : α → σ → Prop) : Prop :=
  ∀ a t, x s = .ok (a, t) → P a t

theorem yields_bind (first : Yields x s P) (second : ∀ a t, P a t → Yields (f a) t Q) : Yields (x >>= f) s Q := by
  intro b u ran
  rw [run_state_bind] at ran
  split at ran
  · rename_i a t ran'
    exact second a t (first a t ran') b u ran
  · cases ran

theorem yields_step {a : α} (ran : x s = .ok (a, t)) (rest : Yields (f a) t Q) : Yields (x >>= f) s Q :=
  yields_bind (P := fun b u => b = a ∧ u = t)
    (by
      intro b u ran'
      rw [ran] at ran'
      cases ran'
      exact ⟨rfl, rfl⟩)
    (by rintro _ _ ⟨rfl, rfl⟩; exact rest)

theorem yields_pure {a : α} (holds : P a s) : Yields (pure a) s P := by
  intro b t ran
  cases ran
  exact holds

theorem yields_done {a : α} (ran : x s = .ok (a, t)) (holds : P a t) : Yields x s P := by
  intro b u ran'
  rw [ran] at ran'
  cases ran'
  exact holds

theorem yields_weaken {P' : α → σ → Prop} (strong : Yields x s P) (weaker : ∀ a t, P a t → P' a t) :
    Yields x s P' := fun a t ran => weaker a t (strong a t ran)

theorem yields_and {P' : α → σ → Prop} (first : Yields x s P) (second : Yields x s P') :
    Yields x s (fun a t => P a t ∧ P' a t) := fun a t ran => ⟨first a t ran, second a t ran⟩

theorem yields_of_builds (builds : Builds x s faults P) : Yields x s P := by
  intro a t ran
  unfold Builds at builds
  split at builds
  · obtain ⟨b, u, ran', holds⟩ := builds
    rw [ran] at ran'
    cases ran'
    exact holds
  · rw [ran] at builds
    cases builds

theorem yields_map {g : α → StateT σ (Except InternalError) β} {J : List α → List β → σ → Prop} (xs : List α)
    (start : J [] [] s)
    (step : ∀ done x rest results t, xs = done ++ x :: rest → J done results t →
      Yields (g x) t (fun b u => J (done ++ [x]) (results ++ [b]) u)) :
    Yields (xs.mapM g) s (J xs) := by
  induction xs generalizing J s with
  | nil => exact yields_pure start
  | cons x rest ih =>
    rw [List.mapM_cons]
    refine yields_bind (step [] x rest [] s rfl start) (fun b t holds => ?_)
    refine yields_bind (ih (J := fun done results => J (x :: done) (b :: results)) holds ?_)
      (fun more u holds' => yields_pure holds')
    intro done y later results u whole holds'
    exact step (x :: done) y later (b :: results) u (by rw [whole]; rfl) holds'

theorem yields_for {g : α → StateT σ (Except InternalError) PUnit} {J : List α → σ → Prop} (xs : List α)
    (start : J [] s)
    (step : ∀ done x rest t, xs = done ++ x :: rest → J done t → Yields (g x) t (fun _ u => J (done ++ [x]) u)) :
    Yields (xs.forM g) s (fun _ u => J xs u) := by
  rw [for_each_map]
  refine yields_bind (yields_map (J := fun done _ => J done) xs start ?_) (fun _ _ holds => yields_pure holds)
  exact fun done x rest _ => step done x rest

theorem yields_each {g : α → StateT σ (Except InternalError) β} {I : σ → Prop} {R : β → Prop} (xs : List α)
    (start : I s) (each : ∀ x t, I t → Yields (g x) t (fun b u => I u ∧ R b)) :
    Yields (xs.mapM g) s (fun bs u => I u ∧ ∀ b ∈ bs, R b) := by
  refine yields_map (J := fun _ bs u => I u ∧ ∀ b ∈ bs, R b) xs ⟨start, by simp⟩ ?_
  rintro done x rest bs t _ ⟨holds, before⟩
  refine yields_weaken (each x t holds) ?_
  rintro b u ⟨holds', new⟩
  exact ⟨holds', each_snoc before new⟩

theorem yields_import {p : Program} {P : List Diagnostic → Program → Prop} (scope : ScopeId) (i : Tree.Import)
    (missing : p.scopes.findModule? i.target = none → P [.ofError (.unresolvedImport i.target) i.span] p)
    (there : ∀ imported, p.scopes.findModule? i.target = some imported →
      P [] { p with scopes := p.scopes.addImport scope imported }) : Yields (resolveImport scope i) p P := by
  cases found : p.scopes.findModule? i.target with
  | none =>
    refine yields_done (a := [.ofError (.unresolvedImport i.target) i.span]) (t := p) ?_ (missing found)
    dsimp only [resolveImport, modifyGet, MonadStateOf.modifyGet, StateT.modifyGet]
    rw [found]
    rfl
  | some imported =>
    refine yields_done (a := []) ?_ (there imported found)
    dsimp only [resolveImport, modifyGet, MonadStateOf.modifyGet, StateT.modifyGet]
    rw [found]
    rfl

theorem yields_imports {p : Program} {I : Program → Prop} {D : Diagnostic → Prop}
    (entries : List (Tree.Module × (ScopeId × List Declared))) (start : I p)
    (each : ∀ scope i q, I q → Yields (resolveImport scope i) q (fun found r => I r ∧ ∀ d ∈ found, D d)) :
    Yields (entries.mapM (fun entry => entry.1.imports.mapM (resolveImport entry.2.1))) p (fun unresolved q =>
      I q ∧ ∀ d ∈ unresolved.flatten.flatten, D d) := by
  refine yields_weaken (yields_each entries start (fun entry q holds =>
    yields_each entry.1.imports holds (each entry.2.1))) ?_
  rintro unresolved q ⟨holds, all⟩
  refine ⟨holds, fun d member => ?_⟩
  obtain ⟨found, inner, inside⟩ := List.mem_flatten.mp member
  obtain ⟨ofModule, outer, inner⟩ := List.mem_flatten.mp inner
  exact all ofModule outer found inner d inside

end SemanticAnalysis.Construction
