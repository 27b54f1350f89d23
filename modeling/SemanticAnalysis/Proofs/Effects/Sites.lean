import Mathlib.Data.List.Perm.Subperm
import SemanticAnalysis.Proofs.Drafting.Numbering
import SemanticAnalysis.Proofs.Effects.Widening
/-!
Effects and their places. A summary lists each place once. In modules that were made at one desk every place belongs to
one expression or statement, and a body visits each of those at most once, so that no effect is lost in the list.
-/
namespace SemanticAnalysis
open Running SemanticAnalysis.Bound

theorem erase_dups_self {α : Type} [BEq α] [LawfulBEq α] {xs : List α} (apart : xs.Nodup) : xs.eraseDups = xs := by
  induction xs with
  | nil => rfl
  | cons x rest ih =>
    obtain ⟨new, apart⟩ := List.nodup_cons.mp apart
    have all : rest.filter (fun y => !y == x) = rest := by
      refine List.filter_eq_self.mpr (fun y among => ?_)
      simp [show y ≠ x from fun same => new (same ▸ among)]
    rw [List.eraseDups_cons, all, ih apart]

namespace Program

theorem nodes_visits_spans (access : Access) (ns : List Node) :
    ((ns.flatMap (Node.visits access)).map Visit.span).Sublist (ns.map Node.span) := by
  induction ns with
  | nil => exact .slnil
  | cons n rest ih =>
    have own : ((n.visits access).map Visit.span).Sublist [n.span] := by
      cases n with
      | identifier => cases access <;> simp [Node.visits, Visit.span, Node.span]
      | _ => simp [Node.visits, Visit.span, Node.span]
    rw [List.flatMap_cons, List.map_append]
    exact own.append ih

theorem step_visits_spans (p : Program) (access : Access) (step : Step) :
    ((p.stepVisits access step).map Visit.span).Subperm ((p.stepNodes step).map Node.span ++ step.ownSpans) := by
  cases step with
  | node n => simpa [stepVisits, stepNodes, Step.ownSpans] using (nodes_visits_spans access [n]).subperm
  | introduce id => simpa [stepVisits, stepNodes, Step.ownSpans] using (nodes_visits_spans access _).subperm
  | assign target value site =>
    have own : ((target.written access site).map Visit.span).Sublist [site.span] := by
      unfold Expr.written
      split <;> simp [Visit.span]
    have evaluated : target.targetNodes.Sublist target.nodes := by
      unfold Expr.targetNodes
      split <;> simp
    have nodes := (nodes_visits_spans access (target.targetNodes ++ value.nodes)).trans
      ((evaluated.append_right value.nodes).map Node.span)
    rw [stepVisits, stepNodes, Step.ownSpans, List.map_append]
    exact (own.append nodes).subperm.trans List.perm_append_comm.subperm

theorem steps_visits_spans (p : Program) (access : Access) (steps : List Step) :
    ((steps.flatMap (p.stepVisits access)).map Visit.span).Subperm (p.stepsSpans steps) := by
  induction steps with
  | nil => exact .refl _
  | cons step rest ih =>
    rw [List.flatMap_cons, List.map_append, stepsSpans, List.flatMap_cons]
    exact (step_visits_spans p access step).append ih

section Places
variable {p : Program} {modules : List Tree.Module} {ds : List Construction.Declared} (lexical : p.Lexical modules ds)
  (apart : ((modules.flatMap Tree.Module.contents).map Tree.Content.span).Nodup) {g : FunctionId} {f : Function}
  {body : Block} (found : p.functions[g.index]? = some f) (written : f.body = some body)
include lexical apart found written

theorem visits_apart (access : Access) : ((p.visits access body).map Visit.span).Nodup := by
  obtain ⟨module, _, _, decl, _, _, closed, _, placed⟩ := body_closed lexical found (by simp [written])
  obtain ⟨m, among, item⟩ := List.mem_flatMap.mp placed
  obtain ⟨item, listed, same⟩ := List.mem_map.mp item
  cases same
  have shown := closed.spans
  rw [written] at shown
  have inner : (Tree.Item.function decl).contents.Sublist m.contents :=
    List.sublist_flatten_of_mem (List.mem_map_of_mem listed)
  have outer : m.contents.Sublist (modules.flatMap Tree.Module.contents) :=
    List.sublist_flatten_of_mem (List.mem_map_of_mem among)
  obtain ⟨spans, perm, sublist⟩ := steps_visits_spans p access body.steps
  exact perm.nodup_iff.mp (apart.sublist (sublist.trans (shown.trans ((inner.trans outer).map _))))

theorem offending_offences (links : Links) (access : Access) :
    p.offending links access f body = p.offences links access f (p.visits access body) :=
  erase_dups_self ((visits_apart lexical apart found written access).sublist (List.filter_sublist.map _))

end Places

end Program

theorem Session.body_effects {p : Program} {facts : Facts} (consistent : p.Consistent) {modules : List Tree.Module}
    {ds : List Construction.Declared} (lexical : p.Lexical modules ds) (faithful : facts.links.Faithful p)
    (formed : p.Formed) {s : Session} (upright : s.Upright p facts.links (Facts.Settled p facts.links))
    {g : FunctionId} {f : Function} {body : Block} (found : p.functions[g.index]? = some f)
    (written : f.body = some body) (access : Access) :
    ∃ effects, (s.ask ((Fragment.block body).effects s.program access f.scope)).1 = .ok effects ∧
      effects.map Effect.span = p.offences facts.links access f (p.visits access body) := by
  obtain ⟨rfl, sound, upright⟩ := upright
  have surrounds := contains_nested formed (.body found written) _ .refl
  obtain ⟨effects, after, ran, _⟩ := Program.fragment_effects_run consistent surrounds access f.scope s.facts sound
  have asks : ∀ h, s.program.Calls facts.links access g h →
      Analysis.Ensures (Facts.Upright s.program facts.links (Facts.Settled s.program facts.links) {})
        (s.program.summary access h) (s.program.Answers facts.links access h) := by
    intro h _ now holds answer later told
    obtain ⟨holds', summary, rfl, right⟩ :=
      summary_told (settled_groundwork _ _) consistent lexical faithful access h now holds answer later told
    exact ⟨holds', right⟩
  obtain ⟨_, spans⟩ := body_spans lexical faithful found written
    (fun now holds => ⟨fun i _ => by rw [← holds.ground.tables]; rfl, fun _ _ _ _ => by rw [← holds.ground.tables]; rfl⟩)
    asks s.facts upright effects after ran
  refine ⟨effects, ?_, spans⟩
  unfold ask
  rw [ran]

/-- Drafts that fix no place are numbered at one desk. In all modules that are made at one desk, no two expressions or
statements share a place, and every expression stands below the expressions in it. After a compilation of them and any
questions about effects, the summary of a function with a body lists as many places as there are effects in the body
beyond the function: the place of each. -/
theorem places_tell_effects_apart :
    (∀ drafts : List Draft.Module, drafts.all Draft.Module.free = true →
      Drafting.Made (Draft.number drafts).2 (Draft.number drafts).1) ∧
    ∀ line modules, Drafting.Made line modules →
      ((modules.flatMap Tree.Module.contents).map Tree.Content.span).Nodup ∧
      (∀ x ∈ modules.flatMap Tree.Module.contents, 1 ≤ x.span.line ∧ x.span.line < line) ∧
      (∀ e, .expr e ∈ modules.flatMap Tree.Module.contents → ∀ i ∈ e.inner, i.span.line < e.span.line) ∧
      ∀ options c, Compilation.bind options modules = .ok c →
        ∀ s, Relation.ReflTransGen Session.Probes c.session s →
          ∀ (g : FunctionId) f body, c.program.functions[g.index]? = some f → f.body = some body → ∀ access,
            ∃ summary effects, (s.answer (.summary access g)).1 = .ok (.summary (some summary)) ∧
              (s.ask ((Fragment.block body).effects s.program access f.scope)).1 = .ok effects ∧
              summary.offending = effects.map Effect.span ∧ summary.offending.length = effects.length := by
  refine ⟨fun drafts => Drafting.drafts_made, fun line modules made => ?_⟩
  have all : Drafting.Desk.contents ⟨line, modules.map .module⟩ = modules.flatMap Tree.Module.contents :=
    List.flatMap_map _ _ _
  obtain ⟨_, apart, used, rising⟩ := Drafting.made_tidy made
  rw [all] at apart used rising
  refine ⟨apart, used, rising, ?_⟩
  intro options c bound s probes g f body found written access
  obtain ⟨findings, _, built, _, _⟩ := Compilation.bind_ok_parts bound
  obtain ⟨consistent, ⟨ds, lexical⟩, faithful, before⟩ := Compilation.session_upright bound
  have formed := construct_formed built
  have upright := Session.probes_upright consistent lexical faithful formed before probes
  have there : c.program.HasFunction g := (Array.getElem?_eq_some_iff.mp found).1
  obtain ⟨summary, answered, right⟩ :=
    Session.summary_answered (settled_groundwork _ _) consistent lexical faithful upright access there
  obtain ⟨effects, asked, spans⟩ :=
    Session.body_effects consistent lexical faithful formed upright found written access
  have same : summary.offending = effects.map Effect.span := by
    rw [right.offending f body found written, Program.offending_offences lexical apart found written, spans]
  exact ⟨summary, effects, answered, asked, same, by rw [same, List.length_map]⟩

def Draft.doubling : List Draft.Module :=
  [{ name := "app"
     items := [.variable { name := "total", isMutable := true, initializer := some (.number (.int 1) {}) },
       .function { name := "double", body := some [.assign (.name "total" {})
         (.binary (.name "total" {}) .add (.name "total" {}) {}) {}] }] }]

theorem doubling_reads_twice : ∃ (c : Compilation) (f : Function) (body : Block) (summary : EffectSummary)
    (effects : List Effect), Compilation.bind {} (Draft.number Draft.doubling).1 = .ok c ∧
      c.program.functions[21]? = some f ∧ f.body = some body ∧
      (c.session.answer (.summary .read ⟨21⟩)).1 = .ok (.summary (some summary)) ∧
      (c.session.ask ((Fragment.block body).effects c.program .read f.scope)).1 = .ok effects ∧
      summary.offending = effects.map Effect.span ∧ summary.offending.length = 2 := by
  have evaluated : (Compilation.bind {} (Draft.number Draft.doubling).1).toOption.any (fun c => decide
      (∃ f ∈ c.program.functions[21]?, ∃ body ∈ f.body,
        (c.session.ask ((Fragment.block body).effects c.program .read f.scope)).1.toOption.map List.length = some 2))
      = true := by decide +kernel
  obtain ⟨c, bound, f, found, body, written, count⟩ := ok_of_passed evaluated
  obtain ⟨made, told⟩ := places_tell_effects_apart
  obtain ⟨summary, effects, answered, asked, same, length⟩ :=
    (told _ _ (made Draft.doubling (by decide))).2.2.2 {} c bound c.session .refl ⟨21⟩ f body found written .read
  refine ⟨c, f, body, summary, effects, bound, found, written, answered, asked, same, ?_⟩
  change (c.session.ask ((Fragment.block body).effects c.program .read f.scope)).1 = .ok effects at asked
  rw [asked] at count
  rw [length]
  exact Option.some.inj count

end SemanticAnalysis
