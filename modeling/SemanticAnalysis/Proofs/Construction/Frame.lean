import Mathlib.Data.List.Forall2
import SemanticAnalysis.Proofs.Construction.Logic
import SemanticAnalysis.Proofs.Contents
import SemanticAnalysis.Proofs.Fragments
import SemanticAnalysis.Proofs.Scope.Sight
/-!
What construction leaves alone. Whatever is once part of the program stays as it is, up to scopes and functions of a
kind that is still being worked on. Node numbers are given out in the order in which nodes are treated.
-/
namespace SemanticAnalysis

/-- Numbers from `lo` on and below `hi`, each larger than the one before. -/
def Ascends (lo hi : Nat) : List Nat → Prop
  | [] => lo ≤ hi
  | n :: rest => lo ≤ n ∧ Ascends (n + 1) hi rest

namespace Ascends
variable {a b c : Nat} {xs ys : List Nat}

theorem from_lower (below : a ≤ b) (up : Ascends b c xs) : Ascends a c xs := by
  cases xs with
  | nil => exact Nat.le_trans below up
  | cons n rest => exact ⟨Nat.le_trans below up.1, up.2⟩

theorem append (first : Ascends a b xs) (second : Ascends b c ys) : Ascends a c (xs ++ ys) := by
  induction xs generalizing a with
  | nil => exact from_lower first second
  | cons n rest ih => exact ⟨first.1, ih first.2⟩

theorem bounds (up : Ascends a b xs) : a ≤ b ∧ ∀ n ∈ xs, a ≤ n ∧ n < b := by
  induction xs generalizing a with
  | nil => exact ⟨up, by simp⟩
  | cons n rest ih =>
    obtain ⟨first, others⟩ := up
    obtain ⟨ends, members⟩ := ih others
    constructor
    · omega
    · intro m member
      rcases List.mem_cons.mp member with rfl | later
      · omega
      · have := members m later
        omega

theorem nodup (up : Ascends a b xs) : xs.Nodup := by
  induction xs generalizing a with
  | nil => exact List.nodup_nil
  | cons n rest ih =>
    apply List.nodup_cons.mpr
    constructor
    · intro member
      have := (bounds up.2).2 n member
      omega
    · exact ih up.2

end Ascends

section Related
variable {α β : Type} {R : α → β → Prop} {xs : List α} {ys : List β}

theorem related_left (all : List.Forall₂ R xs ys) {x : α} (member : x ∈ xs) : ∃ y ∈ ys, R x y := by
  induction all with
  | nil => simp at member
  | cons head tail ih =>
    rcases List.mem_cons.mp member with rfl | later
    · exact ⟨_, List.mem_cons_self .., head⟩
    · obtain ⟨y, there, related⟩ := ih later
      exact ⟨y, List.mem_cons_of_mem _ there, related⟩

theorem related_map {γ : Type} {f : α → γ} {g : β → γ} (all : List.Forall₂ R xs ys) (same : ∀ x y, R x y → f x = g y) :
    xs.map f = ys.map g := by
  induction all with
  | nil => rfl
  | cons head _ ih => rw [List.map_cons, List.map_cons, same _ _ head, ih]

theorem related_right (all : List.Forall₂ R xs ys) {y : β} (member : y ∈ ys) : ∃ x ∈ xs, R x y :=
  related_left (R := fun y x => R x y) all.flip member

end Related

namespace Bound

def Identifier.place (i : Identifier) : String × ScopeId := (i.name, i.site.scope)

def Node.Formed : Node → Prop
  | .call invocation _ _ => invocation.kind ≠ .call → invocation.nullSafe = false
  | _ => True

structure Numbered (lo hi : Nat) (ns : List Node) : Prop where
  ascends : Ascends lo hi (ns.filterMap Node.number?)
  formed : ∀ n ∈ ns, n.Formed

namespace Numbered
variable {a b c : Nat} {ns others : List Node}

theorem none (grows : a ≤ b) : Numbered a b [] := ⟨grows, by simp⟩

theorem grows (numbered : Numbered a b ns) : a ≤ b := numbered.ascends.bounds.1

theorem append (first : Numbered a b ns) (second : Numbered b c others) : Numbered a c (ns ++ others) := by
  constructor
  · rw [List.filterMap_append]
    exact first.ascends.append second.ascends
  · intro n member
    exact (List.mem_append.mp member).elim (first.formed n) (second.formed n)

theorem single {n : Node} (number : n.number? = some a) (formed : n.Formed) : Numbered a (a + 1) [n] := by
  constructor
  · rw [List.filterMap_cons, number]
    exact ⟨Nat.le_refl a, Nat.le_refl (a + 1)⟩
  · intro m member
    rw [List.mem_singleton.mp member]
    exact formed

end Numbered

def Node.span : Node → Span
  | .identifier _ _ site => site.span
  | .number _ site => site.span
  | .call invocation _ _ => invocation.site.span
  | .member _ _ _ _ site => site.span

/-- Nodes with new numbers, at some of the given spans in this order. Names are used as told, and all is in one scope. -/
structure Places (scope : ScopeId) (n m : Nat) (ns : List Node) (sites : List Site) (names : List String)
    (spans : List Span) : Prop where
  places : (ns.filterMap Node.identifier?).map Identifier.place = names.map (·, scope)
  nodes : Numbered n m ns
  sites : AllAt scope sites
  spans : (ns.map Node.span).Sublist spans

namespace Places
variable {scope : ScopeId} {n m k : Nat} {ns others : List Node} {sites further : List Site} {names more : List String}
  {spans wider : List Span}

theorem none (grows : n ≤ m) : Places scope n m [] [] [] [] := ⟨rfl, .none grows, all_at_none, .slnil⟩

theorem append (first : Places scope n m ns sites names spans) (second : Places scope m k others further more wider) :
    Places scope n k (ns ++ others) (sites ++ further) (names ++ more) (spans ++ wider) := by
  constructor
  · rw [List.filterMap_append, List.map_append, List.map_append, first.places, second.places]
  · exact first.nodes.append second.nodes
  · exact all_at_append first.sites second.sites
  · rw [List.map_append]
    exact first.spans.append second.spans

theorem last (here : Places scope n m ns sites names spans) {node : Node} (number : node.number? = some m)
    (other : node.identifier? = Option.none) (formed : node.Formed) (among : spans.Sublist wider) :
    Places scope n (m + 1) (ns ++ [node]) (sites ++ [⟨scope, node.span⟩]) names (wider ++ [node.span]) := by
  constructor
  · rw [List.filterMap_append, List.filterMap_cons, other, List.filterMap_nil, List.append_nil]
    exact here.places
  · exact here.nodes.append (.single number formed)
  · exact all_at_last here.sites _
  · rw [List.map_append]
    exact (here.spans.trans among).append (.refl _)

end Places

open Construction

namespace Expr

mutual

theorem bind_places (scope : ScopeId) :
    ∀ (e : Tree.Expr) (n : Nat), Yields (Expr.bind scope e) n (fun b m =>
      Places scope n m b.nodes b.sites e.names (e.within.map Tree.Expr.span))
  | .name ident span, n =>
    yields_step (t := n + 1) rfl (yields_pure ⟨rfl, .single rfl trivial, all_at_last all_at_none span, .refl _⟩)
  | .number _ span, n => by
    refine yields_pure ⟨rfl, ⟨Nat.le_refl n, ?_⟩, all_at_last all_at_none span, .refl _⟩
    simp [Expr.nodes, Node.Formed]
  | .null span, n => yields_pure ⟨rfl, .none (Nat.le_refl n), all_at_last all_at_none span, List.nil_sublist _⟩
  | .invocation (.name _ _) args _, n => by
    rw [Expr.bind, Tree.Expr.names, Tree.Expr.within, List.map_append, List.map_append]
    refine yields_bind (bind_all_places scope args n) (fun args t here => ?_)
    refine yields_step (t := t + 1) rfl (yields_pure ?_)
    exact here.last rfl rfl (fun operator => absurd rfl operator) (List.sublist_append_right _ _)
  | .invocation (.member object _ _ _) args _, n => by
    rw [Expr.bind, Tree.Expr.names, Tree.Expr.within, Tree.Expr.within, List.map_append, List.map_append, List.map_append]
    refine yields_bind (bind_places scope object n) (fun object t first => ?_)
    refine yields_bind (bind_all_places scope args t) (fun args u second => ?_)
    refine yields_step (t := u + 1) rfl (yields_pure ?_)
    exact (first.append second).last rfl rfl (fun operator => absurd rfl operator)
      ((List.sublist_append_left _ _).append (.refl _))
  | .invocation (.number ..) _ _, _ => by intro b m ran; cases ran
  | .invocation (.null _) _ _, _ => by intro b m ran; cases ran
  | .invocation (.invocation ..) _ _, _ => by intro b m ran; cases ran
  | .invocation (.binary ..) _ _, _ => by intro b m ran; cases ran
  | .invocation (.unary ..) _ _, _ => by intro b m ran; cases ran
  | .invocation (.paren ..) _ _, _ => by intro b m ran; cases ran
  | .member object _ _ _, n => by
    rw [Expr.bind, Tree.Expr.names, Tree.Expr.within, List.map_append]
    refine yields_bind (bind_places scope object n) (fun object t here => ?_)
    exact yields_step (t := t + 1) rfl (yields_pure (here.last rfl rfl trivial (.refl _)))
  | .binary left _ right _, n => by
    rw [Expr.bind, Tree.Expr.names, Tree.Expr.within, List.map_append, List.map_append]
    refine yields_bind (bind_places scope left n) (fun left t first => ?_)
    refine yields_bind (bind_places scope right t) (fun right u second => ?_)
    refine yields_step (t := u + 1) rfl (yields_pure ?_)
    rw [Expr.nodes, Expr.optionNodes, Expr.allNodes, Expr.allNodes, List.append_nil]
    rw [Expr.sites, Expr.optionSites, Expr.allSites, Expr.allSites, List.append_nil]
    exact (first.append second).last rfl rfl (fun _ => rfl) (.refl _)
  | .unary _ operand _, n => by
    rw [Expr.bind, Tree.Expr.names, Tree.Expr.within, List.map_append]
    refine yields_bind (bind_places scope operand n) (fun operand t here => ?_)
    refine yields_step (t := t + 1) rfl (yields_pure ?_)
    rw [Expr.nodes, Expr.optionNodes, Expr.allNodes, List.append_nil]
    rw [Expr.sites, Expr.optionSites, Expr.allSites, List.append_nil]
    exact here.last rfl rfl (fun _ => rfl) (.refl _)
  | .paren inner span, n => by
    rw [Expr.bind, Tree.Expr.names, Tree.Expr.within, List.map_append]
    refine yields_bind (bind_places scope inner n) (fun inner t here => yields_pure ?_)
    exact ⟨here.places, here.nodes, all_at_last here.sites span, here.spans.trans (List.sublist_append_left _ _)⟩

theorem bind_all_places (scope : ScopeId) :
    ∀ (es : List Tree.Expr) (n : Nat), Yields (Expr.bindAll scope es) n (fun bs m =>
      Places scope n m (Expr.allNodes bs) (Expr.allSites bs) (Tree.Expr.allNames es)
        ((Tree.Expr.allWithin es).map Tree.Expr.span))
  | [], n => yields_pure (.none (Nat.le_refl n))
  | e :: rest, n => by
    rw [Expr.bindAll, Tree.Expr.allNames, Tree.Expr.allWithin, List.map_append]
    refine yields_bind (bind_places scope e n) (fun e t first => ?_)
    exact yields_bind (bind_all_places scope rest t) (fun rest u others => yields_pure (first.append others))

end

theorem bind_option_places (scope : ScopeId) (e : Option Tree.Expr) (n : Nat) :
    Yields (Expr.bindOption scope e) n (fun b m =>
      Places scope n m (Expr.optionNodes b) (Expr.optionSites b) (Tree.Expr.optionNames e)
        ((Tree.Expr.optionContents e).map Tree.Content.span)) := by
  cases e with
  | none => exact yields_pure (.none (Nat.le_refl n))
  | some e =>
    rw [Tree.Expr.optionContents, Option.toList_some, List.flatMap_singleton, Tree.contents_spans, Expr.bindOption,
      map_eq_pure_bind]
    exact yields_bind (bind_places scope e n) (fun b m here => yields_pure here)

end Expr

end Bound

theorem push_keeps {α : Type} {xs : Array α} {k : Nat} {y : α} (x : α) (found : xs[k]? = some y) :
    (xs.push x)[k]? = some y := by
  have there := (Array.getElem?_eq_some_iff.mp found).1
  rw [Array.getElem?_push, if_neg (by omega)]
  exact found

structure Program.SameOutline (p q : Program) : Prop where
  names : q.scopes.modules = p.scopes.modules
  listed : q.modules = p.modules
  types : q.types = p.types
  structs : q.structs = p.structs
  structTypes : q.structTypes = p.structTypes
  functions : q.functions.size = p.functions.size

/-- All that the first program has is in the second, but for scopes and functions of kinds that may be touched. -/
structure Program.Keeps (touched : ScopeKind → Prop) (p q : Program) : Prop where
  vars : ∀ (k : Nat) (v : Bound.Variable), p.vars[k]? = some v → q.vars[k]? = some v
  structs : ∀ (k : Nat) (s : Bound.Struct), p.structs[k]? = some s → q.structs[k]? = some s
  functions : ∀ (k : Nat) (f : Bound.Function), ¬touched (.function ⟨k⟩) → p.functions[k]? = some f →
    q.functions[k]? = some f
  scopes : ∀ id s, ¬touched s.kind → p.scopes.get? id = some s → q.scopes.get? id = some s
  modules : ∀ name id, p.scopes.findModule? name = some id → q.scopes.findModule? name = some id
  outline : ¬touched .module → p.SameOutline q
  options : q.options = p.options
  nodes : p.nodes ≤ q.nodes

namespace Program
variable {touched : ScopeKind → Prop} {p q r : Program}

theorem keeps_refl (touched : ScopeKind → Prop) (p : Program) : p.Keeps touched p :=
  ⟨fun _ _ h => h, fun _ _ h => h, fun _ _ _ h => h, fun _ _ _ h => h, fun _ _ h => h,
    fun _ => ⟨rfl, rfl, rfl, rfl, rfl, rfl⟩, rfl, Nat.le_refl _⟩

theorem keeps_trans (first : p.Keeps touched q) (second : q.Keeps touched r) : p.Keeps touched r where
  vars k v found := second.vars k v (first.vars k v found)
  structs k s found := second.structs k s (first.structs k s found)
  functions k f other found := second.functions k f other (first.functions k f other found)
  scopes id s other found := second.scopes id s other (first.scopes id s other found)
  modules name id found := second.modules name id (first.modules name id found)
  outline other := ⟨(second.outline other).names.trans (first.outline other).names,
    (second.outline other).listed.trans (first.outline other).listed,
    (second.outline other).types.trans (first.outline other).types,
    (second.outline other).structs.trans (first.outline other).structs,
    (second.outline other).structTypes.trans (first.outline other).structTypes,
    (second.outline other).functions.trans (first.outline other).functions⟩
  options := second.options.trans first.options
  nodes := Nat.le_trans first.nodes second.nodes

theorem keeps_weaken {more : ScopeKind → Prop} (weaker : ∀ kind, touched kind → more kind) (keeps : p.Keeps touched q) :
    p.Keeps more q :=
  { keeps with
    functions := fun k f other => keeps.functions k f (fun h => other (weaker _ h))
    scopes := fun id s other => keeps.scopes id s (fun h => other (weaker _ h))
    outline := fun other => keeps.outline (fun h => other (weaker _ h)) }

theorem keeps_nodes {nodes : Nat} (grows : p.nodes ≤ nodes) : p.Keeps touched { p with nodes } :=
  { keeps_refl touched p with nodes := grows, outline := fun _ => ⟨rfl, rfl, rfl, rfl, rfl, rfl⟩ }

theorem keeps_types (types : TypeHierarchy) (touches : touched .module) : p.Keeps touched { p with types } :=
  { keeps_refl touched p with outline := fun other => absurd touches other }

theorem keeps_listed (modules : List Bound.Module) (touches : touched .module) : p.Keeps touched { p with modules } :=
  { keeps_refl touched p with outline := fun other => absurd touches other }

theorem keeps_push_scope (s : Scope) : p.Keeps touched { p with scopes := (p.scopes.push s).2 } :=
  { keeps_refl touched p with
    scopes := fun id s' _ found => by
      have there := ScopeTree.get_some_index found
      rw [ScopeTree.get_push, if_neg (by omega)]
      exact found
    outline := fun _ => ⟨rfl, rfl, rfl, rfl, rfl, rfl⟩ }

theorem keeps_modify_scope (id : ScopeId) {f : Scope → Scope}
    (touches : ∀ s, p.scopes.get? id = some s → touched s.kind) :
    p.Keeps touched { p with scopes := p.scopes.modify id f } :=
  { keeps_refl touched p with
    scopes := fun j s other found => by
      have different : j ≠ id := by
        rintro rfl
        exact other (touches s found)
      rw [ScopeTree.get_modify, if_neg different]
      exact found
    outline := fun _ => ⟨rfl, rfl, rfl, rfl, rfl, rfl⟩ }

theorem keeps_push_variable (v : Bound.Variable) : p.Keeps touched { p with vars := p.vars.push v } :=
  { keeps_refl touched p with
    vars := fun _ _ found => push_keeps v found
    outline := fun _ => ⟨rfl, rfl, rfl, rfl, rfl, rfl⟩ }

theorem keeps_push_struct (s : Bound.Struct) (structTypes : Table TypeId StructId) (touches : touched .module) :
    p.Keeps touched { p with structs := p.structs.push s, structTypes } :=
  { keeps_refl touched p with
    structs := fun _ _ found => push_keeps s found
    outline := fun other => absurd touches other }

theorem keeps_push_function (f : Bound.Function) (touches : touched .module) :
    p.Keeps touched { p with functions := p.functions.push f } :=
  { keeps_refl touched p with
    functions := fun _ _ _ found => push_keeps f found
    outline := fun other => absurd touches other }

theorem keeps_set_body (id : FunctionId) (touches : touched (.function id)) (g : Bound.Function → Bound.Function) :
    p.Keeps touched { p with functions := p.functions.modify id.index g } :=
  { keeps_refl touched p with
    functions := fun k f other found => by
      have different : id.index ≠ k := by
        rintro rfl
        exact other touches
      rw [Array.getElem?_modify, if_neg different]
      exact found
    outline := fun _ => ⟨rfl, rfl, rfl, rfl, rfl, Array.size_modify⟩ }

theorem keeps_name_module (name : String) (id : ScopeId) (touches : touched .module) :
    p.Keeps touched { p with scopes := { p.scopes with modules := p.scopes.modules ++ [(name, id)] } } :=
  { keeps_refl touched p with
    modules := fun other id' found => by
      unfold ScopeTree.findModule? at found ⊢
      rw [List.lookup_append, found]
      rfl
    outline := fun other => absurd touches other }

end Program

namespace Construction
open Program SemanticAnalysis.Bound

variable {p : Program} {touched : ScopeKind → Prop}

theorem binding_yields {α : Type} {x : Binding α} {P : α → Nat → Prop} (inner : Yields x p.nodes P) :
    Yields (fun p => do
      let (a, nodes) ← x p.nodes
      pure (a, { p with nodes }) : Construction α) p (fun a q => q = { p with nodes := q.nodes } ∧ P a q.nodes) := by
  intro a q ran
  dsimp only at ran
  cases outcome : x p.nodes with
  | error e =>
    rw [outcome] at ran
    cases ran
  | ok entry =>
    obtain ⟨b, nodes⟩ := entry
    rw [outcome] at ran
    cases ran
    exact ⟨rfl, inner b nodes outcome⟩

theorem bind_expr_places (scope : ScopeId) (e : Tree.Expr) :
    Yields (bindExpr scope e) p (fun b q => q = { p with nodes := q.nodes } ∧
      Places scope p.nodes q.nodes b.nodes b.sites e.names (e.contents.map Tree.Content.span)) := by
  rw [Tree.contents_spans]
  exact binding_yields (Expr.bind_places scope e p.nodes)

theorem bind_option_places (scope : ScopeId) (e : Option Tree.Expr) :
    Yields (bindOption scope e) p (fun b q => q = { p with nodes := q.nodes } ∧
      Places scope p.nodes q.nodes (Expr.optionNodes b) (Expr.optionSites b) (Tree.Expr.optionNames e)
        ((Tree.Expr.optionContents e).map Tree.Content.span)) :=
  binding_yields (Expr.bind_option_places scope e p.nodes)

end Construction

end SemanticAnalysis
