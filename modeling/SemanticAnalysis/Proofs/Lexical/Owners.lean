import Mathlib.Data.List.Pairwise
import SemanticAnalysis.Proofs.Lexical.Locals
/-!
Who a variable belongs to. The numbers of parameters and local variables grow from function to function, so a variable
that is introduced in a body is introduced in that body only, and a name outside of the function never means it. Items
become declarations one by one, and functions are numbered in the order of the text behind the built-in ones.
-/
namespace SemanticAnalysis
open SemanticAnalysis.Bound Construction

theorem Ascends.range (start count : Nat) : Ascends start (start + count) (List.range' start count) := by
  induction count generalizing start with
  | zero => exact Nat.le_refl start
  | succ count ih =>
    have rest := ih (start + 1)
    rw [Nat.add_right_comm] at rest
    exact ⟨Nat.le_refl start, rest⟩

namespace Tree

theorem uses_ranged (item : Item) (next : Nat) :
    ∀ use ∈ item.uses next, Ranged next (next + item.binders.length) use.visible := by
  have nothing : ∀ names : List String, ∀ use ∈ names.map (fun name => (⟨name, []⟩ : Use)),
      Ranged next (next + item.binders.length) use.visible := by
    intro names use member
    obtain ⟨name, _, rfl⟩ := List.mem_map.mp member
    intro entry impossible
    cases impossible
  cases item with
  | function decl => exact function_uses_ranged decl next
  | _ => exact nothing _

end Tree

namespace Program

def Local (p : Program) (g : FunctionId) (v : VariableId) : Prop :=
  ∃ f, p.functions[g.index]? = some f ∧ .introduce v ∈ Block.optionSteps f.body

def owned (p : Program) : Declared → List Nat
  | .function id _ =>
    ((p.functions[id.index]?).map (fun f =>
      f.parameters.map VariableId.index ++ introduced (Block.optionSteps f.body))).getD []
  | _ => []

variable {p : Program}

theorem settled_owned {entry : Nat × Tree.Placed} {d : Declared} (settled : p.SettledIn entry d) :
    p.owned d = List.range' entry.1 entry.2.item.binders.length := by
  obtain ⟨next, module, item⟩ := entry
  obtain ⟨home, _, there⟩ := settled
  dsimp only at there
  cases there with
  | @inner id decl f closed =>
    have params : f.parameters.map VariableId.index = List.range' next decl.params.length := by
      rw [closed.parameters, List.map_map]
      exact List.map_id _
    have counted : (Tree.Item.function decl).binders.length
        = decl.params.length + (Tree.Block.optionLocals decl.body).length := by
      simp [Tree.Item.binders]
    rw [owned, closed.opened.found, counted, ← List.range'_append_1]
    simp [params, closed.introduced]
  | outer laid other =>
    cases laid with
    | ofFunction opened origin => cases other
    | _ => rfl

variable {ds : List Declared}

theorem owned_range {items : List Tree.Placed} {next : Nat}
    (settled : List.Forall₂ p.SettledIn (Tree.numbered next items) ds) :
    ds.flatMap p.owned = List.range' next (items.flatMap (fun i => i.item.binders)).length := by
  induction items generalizing next ds with
  | nil =>
    cases settled
    rfl
  | cons i items ih =>
    cases settled with
    | @cons _ d _ ds head tail =>
      have first : p.owned d = List.range' next i.item.binders.length := settled_owned head
      rw [List.flatMap_cons, List.flatMap_cons, List.length_append, first, ih tail, List.range'_append_1]

theorem owned_ascend {items : List Tree.Placed} {next : Nat}
    (settled : List.Forall₂ p.SettledIn (Tree.numbered next items) ds) :
    Ascends next (next + (items.flatMap (fun i => i.item.binders)).length) (ds.flatMap p.owned) := by
  rw [owned_range settled]
  exact Ascends.range _ _

section Lexical
variable {modules : List Tree.Module} {ds : List Declared} (lexical : p.Lexical modules ds)
include lexical

theorem owner_unique {d e : Declared} (first : d ∈ ds) (second : e ∈ ds) {k : Nat} (one : k ∈ p.owned d)
    (other : k ∈ p.owned e) : d = e := by
  have distinct := (owned_ascend lexical.settled).nodup
  have apart := (List.nodup_flatMap.mp distinct).2
  by_contra different
  have symmetric : Std.Symm (Function.onFun List.Disjoint p.owned) := ⟨fun _ _ apart _ here there => apart there here⟩
  exact apart.forall first second different one other

variable {g : FunctionId} {v : VariableId}

theorem local_owned (own : p.Local g v) :
    ∃ decl, .function g decl ∈ ds ∧ v.index ∈ p.owned (.function g decl) ∧
      (Tree.globals (Tree.placed modules)).length ≤ v.index := by
  obtain ⟨f, found, introduces⟩ := own
  have body : f.body ≠ none := by
    intro none
    rw [none] at introduces
    cases introduces
  obtain ⟨_, _, _, decl, _, _, _, listed, _⟩ := body_closed lexical found body
  have owns : v.index ∈ p.owned (.function g decl) := by
    rw [owned, found]
    exact List.mem_append_right _ (introduce_mem.mp introduces)
  refine ⟨decl, listed, owns, ?_⟩
  exact ((owned_ascend lexical.settled).bounds.2 _ (List.mem_flatMap.mpr ⟨_, listed, owns⟩)).1

theorem local_unique {h : FunctionId} (first : p.Local g v) (second : p.Local h v) : g = h := by
  obtain ⟨_, listed, owns, _⟩ := local_owned lexical first
  obtain ⟨_, listed', owns', _⟩ := local_owned lexical second
  cases owner_unique lexical listed listed' owns owns'
  rfl

theorem name_owned {d : Declared} (listed : d ∈ ds) {i : Identifier} (used : i ∈ p.identifiers d.declaration)
    (means : p.scopes.findVariable? i.site.scope i.name = some v) :
    v.index < (Tree.globals (Tree.placed modules)).length ∨ v.index ∈ p.owned d := by
  obtain ⟨entry, _, settled⟩ := related_right lexical.settled listed
  have told : (i.name, some v) ∈ p.meanings d.declaration := by
    rw [← means]
    exact List.mem_map.mpr ⟨i, used, rfl⟩
  rw [settled_meanings lexical settled] at told
  obtain ⟨use, member, same⟩ := List.mem_map.mp told
  rcases Option.or_eq_some_iff.mp (Prod.mk.inj same).2 with inside | ⟨_, outside⟩
  · right
    rw [settled_owned settled, List.mem_range'_1]
    exact Tree.uses_ranged entry.2.item entry.1 use member _ (lookup_member inside)
  · exact .inl (Tree.in_module_lower outside)

/-- A name that means a local variable stands in the same function, or in the initializer of another of its local
variables. -/
theorem local_reference {d : Declaration} {i : Identifier} (used : i ∈ p.identifiers d)
    (means : p.scopes.findVariable? i.site.scope i.name = some v) (own : p.Local g v) :
    d = .function g ∨ ∃ w, d = .variable w ∧ p.Local g w := by
  obtain ⟨decl, listed, owns, above⟩ := local_owned lexical own
  have inside : ∀ {e : Declared}, e ∈ ds → i ∈ p.identifiers e.declaration → e = .function g decl := by
    intro e there member
    rcases name_owned lexical there member means with below | owns'
    · exact absurd below (Nat.not_lt.mpr above)
    · exact owner_unique lexical there listed owns' owns
  cases d with
  | function id =>
    cases found : p.functions[id.index]? with
    | none => simp [identifiers, found] at used
    | some f =>
      have body : f.body ≠ none := by
        intro none
        rw [identifiers_function found, none] at used
        cases used
      obtain ⟨_, _, _, decl', _, _, _, there, _⟩ := body_closed lexical found body
      cases inside there used
      exact .inl rfl
  | «variable» w =>
    cases found : p.vars[w.index]? with
    | none => simp [identifiers, found] at used
    | some var =>
      rcases variable_places lexical (Array.getElem?_eq_some_iff.mp found).1 with global | plain | introduced
      · cases inside global used
      · obtain ⟨_, found', none, _⟩ := plain
        rw [identifiers_variable found', none] at used
        cases used
      · obtain ⟨id, f, decl', there, here, introduces⟩ := introduced
        have member : i ∈ p.identifiers (.function id) := by
          rw [identifiers_eq, nodes_function here] at *
          obtain ⟨n, among, same⟩ := List.mem_filterMap.mp used
          exact List.mem_filterMap.mpr ⟨n, introduced_nodes_member introduces among, same⟩
        cases inside there member
        exact .inr ⟨w, rfl, f, here, introduces⟩
  | struct id =>
    cases found : p.structs[id.index]? with
    | none => simp [identifiers, found] at used
    | some s =>
      have there := (Array.getElem?_eq_some_iff.mp found).1
      rw [← List.mem_range, ← lexical.structs] at there
      obtain ⟨e, listed', number⟩ := List.mem_filterMap.mp there
      cases e with
      | struct id' type home decl' =>
        obtain ⟨k⟩ := id
        obtain ⟨k'⟩ := id'
        cases number
        cases inside listed' used
      | _ => cases number

theorem function_places {f : Function} (found : p.functions[g.index]? = some f) :
    (f.body = none ∧ ∃ b, f.origin = .builtin b) ∨
      ∃ decl, .function g decl ∈ ds ∧ f.origin = .declared decl ∧ f.body.isSome = decl.body.isSome := by
  obtain ⟨k⟩ := g
  have there : k ∈ List.range p.functions.size := List.mem_range.mpr (Array.getElem?_eq_some_iff.mp found).1
  have distinct : (List.range p.functions.size).Nodup := List.nodup_range
  rw [← lexical.functions] at there distinct
  rcases List.mem_append.mp there with builtin | declared
  · left
    have undeclared : k ∉ ds.filterMap Declared.functionNumber? := by
      intro declared
      exact (List.nodup_append.mp distinct).2.2 k builtin k declared rfl
    constructor
    · by_contra body
      exact undeclared (lexical.bodies k f found body)
    · have index := List.mem_range.mp builtin
      have origin : (p.functions.toList.map Function.origin)[k]? = some f.origin := by
        rw [List.getElem?_map, Array.getElem?_toList, found]
        rfl
      rw [lexical.origins, List.getElem?_append_left (by simpa using index), List.getElem?_map] at origin
      obtain ⟨b, _, same⟩ := Option.map_eq_some_iff.mp origin
      exact ⟨b, same.symm⟩
  · right
    obtain ⟨d, listed, number⟩ := List.mem_filterMap.mp declared
    obtain ⟨⟨next, module, item⟩, entry, home, named, settled⟩ := related_right lexical.settled listed
    dsimp only at settled
    cases settled with
    | @inner id decl g closed =>
      obtain ⟨k'⟩ := id
      cases number
      have same := closed.opened.found
      rw [found] at same
      cases same
      exact ⟨decl, listed, closed.origin, closed.written⟩
    | outer laid other =>
      rw [other] at number
      cases number

end Lexical

def Declares (p : Program) : Tree.Item → Declaration → Prop
  | .function decl, .function id => ∃ f, p.functions[id.index]? = some f ∧ f.origin = .declared decl
  | .variable decl, .variable id => ∃ v, p.vars[id.index]? = some v ∧ v.origin = .declared decl
  | .struct decl, .struct id => ∃ s, p.structs[id.index]? = some s ∧ s.decl = decl
  | _, _ => False

end Program

end SemanticAnalysis
