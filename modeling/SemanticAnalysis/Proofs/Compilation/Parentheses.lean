import SemanticAnalysis.Proofs.Rewording.Compilation
import SemanticAnalysis.Proofs.Rewording.Parentheses
/-!
Parentheses around an expression. They change nothing that analysis finds out, with three exceptions: around `null` as
the value that a variable starts with or that is returned, and around a name as the target of an assignment. A text and
the text with one more pair of parentheses have the same text without parentheses, and both are compared with that one.
-/
namespace SemanticAnalysis
open Running Analysis Diagnostics SemanticAnalysis.Bound

namespace Tree

inductive Expr.Wraps : Tree.Expr → Tree.Expr → Prop
  | here (e : Tree.Expr) (span : Span) : Wraps e (.paren e span)
  | receiver {e e' : Tree.Expr} (ident : Ident) (nullSafe : Bool) (span : Span) (args : List Tree.Expr) (place : Span) :
    Wraps e e' →
      Wraps (.invocation (.member e ident nullSafe span) args place)
        (.invocation (.member e' ident nullSafe span) args place)
  | argument (target : Tree.Expr) (before : List Tree.Expr) {e e' : Tree.Expr} (after : List Tree.Expr) (place : Span) :
    Wraps e e' →
      Wraps (.invocation target (before ++ e :: after) place) (.invocation target (before ++ e' :: after) place)
  | object {e e' : Tree.Expr} (ident : Ident) (nullSafe : Bool) (span : Span) :
    Wraps e e' → Wraps (.member e ident nullSafe span) (.member e' ident nullSafe span)
  | left {e e' : Tree.Expr} (op : BinaryOp) (right : Tree.Expr) (span : Span) :
    Wraps e e' → Wraps (.binary e op right span) (.binary e' op right span)
  | right (left : Tree.Expr) (op : BinaryOp) {e e' : Tree.Expr} (span : Span) :
    Wraps e e' → Wraps (.binary left op e span) (.binary left op e' span)
  | operand (op : UnaryOp) {e e' : Tree.Expr} (span : Span) : Wraps e e' → Wraps (.unary op e span) (.unary op e' span)
  | inner {e e' : Tree.Expr} (span : Span) : Wraps e e' → Wraps (.paren e span) (.paren e' span)

inductive Expr.WrapsValue (e e' : Tree.Expr) : Prop
  | intro : e.isNull = false → e.Wraps e' → WrapsValue e e'

inductive Expr.WrapsTarget (e e' : Tree.Expr) : Prop
  | intro : e.isName = false → e.Wraps e' → WrapsTarget e e'

inductive VariableDecl.Wraps (decl : VariableDecl) : VariableDecl → Prop
  | initializer {e e' : Tree.Expr} : decl.initializer = some e → e.WrapsValue e' →
    Wraps decl { decl with initializer := some e' }

mutual

inductive Stmt.Wraps : Tree.Stmt → Tree.Stmt → Prop
  | expr {e e' : Tree.Expr} (span : Span) : e.Wraps e' → Stmt.Wraps (.expr e span) (.expr e' span)
  | variable {decl decl' : VariableDecl} : decl.Wraps decl' → Stmt.Wraps (.variable decl) (.variable decl')
  | target {e e' : Tree.Expr} (value : Tree.Expr) (span : Span) : e.WrapsTarget e' →
    Stmt.Wraps (.assign e value span) (.assign e' value span)
  | value (target : Tree.Expr) {e e' : Tree.Expr} (span : Span) : e.Wraps e' →
    Stmt.Wraps (.assign target e span) (.assign target e' span)
  | ret {e e' : Tree.Expr} (span : Span) : e.WrapsValue e' → Stmt.Wraps (.ret (some e) span) (.ret (some e') span)
  | condition {e e' : Tree.Expr} (thenBranch : Tree.Block) (elseBranch : Option Tree.Block) (span : Span) : e.Wraps e' →
    Stmt.Wraps (.branch e thenBranch elseBranch span) (.branch e' thenBranch elseBranch span)
  | thenBranch (condition : Tree.Expr) {b b' : Tree.Block} (elseBranch : Option Tree.Block) (span : Span) :
    Block.Wraps b b' → Stmt.Wraps (.branch condition b elseBranch span) (.branch condition b' elseBranch span)
  | elseBranch (condition : Tree.Expr) (thenBranch : Tree.Block) {b b' : Tree.Block} (span : Span) :
    Block.Wraps b b' →
      Stmt.Wraps (.branch condition thenBranch (some b) span) (.branch condition thenBranch (some b') span)
  | block {b b' : Tree.Block} : Block.Wraps b b' → Stmt.Wraps (.block b) (.block b')

inductive Block.Wraps : Tree.Block → Tree.Block → Prop
  | stmt (before : List Tree.Stmt) {s s' : Tree.Stmt} (after : List Tree.Stmt) (span : Span) : Stmt.Wraps s s' →
    Block.Wraps (.mk (before ++ s :: after) span) (.mk (before ++ s' :: after) span)

end

inductive Item.Wraps : Item → Item → Prop
  | body (decl : FunctionDecl) {b b' : Tree.Block} : decl.body = some b → b.Wraps b' →
    Wraps (.function decl) (.function { decl with body := some b' })
  | variable {decl decl' : VariableDecl} : decl.Wraps decl' → Wraps (.variable decl) (.variable decl')
  | default (decl : StructDecl) (before : List MemberDecl) (member : MemberDecl) (after : List MemberDecl)
      {e e' : Tree.Expr} : decl.members = before ++ member :: after → member.default = some e → e.Wraps e' →
    Wraps (.struct decl) (.struct { decl with members := before ++ { member with default := some e' } :: after })

/-- The modules with one more pair of parentheses around an expression of one of them. -/
inductive WrapsOnce : List Module → List Module → Prop
  | item (before : List Module) (m : Module) (after : List Module) (first : List Item) {i i' : Item}
      (last : List Item) :
    m.items = first ++ i :: last → i.Wraps i' →
    WrapsOnce (before ++ m :: after) (before ++ { m with items := first ++ i' :: last } :: after)

end Tree

section Texts
open Rewording

theorem Tree.Expr.bare_all_map (es : List Tree.Expr) : Tree.Expr.bareAll es = es.map Tree.Expr.bare := by
  induction es with
  | nil => rw [Tree.Expr.bareAll, List.map_nil]
  | cons e rest ih => rw [Tree.Expr.bareAll, ih, List.map_cons]

variable {e e' : Tree.Expr}

theorem wraps_bare (wraps : e.Wraps e') : e'.bare = e.bare := by
  induction wraps with
  | here e span => rw [Tree.Expr.bare]
  | receiver ident nullSafe span args place _ ih =>
    rw [Tree.Expr.bare, Tree.Expr.bareTarget, ih, Tree.Expr.bare, Tree.Expr.bareTarget]
  | argument target before after place _ ih =>
    rw [Tree.Expr.bare, Tree.Expr.bare, Tree.Expr.bare_all_map, Tree.Expr.bare_all_map, List.map_append, List.map_cons,
      ih, List.map_append, List.map_cons]
  | object ident nullSafe span _ ih => rw [Tree.Expr.bare, ih, Tree.Expr.bare]
  | left op right span _ ih => rw [Tree.Expr.bare, ih, Tree.Expr.bare]
  | right left op span _ ih => rw [Tree.Expr.bare, ih, Tree.Expr.bare]
  | operand op span _ ih => rw [Tree.Expr.bare, ih, Tree.Expr.bare]
  | inner span _ ih => rw [Tree.Expr.bare, ih, Tree.Expr.bare]

theorem wraps_keeping (wraps : e.Wraps e') {test : Tree.Expr → Bool} (was : test e = false)
    (now : test e' = false) : bare.keeping test e' = bare.keeping test e := by
  have same : bare.expr e' = bare.expr e := wraps_bare wraps
  unfold keeping
  rw [same, was, now]

theorem wraps_value (wraps : e.WrapsValue e') : bare.value e' = bare.value e := by
  obtain ⟨was, wraps⟩ := wraps
  exact wraps_keeping wraps was (by cases wraps <;> rfl)

theorem wraps_target (wraps : e.WrapsTarget e') : bare.target e' = bare.target e := by
  obtain ⟨was, wraps⟩ := wraps
  exact wraps_keeping wraps was (by cases wraps <;> rfl)

theorem wraps_variable_decl {decl decl' : Tree.VariableDecl} (wraps : decl.Wraps decl') :
    bare.variableDecl decl' = bare.variableDecl decl := by
  obtain ⟨written, wraps⟩ := wraps
  unfold variableDecl
  rw [written, Option.map_some, Option.map_some, wraps_value wraps]

theorem stmts_map (r : Rewording) (ss : List Tree.Stmt) : r.stmts ss = ss.map r.stmt := by
  induction ss with
  | nil => rw [stmts, List.map_nil]
  | cons s rest ih => rw [stmts, ih, List.map_cons]

mutual

theorem wraps_stmt : ∀ {s s' : Tree.Stmt}, s.Wraps s' → bare.stmt s' = bare.stmt s
  | _, _, .expr span wraps => by rw [stmt, stmt]; exact congrArg (Tree.Stmt.expr · span) (wraps_bare wraps)
  | _, _, .variable wraps => by rw [stmt, stmt, wraps_variable_decl wraps]
  | _, _, .target value span wraps => by rw [stmt, stmt, wraps_target wraps]
  | _, _, .value target span wraps => by
    rw [stmt, stmt]
    exact congrArg (Tree.Stmt.assign (bare.target target) · span) (wraps_bare wraps)
  | _, _, .ret span wraps => by rw [stmt, stmt, Option.map_some, Option.map_some, wraps_value wraps]
  | _, _, .condition thenBranch elseBranch span wraps => by
    rw [stmt, stmt]
    exact congrArg (Tree.Stmt.branch · _ _ span) (wraps_bare wraps)
  | _, _, .thenBranch condition elseBranch span wraps => by rw [stmt, stmt, wraps_block wraps]
  | _, _, .elseBranch condition thenBranch span wraps => by
    rw [stmt, stmt, optionBlock, optionBlock, wraps_block wraps]
  | _, _, .block wraps => by rw [stmt, stmt, wraps_block wraps]

theorem wraps_block : ∀ {b b' : Tree.Block}, b.Wraps b' → bare.block b' = bare.block b
  | _, _, .stmt before after span wraps => by
    rw [block, block, stmts_map, stmts_map, List.map_append, List.map_cons, wraps_stmt wraps, List.map_append,
      List.map_cons]

end

theorem wraps_item {i i' : Tree.Item} (wraps : i.Wraps i') : bare.item i' = bare.item i := by
  cases wraps with
  | @body decl b b' written wraps =>
    rw [item, item]
    unfold functionDecl
    rw [written, optionBlock, optionBlock, wraps_block wraps]
    rfl
  | «variable» wraps => rw [item, item, wraps_variable_decl wraps]
  | @default decl before member after e e' written given wraps =>
    have same : bare.memberDecl { member with default := some e' } = bare.memberDecl member := by
      unfold memberDecl
      rw [given]
      exact congrArg (fun d => { member with default := some d }) (wraps_bare wraps)
    rw [item, item]
    unfold structDecl
    rw [written, List.map_append, List.map_cons, same, List.map_append, List.map_cons]

theorem wraps_once_bare {modules modules' : List Tree.Module} (wraps : Tree.WrapsOnce modules modules') :
    modules'.map bare.moduleDecl = modules.map bare.moduleDecl := by
  cases wraps with
  | @item before m after first i i' last written wraps =>
    have same : bare.moduleDecl { m with items := first ++ i' :: last } = bare.moduleDecl m := by
      unfold moduleDecl
      rw [written, List.map_append, List.map_cons, wraps_item wraps, List.map_append, List.map_cons]
    rw [List.map_append, List.map_cons, same, List.map_append, List.map_cons]

end Texts

def Diagnostic.kind (d : Diagnostic) : Severity × Cause := (d.severity, d.error.cause)

theorem bare_reports (options : Options) : options.Reports Rewording.bare (fun _ => true) Diagnostic.kind options where
  plain _ _ := rfl
  ambiguous _ _ _ := Bool.and_true _
  recursive _ _ := Bool.and_true _
  initializer _ _ := rfl

namespace Program
variable {r : Rewording} {p q : Program} (mirrors : p.Mirrors r q)
include mirrors

theorem initial_nodes_mirror (id : VariableId) :
    q.initialNodes id = (p.initialNodes id).map (Node.reword r.bound) := by
  unfold initialNodes
  rw [mirrors.vars, Array.getElem?_map]
  cases p.vars[id.index]? with
  | none => rfl
  | some v => exact r.option_nodes v.initializer

theorem step_nodes_mirror (s : Step) : q.stepNodes (r.step s) = (p.stepNodes s).map (Node.reword r.bound) := by
  cases s with
  | node n => rfl
  | introduce id => exact initial_nodes_mirror mirrors id
  | assign target value site =>
    rw [Rewording.step, stepNodes, stepNodes, List.map_append, r.nodes]
    exact congrArg (· ++ _) (r.keeping_nodes Expr.isIdentifier target)

theorem nodes_mirror (d : Declaration) : q.nodesOf d = (p.nodesOf d).map (Node.reword r.bound) := by
  cases d with
  | function id =>
    rw [nodesOf, nodesOf, mirrors.functions, Array.getElem?_map]
    cases p.functions[id.index]? with
    | none => rfl
    | some f =>
      change q.stepsNodes (Block.optionSteps (r.boundOption f.body)) = _
      rw [r.option_steps, stepsNodes, List.flatMap_map]
      simp only [step_nodes_mirror mirrors]
      exact List.map_flatMap.symm
  | «variable» id => exact initial_nodes_mirror mirrors id
  | struct id =>
    rw [nodesOf, nodesOf, mirrors.structs, Array.getElem?_map]
    cases p.structs[id.index]? with
    | none => rfl
    | some s =>
      change Expr.allNodes (r.boundStruct s).defaults = _
      rw [defaults_mirror, r.all_nodes]
      rfl

end Program

theorem Compilation.bind_bare (options : Options) (modules : List Tree.Module) :
    Alike (fun c plain => c.program.Kin Rewording.bare Eq options options plain.program ∧ c.Agree plain ∧
        plain.findings.map Diagnostic.kind = c.findings.map Diagnostic.kind)
      (bind options modules) (bind options (modules.map Rewording.bare.moduleDecl)) := by
  refine alike_imp (bind_alike (Rewording.construct_follows Rewording.bare rfl modules)) ?_
  intro c plain bound bound' related
  obtain ⟨kin, found, built, built'⟩ := related
  have reports := kin.reports (bare_reports options)
  have same : notices (modules.map Rewording.bare.moduleDecl) = notices modules := by
    unfold notices
    rw [List.flatMap_map]
    rfl
  obtain ⟨matched, told⟩ := bind_retells (fun _ => rfl) kin.mirrors reports bound bound' built built' same
  refine ⟨kin, agree_of_matches (fun _ => rfl) kin.mirrors reports bound matched, ?_⟩
  unfold Retells at told
  rwa [List.filter_true] at told

def Bound.Node.bare : Node → Node := Node.reword Expr.bare

/-- A text with one more pair of parentheses is rejected for the same reason, or gives the same types and scopes, the
same kinds of findings and the same facts about the same nodes. Not around `null` where a variable starts with it or it
is returned, nor around a name that is assigned to. -/
theorem parentheses_are_transparent (options : Options) {modules modules' : List Tree.Module}
    (wraps : Tree.WrapsOnce modules modules') :
    Alike (fun c c' => c'.program.types = c.program.types ∧ c'.program.scopes = c.program.scopes ∧
        (∀ d, (c'.program.nodesOf d).map Node.bare = (c.program.nodesOf d).map Node.bare) ∧
        c'.findings.map Diagnostic.kind = c.findings.map Diagnostic.kind ∧ c.Agree c')
      (Compilation.bind options modules) (Compilation.bind options modules') := by
  have first := Compilation.bind_bare options modules
  have second := Compilation.bind_bare options modules'
  rw [wraps_once_bare wraps] at second
  refine alike_imp (alike_meet first second) (fun c c' _ _ related => ?_)
  obtain ⟨plain, ⟨kin, agree, told⟩, kin', agree', told'⟩ := related
  refine ⟨kin'.types.symm.trans kin.types, kin'.scopes.trans kin.scopes.symm, fun d => ?_, told'.symm.trans told,
    agree.trans agree'.symm⟩
  exact (Program.nodes_mirror kin'.mirrors d).symm.trans (Program.nodes_mirror kin.mirrors d)

def Tree.wrappedLayers : Tree.Module :=
  { Tree.layers with
    items := Tree.layers.items.take 2 ++
      Tree.initialized "double" (.binary (.paren (Tree.call "base") {}) .add (Tree.call "base") {}) ::
        Tree.layers.items.drop 3 }

theorem layers_with_parentheses : ∃ c c',
    Compilation.bind {} [Tree.layers] = .ok c ∧ Compilation.bind {} [Tree.wrappedLayers] = .ok c' ∧
      Tree.WrapsOnce [Tree.layers] [Tree.wrappedLayers] ∧ c.findings.length = 7 ∧
      c'.findings.map Diagnostic.kind = c.findings.map Diagnostic.kind ∧ c.Agree c' := by
  have counted : (Compilation.bind {} [Tree.layers]).toOption.map (fun c => c.findings.length) = some 7 := by
    decide +kernel
  have wraps : Tree.WrapsOnce [Tree.layers] [Tree.wrappedLayers] :=
    .item [] Tree.layers [] (Tree.layers.items.take 2) (Tree.layers.items.drop 3) rfl
      (.variable (.initializer rfl (.intro rfl (.left .add (Tree.call "base") {} (.here (Tree.call "base") {})))))
  have same := parentheses_are_transparent {} wraps
  generalize Compilation.bind {} [Tree.layers] = x at *
  generalize Compilation.bind {} [Tree.wrappedLayers] = y at *
  cases same with
  | error e => cases counted
  | ok related =>
    simp only [Except.toOption, Option.map_some, Option.some.injEq] at counted
    exact ⟨_, _, rfl, rfl, wraps, counted, related.2.2.2⟩

def Tree.settling (initial target returned : Tree.Expr) : Tree.Module :=
  { path := []
    imports := []
    items := [.function ⟨⟨"f", {}⟩, {}, none, [], none, some (.mk [
      .variable ⟨⟨"x", {}⟩, false, some ⟨⟨"Int", {}⟩, false, none, {}⟩, some initial, {}⟩,
      .assign target (.number (.int 2) {}) {},
      .ret (some (Tree.name "x")) {},
      .ret (some returned) {}] {}), {}⟩]
    notices := []
    span := {} }

def Compilation.outcome (m : Tree.Module) : Option (List (Severity × Cause) × Option Bool) :=
  (Compilation.bind {} [m]).toOption.map (fun c =>
    (c.findings.map Diagnostic.kind, (c.facts.returnTypes.find? ⟨21⟩).join.map TypeRef.nullable))

/-- Parentheses hide a `null` that a variable starts with, a name that is assigned to, and a `null` that is returned. -/
theorem parentheses_can_hide :
    let mismatch : Severity × Cause := (.error, .valueNotAssignable "immutable Int" "null")
    let immutable : Severity × Cause := (.error, .assignmentToImmutable "x")
    let hidden (e : Tree.Expr) : Tree.Expr := .paren e {}
    Compilation.outcome (Tree.settling (.null {}) (Tree.name "x") (.null {}))
      = some ([mismatch, immutable], some true) ∧
    Compilation.outcome (Tree.settling (hidden (.null {})) (Tree.name "x") (.null {})) = some ([immutable], some true) ∧
    Compilation.outcome (Tree.settling (.null {}) (hidden (Tree.name "x")) (.null {})) = some ([mismatch], some true) ∧
    Compilation.outcome (Tree.settling (.null {}) (Tree.name "x") (hidden (.null {})))
      = some ([mismatch, immutable], some false) := by
  decide +kernel

end SemanticAnalysis
