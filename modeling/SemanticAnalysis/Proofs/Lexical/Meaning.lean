import SemanticAnalysis.Bound.Program
import SemanticAnalysis.Proofs.Traversal
/-!
Lexical scoping, read off declaration trees alone. Variables are numbered: those of the modules first, in the order of
the text, then function by function the parameters and the variables declared in the body.

At every place in a body some variables are visible, nearest first: those declared before the place in its own block,
from the latest to the first; then those declared before the statement around it in the block around that, and so on
outwards; then the parameters from the first to the last. A name means the nearest variable of that name, and otherwise
what it means in the module.
-/
namespace SemanticAnalysis

namespace Tree

mutual

def Expr.names : Expr → List String
  | .name ident _ => [ident.name]
  | .number .. => []
  | .null _ => []
  | .invocation (.name _ _) args _ => Expr.allNames args
  | .invocation (.member object _ _ _) args _ => object.names ++ Expr.allNames args
  | .invocation target args _ => target.names ++ Expr.allNames args
  | .member object _ _ _ => object.names
  | .binary left _ right _ => left.names ++ right.names
  | .unary _ operand _ => operand.names
  | .paren inner _ => inner.names

def Expr.allNames : List Expr → List String
  | [] => []
  | e :: rest => e.names ++ Expr.allNames rest

end

def Expr.optionNames : Option Expr → List String
  | none => []
  | some e => e.names

mutual

def Stmt.locals : Stmt → List VariableDecl
  | .expr .. => []
  | .variable decl => [decl]
  | .assign .. => []
  | .ret .. => []
  | .branch _ thenBranch elseBranch _ => thenBranch.locals ++ Block.optionLocals elseBranch
  | .block body => body.locals

def Block.locals : Block → List VariableDecl
  | .mk stmts _ => Stmt.allLocals stmts

def Block.optionLocals : Option Block → List VariableDecl
  | none => []
  | some block => block.locals

def Stmt.allLocals : List Stmt → List VariableDecl
  | [] => []
  | s :: rest => s.locals ++ Stmt.allLocals rest

end

/-- Variables with their names, nearest first. -/
abbrev Visible := List (String × VariableId)

/-- A name where it is used, with what is visible there. -/
structure Use where
  name : String
  visible : Visible

/-- What is visible after a statement in its block. The next variable to be declared has the number `next`. -/
def Stmt.after (visible : Visible) (next : Nat) : Stmt → Visible
  | .variable decl => (decl.name.name, ⟨next⟩) :: visible
  | _ => visible

mutual

def Stmt.uses (visible : Visible) (next : Nat) : Stmt → List Use
  | .expr value _ => value.names.map (⟨·, visible⟩)
  | .variable decl => (Expr.optionNames decl.initializer).map (⟨·, visible⟩)
  | .assign target value _ => (target.names ++ value.names).map (⟨·, visible⟩)
  | .ret value _ => (Expr.optionNames value).map (⟨·, visible⟩)
  | .branch condition thenBranch elseBranch _ =>
    condition.names.map (⟨·, visible⟩) ++ thenBranch.uses visible next
      ++ Block.optionUses visible (next + thenBranch.locals.length) elseBranch
  | .block body => body.uses visible next

def Block.uses (visible : Visible) (next : Nat) : Block → List Use
  | .mk stmts _ => Stmt.allUses visible next stmts

def Block.optionUses (visible : Visible) (next : Nat) : Option Block → List Use
  | none => []
  | some block => block.uses visible next

def Stmt.allUses (visible : Visible) (next : Nat) : List Stmt → List Use
  | [] => []
  | s :: rest => s.uses visible next ++ Stmt.allUses (s.after visible next) (next + s.locals.length) rest

end

def FunctionDecl.visibleParams (next : Nat) (decl : FunctionDecl) : Visible :=
  decl.params.zipIdx.map (fun entry => (entry.1.name.name, ⟨next + entry.2⟩))

inductive Binder where
  | declaration (decl : VariableDecl)
  | parameter (param : Param)

namespace Item

def global? : Item → Option VariableDecl
  | .variable decl => some decl
  | _ => none

def binders : Item → List Binder
  | .function decl => decl.params.map .parameter ++ (Block.optionLocals decl.body).map .declaration
  | _ => []

/-- The names used in an item whose inner variables are numbered from `next`. -/
def uses (next : Nat) : Item → List Use
  | .function decl => Block.optionUses (decl.visibleParams next) (next + decl.params.length) decl.body
  | .variable decl => (Expr.optionNames decl.initializer).map (⟨·, []⟩)
  | .struct decl => (decl.members.flatMap (fun m => Expr.optionNames m.default)).map (⟨·, []⟩)

end Item

structure Placed where
  module : String
  item : Item

def placed (modules : List Module) : List Placed := modules.flatMap (fun m => m.items.map (⟨m.name, ·⟩))

def globals (items : List Placed) : List (String × VariableDecl) :=
  items.filterMap (fun i => i.item.global?.map (i.module, ·))

def visibleIn (items : List Placed) (module : String) : Visible :=
  ((globals items).zipIdx.filter (fun entry => entry.1.1 == module)).map
    (fun entry => (entry.1.2.name.name, ⟨entry.2⟩))

def importsOf (modules : List Module) (module : String) : List String :=
  (modules.filter (fun m => m.name == module)).flatMap (fun m => m.imports.map Import.target)

/-- What a name means in the modules of one name. The variables of these modules come first, then those of the
built-in module where it is imported implicitly, and then those of all modules that they import. -/
def inModule (options : Options) (modules : List Module) (module name : String) : Option VariableId :=
  let own := fun module => (visibleIn (placed modules) module).lookup name
  let near := if options.implicitBuiltinImport then [module, ScopeTree.builtinModule] else [module]
  (near.findSome? own).or ((near.flatMap (importsOf modules)).findSome? own)

def meanings (options : Options) (modules : List Module) (next : Nat) (i : Placed) :
    List (String × Option VariableId) :=
  (i.item.uses next).map (fun use =>
    (use.name, (use.visible.lookup use.name).or (inModule options modules i.module use.name)))

def numbered (next : Nat) : List Placed → List (Nat × Placed)
  | [] => []
  | i :: rest => (next, i) :: numbered (next + i.item.binders.length) rest

theorem numbered_items (next : Nat) (items : List Placed) : (numbered next items).map Prod.snd = items := by
  induction items generalizing next with
  | nil => rfl
  | cons i items ih => rw [numbered, List.map_cons, ih]

/-- What each name that is used in some modules means, item by item. -/
def allMeanings (options : Options) (modules : List Module) : List (List (String × Option VariableId)) :=
  (numbered (globals (placed modules)).length (placed modules)).map
    (fun entry => meanings options modules entry.1 entry.2)

def allBinders (modules : List Module) : List Binder :=
  (globals (placed modules)).map (fun entry => .declaration entry.2)
    ++ (placed modules).flatMap (fun i => i.item.binders)

end Tree

namespace Bound

def Variable.binder (v : Variable) : Tree.Binder :=
  match v.origin with
  | .declared decl => .declaration decl
  | .parameter _ _ param => .parameter param

structure Identifier where
  node : NodeId
  name : String
  site : Site

def Node.identifier? : Node → Option Identifier
  | .identifier node name site => some ⟨node, name, site⟩
  | _ => none

namespace Expr

def identifiers (e : Expr) : List Identifier := e.nodes.filterMap Node.identifier?

def optionIdentifiers (e : Option Expr) : List Identifier := (Expr.optionNodes e).filterMap Node.identifier?

def allIdentifiers (es : List Expr) : List Identifier := (Expr.allNodes es).filterMap Node.identifier?

end Expr

end Bound

namespace Program

/-- The names used in a step. Those of a variable's initializer are used where the variable is introduced. -/
def stepIdentifiers (p : Program) : Bound.Step → List Bound.Identifier
  | .node n => n.identifier?.toList
  | .introduce id => ((p.vars[id.index]?).map (fun v => Bound.Expr.optionIdentifiers v.initializer)).getD []
  | .assign target value _ => target.identifiers ++ value.identifiers

def identifiers (p : Program) : Declaration → List Bound.Identifier
  | .function id =>
    ((p.functions[id.index]?).map (fun f => (Bound.Block.optionSteps f.body).flatMap p.stepIdentifiers)).getD []
  | .variable id => ((p.vars[id.index]?).map (fun v => Bound.Expr.optionIdentifiers v.initializer)).getD []
  | .struct id => ((p.structs[id.index]?).map (fun s => Bound.Expr.allIdentifiers s.defaults)).getD []

/-- What each name that is used in a declaration is found to mean. -/
def meanings (p : Program) (d : Declaration) : List (String × Option VariableId) :=
  (p.identifiers d).map (fun i => (i.name, p.scopes.findVariable? i.site.scope i.name))

end Program

end SemanticAnalysis
