import SemanticAnalysis.Bound.Program
/-!
From declaration trees to a bound program. First every item of every module is declared, so that siblings see each
other; then imports are resolved, supertypes are attached, and at last function bodies are bound. Nothing else is
resolved here. An edge to a supertype that would close a cycle is left out, and a struct to which no supertype could
be attached extends `Any`.
-/
namespace SemanticAnalysis

abbrev Construction := StateT Program (Except InternalError)

namespace Construction
open SemanticAnalysis.Bound

def bindExpr (scope : ScopeId) (e : Tree.Expr) : Construction Expr := fun p => do
  let (e, nodes) ← Expr.bind scope e p.nodes
  pure (e, { p with nodes })

def bindOption (scope : ScopeId) (e : Option Tree.Expr) : Construction (Option Expr) := fun p => do
  let (e, nodes) ← Expr.bindOption scope e p.nodes
  pure (e, { p with nodes })

def newScope (parent : ScopeId) (kind : ScopeKind) : Construction ScopeId := modifyGet (fun p =>
  let (id, scopes) := p.scopes.derive parent kind
  (id, { p with scopes }))

def newFunction (home : ScopeId) (name : String) (origin : Function.Origin) : Construction FunctionId := do
  let id : FunctionId := ⟨(← get).functions.size⟩
  let scope ← newScope home (.function id)
  modify (fun p => { p with
    functions := p.functions.push { id, origin, home, scope }
    scopes := p.scopes.addFunction home name id })
  pure id

def newVariable (scope : ScopeId) (origin : Variable.Origin) (initializer : Option Expr) :
    Construction VariableId := modifyGet (fun p =>
  let id : VariableId := ⟨p.vars.size⟩
  (id, { p with vars := p.vars.push { id, origin, scope, initializer } }))

def reveal (scope : ScopeId) (name : String) (v : VariableId) : Construction Unit :=
  modify (fun p => { p with scopes := p.scopes.addVariable scope name v })

inductive Declared where
  | function (id : FunctionId) (decl : Tree.FunctionDecl)
  | variable (id : VariableId)
  | struct (id : StructId) (type : TypeId) (home : ScopeId) (decl : Tree.StructDecl)

def Declared.declaration : Declared → Declaration
  | .function id _ => .function id
  | .variable id => .variable id
  | .struct id _ _ _ => .struct id

def declareType (package : List String) (home : ScopeId) (name : String) : Construction TypeId :=
  modifyGet (fun p =>
    let (type, types) := p.types.declare ⟨name, package⟩
    (type, { p with types, scopes := p.scopes.addType home name type }))

def bindMember (scope : ScopeId) (decl : Tree.MemberDecl) : Construction Member := do
  pure ⟨decl, ← bindOption scope decl.default⟩

def declareStruct (package : List String) (home : ScopeId) (decl : Tree.StructDecl) : Construction Declared := do
  let id : StructId := ⟨(← get).structs.size⟩
  let type ← declareType package home decl.name.name
  let scope ← newScope home (.struct id)
  let members ← decl.members.mapM (bindMember scope)
  modify (fun p => { p with
    structs := p.structs.push { id, decl, type, scope, members }
    structTypes := p.structTypes.insert type id })
  pure (.struct id type home decl)

def declareItem (package : List String) (home : ScopeId) : Tree.Item → Construction Declared
  | .function decl => do
    let id ← newFunction home decl.name.name (.declared decl)
    pure (.function id decl)
  | .variable decl => do
    let initializer ← bindOption home decl.initializer
    let id ← newVariable home (.declared decl) initializer
    reveal home decl.name.name id
    pure (.variable id)
  | .struct decl => declareStruct package home decl

/-- Declares the items of a module. Modules of one name share a scope. -/
def declareModule (m : Tree.Module) : Construction (ScopeId × List Declared) := do
  let scope ← modifyGet (fun p =>
    let parent := if p.options.implicitBuiltinImport then ScopeId.builtin else ScopeId.program
    let (scope, scopes) := p.scopes.moduleScope m.name parent
    (scope, { p with scopes }))
  let declared ← m.items.mapM (declareItem m.package scope)
  modify (fun p => { p with modules := p.modules ++ [⟨m.name, scope, declared.map Declared.declaration⟩] })
  pure (scope, declared)

def resolveImport (scope : ScopeId) (i : Tree.Import) : Construction (List Diagnostic) := modifyGet (fun p =>
  match p.scopes.findModule? i.target with
  | some imported => ([], { p with scopes := p.scopes.addImport scope imported })
  | none => ([.ofError (.unresolvedImport i.target) i.span], p))

def attachSupertype (type : TypeId) (home : ScopeId) (name : String) (written : Tree.TypeExpr) :
    Construction (Option Diagnostic) := do
  let p ← get
  match p.scopes.findType? home written.name.name with
  | none => pure (some (.ofError (.unknownType written.name.name) written.span))
  | some supertype =>
    match ← p.types.addSupertype type supertype with
    | some types => do
      set { p with types }
      pure none
    | none => pure (some (.ofError (.cyclicTypeHierarchy name written.name.name) written.span))

def attachAny (type : TypeId) : Construction Unit := do
  let p ← get
  match ← p.types.addSupertype type .any with
  | some types => set { p with types }
  | none => pure ()

def sealStruct (type : TypeId) (home : ScopeId) (decl : Tree.StructDecl) : Construction (List Diagnostic) := do
  let left ← decl.supertypes.mapM (attachSupertype type home decl.name.name)
  if left.all Option.isSome then attachAny type
  pure (left.filterMap id)

def sealDeclared : Declared → Construction (List Diagnostic)
  | .struct _ type home decl => sealStruct type home decl
  | _ => pure []

mutual

/-- Binds a statement. The statements after it stand in the scope that comes along. -/
def bindStmt (scope : ScopeId) : Tree.Stmt → Construction (Stmt × ScopeId)
  | .expr value span => do
    let value ← bindExpr scope value
    pure (.expr value ⟨scope, span⟩, scope)
  | .variable decl => do
    let initializer ← bindOption scope decl.initializer
    let id ← newVariable scope (.declared decl) initializer
    let layer ← newScope scope .binding
    reveal layer decl.name.name id
    pure (.variable id ⟨scope, decl.span⟩, layer)
  | .assign target value span => do
    let target ← bindExpr scope target
    let value ← bindExpr scope value
    pure (.assign target value ⟨scope, span⟩, scope)
  | .ret value span => do
    let value ← bindOption scope value
    pure (.ret value ⟨scope, span⟩, scope)
  | .branch condition thenBranch elseBranch span => do
    let condition ← bindExpr scope condition
    let thenBranch ← bindBlock scope thenBranch
    let elseBranch ← bindOptionBlock scope elseBranch
    pure (.branch condition thenBranch elseBranch ⟨scope, span⟩, scope)
  | .block body => do
    let body ← bindBlock scope body
    pure (.block body, scope)

def bindBlock (parent : ScopeId) : Tree.Block → Construction Block
  | .mk stmts span => do
    let scope ← newScope parent .block
    let stmts ← bindStmts scope stmts
    pure (.mk stmts ⟨scope, span⟩)

def bindOptionBlock (parent : ScopeId) : Option Tree.Block → Construction (Option Block)
  | none => pure none
  | some block => do
    let block ← bindBlock parent block
    pure (some block)

def bindStmts (scope : ScopeId) : List Tree.Stmt → Construction (List Stmt)
  | [] => pure []
  | s :: rest => do
    let (s, next) ← bindStmt scope s
    let rest ← bindStmts next rest
    pure (s :: rest)

end

def bindParam (function : FunctionId) (scope : ScopeId) (param : Tree.Param × Nat) : Construction VariableId := do
  let id ← newVariable scope (.parameter function param.2 param.1) none
  reveal scope param.1.name.name id
  pure id

def bindFunction (id : FunctionId) (decl : Tree.FunctionDecl) : Construction Unit := do
  let f ← (← get).functionAt id
  let parameters ← decl.params.zipIdx.mapM (bindParam id f.scope)
  let body ← bindOptionBlock f.scope decl.body
  modify (fun p => { p with functions := p.functions.modify id.index (fun f => { f with parameters, body }) })

def bindDeclared : Declared → Construction Unit
  | .function id decl => bindFunction id decl
  | _ => pure ()

def declareBuiltins : Construction Unit := do
  modify (fun p => { p with
    scopes := p.types.defs.toList.zipIdx.foldl
      (fun scopes entry => scopes.addType .builtin entry.1.name.name ⟨entry.2⟩) p.scopes })
  BuiltinFunction.all.forM (fun b => do
    let _ ← newFunction .builtin b.name (.builtin b))

def build (modules : List Tree.Module) : Construction (List Diagnostic) := do
  declareBuiltins
  let declared ← modules.mapM declareModule
  let unresolved ← (modules.zip declared).mapM (fun entry => entry.1.imports.mapM (resolveImport entry.2.1))
  let items := declared.flatMap Prod.snd
  let rejected ← items.mapM sealDeclared
  items.forM bindDeclared
  pure (unresolved.flatten.flatten ++ rejected.flatten)

end Construction

/-- The bound program of some modules, with what was found on the way: unresolved imports, then unknown and cyclic
supertypes. -/
def Program.construct (options : Options) (modules : List Tree.Module) :
    Except InternalError (Program × List Diagnostic) := do
  let (findings, program) ← StateT.run (Construction.build modules) { options }
  pure (program, findings)

end SemanticAnalysis
