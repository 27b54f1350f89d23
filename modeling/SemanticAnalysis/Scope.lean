import SemanticAnalysis.Id
import SemanticAnalysis.QualifiedName
import SemanticAnalysis.StableSort
/-!
Scopes and what names mean in them. Scopes form a tree that is kept in one array:

  root            means nothing
    program       the whole program
      builtin     the built-in types and operators
        module    all items see each other, whatever their order
          struct      the defaults of the members
          function    the parameters
            block     a nested block
              binding one layer for each local variable, seen only by what follows it

A name is looked for in a scope, then in the scopes around it, and then in the modules imported anywhere on that way.
-/
namespace SemanticAnalysis

inductive ScopeKind where
  | root
  | program
  | module
  | struct (id : StructId)
  | function (id : FunctionId)
  | binding
  | block
deriving DecidableEq

structure Scope where
  kind : ScopeKind
  parent : Option ScopeId
  home : Option ScopeId
  vars : List (String × VariableId) := []
  functions : List (String × FunctionId) := []
  types : List (String × TypeId) := []
  imports : List ScopeId := []

namespace Scope

def findVariable? (s : Scope) (name : String) : Option VariableId := s.vars.lookup name

def findType? (s : Scope) (name : String) : Option TypeId := s.types.lookup name

def functionsNamed (s : Scope) (name : String) : List FunctionId :=
  (s.functions.filter (fun entry => entry.1 == name)).map Prod.snd

def declares (s : Scope) (v : VariableId) : Bool := s.vars.any (fun entry => entry.2 == v)

end Scope

structure ScopeTree where
  scopes : Array Scope
  modules : List (String × ScopeId)

namespace ScopeTree

def builtinModule : String := "dotlin.lang"

def initial : ScopeTree where
  scopes := #[
    { kind := .root, parent := none, home := none },
    { kind := .program, parent := some .root, home := none },
    { kind := .module, parent := some .program, home := some .builtin }]
  modules := [(builtinModule, .builtin)]

def size (t : ScopeTree) : Nat := t.scopes.size

def get? (t : ScopeTree) (id : ScopeId) : Option Scope := t.scopes[id.index]?

def findModule? (t : ScopeTree) (name : String) : Option ScopeId := t.modules.lookup name

def push (t : ScopeTree) (s : Scope) : ScopeId × ScopeTree :=
  (⟨t.size⟩, { t with scopes := t.scopes.push s })

/-- The scope of the module with a dotted name, made below `parent` if there is none. -/
def moduleScope (t : ScopeTree) (name : String) (parent : ScopeId) : ScopeId × ScopeTree :=
  match t.findModule? name with
  | some id => (id, t)
  | none =>
    let id : ScopeId := ⟨t.size⟩
    let (_, t) := t.push { kind := .module, parent := some parent, home := some id }
    (id, { t with modules := t.modules ++ [(name, id)] })

def derive (t : ScopeTree) (parent : ScopeId) (kind : ScopeKind) : ScopeId × ScopeTree :=
  t.push { kind, parent := some parent, home := (t.get? parent).bind Scope.home }

def modify (t : ScopeTree) (id : ScopeId) (f : Scope → Scope) : ScopeTree :=
  { t with scopes := t.scopes.modify id.index f }

def addVariable (t : ScopeTree) (id : ScopeId) (name : String) (v : VariableId) : ScopeTree :=
  t.modify id (fun s => { s with vars := s.vars ++ [(name, v)] })

def addFunction (t : ScopeTree) (id : ScopeId) (name : String) (f : FunctionId) : ScopeTree :=
  t.modify id (fun s => { s with functions := s.functions ++ [(name, f)] })

def addType (t : ScopeTree) (id : ScopeId) (name : String) (type : TypeId) : ScopeTree :=
  t.modify id (fun s => { s with types := s.types ++ [(name, type)] })

def addImport (t : ScopeTree) (id : ScopeId) (imported : ScopeId) : ScopeTree :=
  t.modify id (fun s => if imported ∈ s.imports then s else { s with imports := s.imports ++ [imported] })

def climb (t : ScopeTree) : Nat → Option ScopeId → List (ScopeId × Scope)
  | _, none => []
  | 0, some _ => []
  | bound + 1, some id =>
    match t.get? id with
    | none => []
    | some s => (id, s) :: t.climb bound s.parent

/-- The scopes from `id` to the root, nearest first. Parents come before their children in the tree, so the number of
scopes bounds the way. -/
def chain (t : ScopeTree) (id : ScopeId) : List (ScopeId × Scope) := t.climb t.size (some id)

/-- The modules imported on the way to the root, in the order in which they first appear. -/
def imported (t : ScopeTree) (id : ScopeId) : List ScopeId :=
  ((t.chain id).flatMap (fun entry => entry.2.imports)).eraseDups

def ownVariable? (t : ScopeTree) (id : ScopeId) (name : String) : Option VariableId :=
  (t.get? id).bind (fun s => s.findVariable? name)

def ownType? (t : ScopeTree) (id : ScopeId) (name : String) : Option TypeId :=
  (t.get? id).bind (fun s => s.findType? name)

def ownFunctions (t : ScopeTree) (id : ScopeId) (name : String) : List FunctionId :=
  match t.get? id with
  | some s => s.functionsNamed name
  | none => []

def findVariable? (t : ScopeTree) (id : ScopeId) (name : String) : Option VariableId :=
  ((t.chain id).findSome? (fun entry => entry.2.findVariable? name)).or
    ((t.imported id).findSome? (fun module => t.ownVariable? module name))

def findType? (t : ScopeTree) (id : ScopeId) (name : String) : Option TypeId :=
  ((t.chain id).findSome? (fun entry => entry.2.findType? name)).or
    ((t.imported id).findSome? (fun module => t.ownType? module name))

/-- Every function that a name may mean in a scope, in the order of declaration. -/
def findFunctions (t : ScopeTree) (id : ScopeId) (name : String) : List FunctionId :=
  let scopes := (t.chain id).map Prod.fst ++ t.imported id
  stableSort (fun f g => f.index ≤ g.index) (scopes.flatMap (fun scope => t.ownFunctions scope name)).eraseDups

def declaredBefore (v : VariableId) (boundary : ScopeId) : List (ScopeId × Scope) → Bool
  | [] => false
  | (id, s) :: rest => s.declares v || (id != boundary && declaredBefore v boundary rest)

/-- Whether a variable is declared in a scope or in one around it, up to and including the boundary. Other variables
lie outside the boundary. -/
def isWithin (t : ScopeTree) (id : ScopeId) (v : VariableId) (boundary : ScopeId) : Bool :=
  declaredBefore v boundary (t.chain id)

end ScopeTree

end SemanticAnalysis
