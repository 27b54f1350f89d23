import SemanticAnalysis.InternalError
import SemanticAnalysis.QualifiedName
import SemanticAnalysis.Types.Ref
/-!
Types and their direct supertypes. A type may have several. What follows from the direct ones, and when one more is
accepted, is said in `Types.Subtype`.
-/
namespace SemanticAnalysis

structure TypeDef where
  name : QualifiedName
  supertypes : List TypeId := []
  /-- Holds for a reference to the type that states no modifier of its own. -/
  impliedModifier : Option TypeModifier := none
deriving DecidableEq

structure TypeHierarchy where
  defs : Array TypeDef := #[]

namespace TypeHierarchy

def size (h : TypeHierarchy) : Nat := h.defs.size

def get? (h : TypeHierarchy) (id : TypeId) : Option TypeDef := h.defs[id.index]?

def require (h : TypeHierarchy) (id : TypeId) : Except InternalError TypeDef :=
  match h.get? id with
  | some d => .ok d
  | none => .error (.danglingId "type" id.index)

def find? (h : TypeHierarchy) (name : QualifiedName) : Option TypeId :=
  (h.defs.toList.zipIdx.reverse.find? (fun entry => entry.1.name == name)).map (fun entry => ⟨entry.2⟩)

def nameOf (h : TypeHierarchy) (id : TypeId) : String :=
  match h.get? id with
  | some d => d.name.name
  | none => "<?>"

def text (h : TypeHierarchy) (t : TypeRef) : String :=
  (match t.modifier with
    | some m => m.text ++ " "
    | none => "")
  ++ h.nameOf t.base ++ if t.nullable then "?" else ""

def textOrUnknown (h : TypeHierarchy) : Option TypeRef → String
  | some t => h.text t
  | none => "?"

def withImpliedModifier (h : TypeHierarchy) (t : TypeRef) : TypeRef :=
  match t.modifier, (h.get? t.base).bind TypeDef.impliedModifier with
  | none, some implied => { t with modifier := some implied }
  | _, _ => t

def push (h : TypeHierarchy) (d : TypeDef) : TypeId × TypeHierarchy := (⟨h.size⟩, ⟨h.defs.push d⟩)

def declare (h : TypeHierarchy) (name : QualifiedName) : TypeId × TypeHierarchy := h.push { name }

/-- Adds a type whose supertypes are all there already. -/
def register (h : TypeHierarchy) (d : TypeDef) : Except InternalError (TypeId × TypeHierarchy) := do
  d.supertypes.forM (fun s => (fun _ => ()) <$> h.require s)
  pure (h.push d)

/-- Gives a type one more supertype, which stands in the list once. -/
def attach (h : TypeHierarchy) (type supertype : TypeId) : TypeHierarchy :=
  ⟨h.defs.modify type.index (fun d =>
    if supertype ∈ d.supertypes then d else { d with supertypes := d.supertypes ++ [supertype] })⟩

def builtinPackage : List String := ["dotlin", "lang"]

def builtins : TypeHierarchy where
  defs := #[
    { name := ⟨"Any", builtinPackage⟩ },
    { name := ⟨"Unit", builtinPackage⟩, supertypes := [.any] },
    { name := ⟨"Number", builtinPackage⟩, supertypes := [.any], impliedModifier := some .immutable },
    { name := ⟨"Float", builtinPackage⟩, supertypes := [.number], impliedModifier := some .immutable },
    { name := ⟨"Int", builtinPackage⟩, supertypes := [.number], impliedModifier := some .immutable },
    { name := ⟨"Boolean", builtinPackage⟩, supertypes := [.any], impliedModifier := some .immutable }]

end TypeHierarchy

end SemanticAnalysis
