/-!
Dotted names. A text is cut at its dots and empty pieces are dropped, so `a..b` and `.a.b` name the same thing as
`a.b`.
-/
namespace SemanticAnalysis

def pieces : List Char → List (List Char)
  | [] => [[]]
  | c :: rest =>
    if c = '.' then [] :: pieces rest
    else match pieces rest with
      | [] => [[c]]
      | piece :: others => (c :: piece) :: others

def segments (text : String) : List String :=
  ((pieces text.toList).filter (fun piece => !piece.isEmpty)).map String.ofList

def dotted : List String → String
  | [] => ""
  | [segment] => segment
  | segment :: rest => segment ++ "." ++ dotted rest

structure QualifiedName where
  name : String
  package : List String := []
deriving DecidableEq

namespace QualifiedName

def root (name : String) : QualifiedName := ⟨name, []⟩

def isRoot (q : QualifiedName) : Bool := q.package.isEmpty

/-- The last segment is the name and the others are the package; a text without segments is the empty root name. -/
def ofDotted (text : String) : QualifiedName :=
  match (segments text).reverse with
  | [] => root ""
  | name :: package => ⟨name, package.reverse⟩

/-- Every package segment is followed by a dot, then comes the name. -/
def text (q : QualifiedName) : String :=
  q.package.foldr (fun segment rest => segment ++ "." ++ rest) q.name

end QualifiedName

end SemanticAnalysis
