/-!
Places in a source text. Line zero stands for no text at all, which is where built-in declarations are.
-/
namespace SemanticAnalysis

structure Span where
  line : Nat := 0
  column : Nat := 0
  length : Nat := 0
deriving DecidableEq, Inhabited

namespace Span

def isUnknown (s : Span) : Bool := s.line == 0

def position (s : Span) : Nat × Nat := (s.line, s.column)

/-- Whether `s` starts no later than `t`: by line, then by column. Lengths do not count. -/
def startsBy (s t : Span) : Bool :=
  s.line < t.line || (s.line == t.line && s.column ≤ t.column)

def text (s : Span) : String :=
  if s.isUnknown then "<builtin>" else toString s.line ++ ":" ++ toString s.column

end Span

end SemanticAnalysis
