/-!
Switches of a compilation.
-/
namespace SemanticAnalysis

structure Options where
  /-- Report a call whose two best candidates are equally close. The first one is chosen either way. -/
  reportAmbiguousOverloads : Bool := true
  /-- Warn when a check for purity meets a function whose own check is still running. -/
  warnOnRecursivePurity : Bool := true
  /-- Put every module below the built-in one, so that it needs no import. -/
  implicitBuiltinImport : Bool := true
deriving DecidableEq

end SemanticAnalysis
