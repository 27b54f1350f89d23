/-!
Operators. An operator has no meaning of its own: it stands for a call of a named function on its left (or only)
operand.
-/
namespace SemanticAnalysis

inductive BinaryOp where
  | add
  | sub
  | mul
  | div
  | equal
  | notEqual
  | less
  | lessEqual
  | greater
  | greaterEqual
deriving DecidableEq

namespace BinaryOp

def all : List BinaryOp := [add, sub, mul, div, equal, notEqual, less, lessEqual, greater, greaterEqual]

def text : BinaryOp → String
  | add => "+"
  | sub => "-"
  | mul => "*"
  | div => "/"
  | equal => "=="
  | notEqual => "!="
  | less => "<"
  | lessEqual => "<="
  | greater => ">"
  | greaterEqual => ">="

def functionName : BinaryOp → String
  | add => "opPlus"
  | sub => "opMinus"
  | mul => "opTimes"
  | div => "opDivide"
  | equal | notEqual => "opEquals"
  | less | lessEqual | greater | greaterEqual => "opCompare"

def yieldsBoolean : BinaryOp → Bool
  | add | sub | mul | div => false
  | equal | notEqual | less | lessEqual | greater | greaterEqual => true

end BinaryOp

inductive UnaryOp where
  | neg
  | not
deriving DecidableEq

namespace UnaryOp

def all : List UnaryOp := [neg, not]

def text : UnaryOp → String
  | neg => "-"
  | not => "!"

def functionName : UnaryOp → String
  | neg => "unaryMinus"
  | not => "unaryNot"

end UnaryOp

end SemanticAnalysis
