/-!
# Operators

The operators of expressions, with their spelling in generated text (`text`) and their name in dumps (`label`).
-/

namespace Vernacular

/-- Operators between two operands. -/
inductive BinaryOp where
  | add | subtract | multiply | divide | modulo | exponent
  | bitwiseAnd | bitwiseOr | leftShift | rightShift | unsignedRightShift
  | equal | notEqual | strictEqual | strictNotEqual | less | lessEqual | greater | greaterEqual | instanceOf
  | and | or | nullish
deriving DecidableEq, Repr

namespace BinaryOp

/-- The operators that may leave their right operand unevaluated. -/
def isLogical : BinaryOp → Bool
  | and | or | nullish => true
  | _ => false

def text : BinaryOp → String
  | add => "+"
  | subtract => "-"
  | multiply => "*"
  | divide => "/"
  | modulo => "%"
  | exponent => "**"
  | bitwiseAnd => "&"
  | bitwiseOr => "|"
  | leftShift => "<<"
  | rightShift => ">>"
  | unsignedRightShift => ">>>"
  | equal => "=="
  | notEqual => "!="
  | strictEqual => "==="
  | strictNotEqual => "!=="
  | less => "<"
  | lessEqual => "<="
  | greater => ">"
  | greaterEqual => ">="
  | instanceOf => "instanceof"
  | and => "&&"
  | or => "||"
  | nullish => "??"

def label : BinaryOp → String
  | add => "Add"
  | subtract => "Subtract"
  | multiply => "Multiply"
  | divide => "Divide"
  | modulo => "Modulo"
  | exponent => "Exponent"
  | bitwiseAnd => "BitwiseAnd"
  | bitwiseOr => "BitwiseOr"
  | leftShift => "LeftShift"
  | rightShift => "RightShift"
  | unsignedRightShift => "UnsignedRightShift"
  | equal => "Equal"
  | notEqual => "NotEqual"
  | strictEqual => "StrictEqual"
  | strictNotEqual => "StrictNotEqual"
  | less => "Less"
  | lessEqual => "LessEqual"
  | greater => "Greater"
  | greaterEqual => "GreaterEqual"
  | instanceOf => "InstanceOf"
  | and => "And"
  | or => "Or"
  | nullish => "Nullish"

end BinaryOp

/-- Operators in front of one operand. -/
inductive UnaryOp where
  | not | negate | plus | typeOf
deriving DecidableEq, Repr

namespace UnaryOp

def text : UnaryOp → String
  | not => "!"
  | negate => "-"
  | plus => "+"
  | typeOf => "typeof"

def label : UnaryOp → String
  | not => "Not"
  | negate => "Negate"
  | plus => "Plus"
  | typeOf => "TypeOf"

end UnaryOp

/-- Operators that step a variable. -/
inductive UpdateOp where
  | increment | decrement
deriving DecidableEq, Repr

namespace UpdateOp

def text : UpdateOp → String
  | increment => "++"
  | decrement => "--"

def label : UpdateOp → String
  | increment => "Increment"
  | decrement => "Decrement"

end UpdateOp

/-- Operators that store a value. -/
inductive AssignOp where
  | assign | add | subtract | multiply | divide | modulo
deriving DecidableEq, Repr

namespace AssignOp

def text : AssignOp → String
  | assign => "="
  | add => "+="
  | subtract => "-="
  | multiply => "*="
  | divide => "/="
  | modulo => "%="

def label : AssignOp → String
  | assign => "Assign"
  | add => "AddAssign"
  | subtract => "SubtractAssign"
  | multiply => "MultiplyAssign"
  | divide => "DivideAssign"
  | modulo => "ModuloAssign"

end AssignOp

end Vernacular
