import Vernacular.Tree.Basic

/-!
# How tightly generated code binds

Each expression has a number; the larger it is, the tighter the expression binds. An operand is put in parentheses if it
binds more loosely than its place allows.
-/

namespace Vernacular

/-- How tightly an operator holds its operands. -/
def BinaryOp.precedence : BinaryOp → Nat
  | or | nullish => 3
  | and => 4
  | bitwiseOr => 5
  | bitwiseAnd => 7
  | equal | notEqual | strictEqual | strictNotEqual => 8
  | less | lessEqual | greater | greaterEqual | instanceOf => 9
  | leftShift | rightShift | unsignedRightShift => 10
  | add | subtract => 11
  | multiply | divide | modulo => 12
  | exponent => 13

/-- How tightly operators in front of their operand bind. -/
def unaryPrecedence : Nat := 14

/-- How tightly calls and properties bind. -/
def callPrecedence : Nat := 17

namespace Expr

/-- How tightly an expression binds. -/
def precedence : Expr → Nat
  | assign .. => 2
  | binary op .. => op.precedence
  | unary .. => unaryPrecedence
  | update _ true .. => 15
  | update _ false .. => 16
  | call .. | new .. | member .. | index .. => callPrecedence
  | literal .. | ident .. | this .. | super .. | array .. | object .. | function .. => 18

/-- Whether `??` and another logical operator would meet without parentheses. -/
def mixesNullish (parent : BinaryOp) : Expr → Bool
  | binary op .. => parent.isLogical && op.isLogical && (parent == .nullish) != (op == .nullish)
  | _ => false

/-- Whether the left operand of `op` needs parentheses. The base of a power may not even be an operator in front of its
operand. -/
def parensOnLeft (op : BinaryOp) (e : Expr) : Bool :=
  (if op = .exponent then e.precedence ≤ unaryPrecedence else e.precedence < op.precedence) || e.mixesNullish op

/-- Whether the right operand of `op` needs parentheses. Only powers group to the right. -/
def parensOnRight (op : BinaryOp) (e : Expr) : Bool :=
  (if op = .exponent then e.precedence < op.precedence else e.precedence ≤ op.precedence) || e.mixesNullish op

/-- Whether a construction would take a part of its class for its own: a call, or a step that may be skipped. -/
def parensUnderNew : Expr → Bool
  | call .. => true
  | member o _ optional _ => optional || o.parensUnderNew
  | index o _ optional _ => optional || o.parensUnderNew
  | new .. => false
  | e => e.precedence < callPrecedence

/-- Whether an expression needs parentheses in front of a property. The point behind a number would belong to it. -/
def parensBeforeProperty : Expr → Bool
  | literal (.number _) _ => true
  | e => e.precedence < callPrecedence

end Expr

end Vernacular
