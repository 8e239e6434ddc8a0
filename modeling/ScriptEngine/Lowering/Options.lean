/-
What can be chosen about lowering.
-/

namespace ScriptEngine

/-- What assigning to a name that is bound nowhere does. -/
inductive UndeclaredAssignment
  | createGlobal | throwError
  deriving Repr, DecidableEq

structure LoweringOptions where
  /-- Loops test before the first round and once more behind each round. -/
  loopRotation : Bool
  undeclaredAssignment : UndeclaredAssignment
  /-- Every statement is checked to leave the operand stack as it found it. -/
  checkBalance : Bool
  deriving Repr, DecidableEq

def LoweringOptions.standard : LoweringOptions := ⟨true, .createGlobal, true⟩

def LoweringOptions.isStrict (o : LoweringOptions) : Bool := o.undeclaredAssignment == .throwError

end ScriptEngine
