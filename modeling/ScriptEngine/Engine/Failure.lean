/-
What a caller of the engine gets when a program does not end with a value.
-/
import ScriptEngine.Machine.Realm

namespace ScriptEngine

inductive Failure
  | report (kind : FailureKind) (message : String)
  /-- A script threw a value and nothing caught it. -/
  | uncaught (v : Value)

/-- What was raised, as it is. -/
def Raised.failure : Raised → Failure
  | .fault f => .report f.kind f.message
  | .thrown v => .uncaught v

namespace Failure

/-- The kind of failure that an error object's name stands for. -/
def kindOfName? : String → Option FailureKind
  | "TypeError" => some .typeError
  | "ReferenceError" => some .referenceError
  | "RangeError" => some .rangeError
  | "SyntaxError" => some .syntaxError
  | _ => none

/-- The kind and the message that an error object reports. -/
def reported? (s : Store) (v : Value) : Option (FailureKind × String) :=
  match v with
  | .object r =>
    let o := s.object r
    if o.objectClass == .error then
      let message := match o.get "message" with
        | .undefined => ""
        | m => s.text m
      (kindOfName? (s.text (o.get "name"))).map fun kind => (kind, message)
    else none
  | _ => none

/-- What was raised, where error objects of the known kinds count as reports. -/
def ofRaised (s : Store) (e : Raised) : Failure :=
  match e with
  | .thrown v =>
    match reported? s v with
    | some (kind, message) => .report kind message
    | none => .uncaught v
  | .fault f => .report f.kind f.message

/-- The line that tells a user. -/
def text (s : Store) : Failure → String
  | .report kind message => kind.name ++ ": " ++ message
  | .uncaught v => "Uncaught " ++ s.text v

end Failure

end ScriptEngine
