/-
Conversions of values that may look into the store: texts, numbers, property
keys, and the properties of values that are not objects.
-/
import ScriptEngine.Heap.Store
import ScriptEngine.Number.Layout
import ScriptEngine.Number.Word

namespace ScriptEngine.Store

/-- The number a value stands for, given the texts of objects and functions. -/
def numberOf (text : Value → String) : Value → Float
  | .undefined => Number.nan
  | .null => 0.0
  | .boolean b => if b then 1.0 else 0.0
  | .number n => n
  | .string t => Number.ofText t
  | v => Number.ofText (text v)

/-- The number of elements a length stands for. -/
def elementCount (length : Float) : Nat := ((Number.truncate? length).getD 0).toNat

/-- The text of an object, given the texts of other values. Arrays join their
elements, errors show name and message. -/
def objectText (text : Value → String) (o : Object) : String :=
  match o.objectClass with
  | .object => "[object Object]"
  | .array =>
    let count := elementCount (numberOf text (o.get "length"))
    String.intercalate "," <| (List.range count).map fun i =>
      let v := o.get (toString i)
      if v.isNullish then "" else text v
  | .error =>
    let name := text (o.get "name")
    let message := o.get "message"
    if message.isUndefined || (text message).isEmpty then name
    else name ++ ": " ++ text message

/-- The text of a value whose objects nest at most `n` deep. -/
def textWithin (s : Store) : Nat → Value → String
  | _, .undefined => "undefined"
  | _, .null => "null"
  | _, .boolean b => if b then "true" else "false"
  | _, .number n => Number.text n
  | _, .string t => t
  | _, .function f => (s.callable f).text
  | 0, .object _ => ""
  | n + 1, .object r => objectText (s.textWithin n) (s.object r)

/-- How a value is shown. Objects of a finite store that do not contain themselves nest
no deeper than there are objects. -/
def text (s : Store) (v : Value) : String := s.textWithin (s.objects.size + 1) v

def toNumber (s : Store) (v : Value) : Float := numberOf s.text v

def toInt32 (s : Store) (v : Value) : Int32 := Number.toInt32 (s.toNumber v)

def toUInt32 (s : Store) (v : Value) : UInt32 := Number.toUInt32 (s.toNumber v)

def toKey (s : Store) (v : Value) : String := s.text v

/-! ## Properties -/

/-- The character at the position that a key stands for. -/
def characterAt? (t key : String) : Option Char := do
  t.toList[← Number.plusUnsigned? 10 (Nat.pow 2 64) key.toList]?

/-- Reads a property of any value; what is missing is undefined. -/
def property (s : Store) (v : Value) (key : String) : Value :=
  match v with
  | .object r => (s.object r).get key
  | .string t =>
    if key == "length" then .number (Number.ofWord t.length)
    else
      match characterAt? t key with
      | some c => .string c.toString
      | none => .undefined
  | .function f =>
    if key == "name" then .string (s.callable f).name
    else if key == "length" then .number (Number.ofWord (s.callable f).arity)
    else .undefined
  | _ => .undefined

/-- Writes a property of an object. -/
def setProperty (s : Store) (r : ObjectRef) (key : String) (v : Value) : Store :=
  let length := match (s.object r).objectClass with
    | .array => s.toNumber ((s.object r).get "length")
    | _ => 0.0
  s.modifyObject r fun o => o.set length key v

/-- The keys that a loop over a value visits. -/
def loopKeys (s : Store) : Value → List String
  | .object r => (s.object r).enumerableKeys
  | .string t => (List.range t.length).map toString
  | _ => []

end ScriptEngine.Store
