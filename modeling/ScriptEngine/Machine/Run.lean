/-
Running: one step of the machine, and steps until the outermost frame ends.
-/
import ScriptEngine.Machine.Exec

namespace ScriptEngine

structure Machine where
  realm : Realm
  frame : Frame
  /-- The frames that wait for the running one, innermost first. -/
  callers : List Frame

/-- How a run ends. -/
structure Outcome where
  result : Except Raised Value
  realm : Realm

inductive Step
  | run (m : Machine)
  | done (o : Outcome)

namespace Machine

/-- The running frame ends with a value, which goes to the frame below. -/
def deliver (realm : Realm) (purpose : Purpose) (v : Value) (callers : List Frame) : Step :=
  let realm := realm.endFrame purpose
  let v := purpose.result v
  match callers with
  | [] => .done ⟨.ok v, realm⟩
  | caller :: callers => .run ⟨realm, caller.push v, callers⟩

/-- The frame goes on in a handler, which finds the exception on the stack. -/
def handle (f : Frame) (h : Handler) (rest : List Handler) (exception : Value) : Frame :=
  { f with
    stack := exception :: f.stack.drop (f.stack.length - h.height)
    scope := h.scope
    position := h.target
    handlers := rest }

/-- What was raised reaches a frame, which goes on in its innermost handler, or ends. A
frame also ends when the fault is not for scripts to see. -/
def receive (e : Raised) (realm : Realm) (frame : Frame) : Option Frame × Realm :=
  match frame.handlers with
  | h :: rest =>
    match realm.exceptionValue e with
    | (some exception, realm) => (some (handle frame h rest exception), realm)
    | (none, realm) => (none, realm.endFrame frame.purpose)
  | [] => (none, realm.endFrame frame.purpose)

/-- What was raised goes outward to the first frame that handles it. -/
def unwind (e : Raised) (realm : Realm) (frame : Frame) : List Frame → Step
  | [] =>
    match receive e realm frame with
    | (some frame, realm) => .run ⟨realm, frame, []⟩
    | (none, realm) => .done ⟨.error e, realm⟩
  | caller :: callers =>
    match receive e realm frame with
    | (some frame, realm) => .run ⟨realm, frame, caller :: callers⟩
    | (none, realm) => unwind e realm caller callers

/-- One step. Code that runs off its end yields undefined. -/
def step : Machine → Step
  | ⟨realm, frame, callers⟩ =>
    match frame.code.instructions[frame.position]? with
    | none => deliver realm frame.purpose .undefined callers
    | some i =>
      match i.exec ⟨realm, { frame with position := frame.position + 1 }⟩ with
      | .ok .proceed ⟨realm, frame⟩ => .run ⟨realm, frame, callers⟩
      | .ok (.leave v) ⟨realm, frame⟩ => deliver realm frame.purpose v callers
      | .ok (.enter inner) ⟨realm, frame⟩ => .run ⟨realm, inner, frame :: callers⟩
      | .error e ⟨realm, frame⟩ => unwind e realm frame callers

/-- At most `n` steps; none when the run is not over by then. -/
def run : Nat → Machine → Option Outcome
  | 0, _ => none
  | n + 1, m =>
    match m.step with
    | .run m => run n m
    | .done o => some o

end Machine

end ScriptEngine
