/-
Leaving constructs: which construct a `break` or `continue` refers to, and
the code that leaves the constructs inside it on the way.
-/
import ScriptEngine.Lowering.Basic

namespace ScriptEngine.Lowering

/-- The two statements that jump out of constructs. -/
inductive JumpKind
  | breaks | continues
  deriving Repr, DecidableEq

/-- Whether a jump, with or without a label, refers to a construct with these
labels and of this kind. -/
def JumpKind.refersTo (jump : JumpKind) (label : Option String) (labels : List String)
    (kind : BreakableKind) : Bool :=
  match label, jump with
  | some name, _ => labels.contains name
  | none, .continues => kind == .loop
  | none, .breaks => kind != .labelled

/-- What is reported when no construct around a jump is meant by it. -/
def JumpKind.unmatched (jump : JumpKind) (label : Option String) : SyntaxFault :=
  match label, jump with
  | some name, _ => .undefinedLabel name
  | none, .continues => .illegalContinue
  | none, .breaks => .illegalBreak

/-- The target of a jump and the constructs that it leaves, innermost first. -/
def JumpKind.target (jump : JumpKind) (label : Option String) :
    List Region → Except Fault (Label × List Region)
  | [] => .error (.source (jump.unmatched label))
  | r :: outer =>
    match r with
    | .breakable labels kind breakTo continueTo =>
      if jump.refersTo label labels kind then
        match jump, continueTo with
        | .breaks, _ => .ok (breakTo, [])
        | .continues, some continueTo => .ok (continueTo, [])
        | .continues, none => .error (.source (.continueOutsideLoop (label.getD "")))
      else keep r (target jump label outer)
    | _ => keep r (target jump label outer)
where
  keep (r : Region) (found : Except Fault (Label × List Region)) : Except Fault (Label × List Region) :=
    found.map fun (l, left) => (l, r :: left)

/-- Leaves constructs, innermost first: scopes are popped, exception regions are
closed and their finalizers run. -/
def unwind : List Region → Lowering Unit
  | [] => return
  | .breakable .. :: outer => unwind outer
  | .scope :: outer => do
    emit .popScope
    unwind outer
  | .attempt finalizer :: outer => do
    emit .leaveTry
    finalizer.getD (pure ())
    unwind outer

def lowerJump (jump : JumpKind) (label : Option String) (ctx : Context) : Lowering Unit := do
  let (target, left) ← jump.target label ctx.regions
  unwind left
  emitJump .jump target

/-- The region has a finalizer. -/
def Region.isFinalized : Region → Bool
  | .attempt (some _) => true
  | _ => false

/-- Returns the value on top of the stack. With finalizers to run, the value waits in
a temporary. -/
def returnTop (ctx : Context) : Lowering Unit := do
  if ctx.regions.any Region.isFinalized then
    let value ← newTemporary
    emitWith .storeLocal (.temporary value)
    unwind ctx.regions
    emitWith .loadLocal (.temporary value)
  emit .ret

end ScriptEngine.Lowering
