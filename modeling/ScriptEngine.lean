import ScriptEngine.Main
import ScriptEngine.Proofs.Tree.ReadBack
import ScriptEngine.Proofs.Tree.Spacing
import ScriptEngine.Proofs.Lowering.Unchecked
import ScriptEngine.Proofs.Lowering.Jumps
import ScriptEngine.Proofs.Simulation.Plain
import ScriptEngine.Proofs.Engine.Openings
import ScriptEngine.Proofs.Engine.CallBudget
import ScriptEngine.Proofs.Engine.EvalScope
import ScriptEngine.Proofs.Engine.Rotation
import ScriptEngine.Proofs.Engine.Undeclared
import ScriptEngine.Proofs.Engine.Deletion
import ScriptEngine.Proofs.Engine.Rethrow
import ScriptEngine.Proofs.Lowering.Hoisting
import ScriptEngine.Proofs.Lowering.Storage
import ScriptEngine.Proofs.Engine.Switch
import ScriptEngine.Proofs.Engine.Keys
import ScriptEngine.Proofs.Source.Literal
import ScriptEngine.Proofs.Operator.Filling
import ScriptEngine.Proofs.Heap.Coherence
import ScriptEngine.Proofs.Heap.Index
import ScriptEngine.Proofs.Tree.Position
import ScriptEngine.Proofs.Code.Pools
import ScriptEngine.Proofs.Machine.Accounting
import ScriptEngine.Proofs.Scope.Stability
