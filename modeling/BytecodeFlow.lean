import BytecodeFlow.Text.Layout
import BytecodeFlow.Text.Blank
import BytecodeFlow.Text.Words
import BytecodeFlow.Fault
import BytecodeFlow.Method.Descriptor
import BytecodeFlow.Method.Signature
import BytecodeFlow.Instruction
import BytecodeFlow.FlowGraph.Basic
import BytecodeFlow.Notice
import BytecodeFlow.FlowGraph.Assembly
import BytecodeFlow.Domain.Basic
import BytecodeFlow.Domain.Powerset
import BytecodeFlow.Machine.Limits
import BytecodeFlow.Machine.Location
import BytecodeFlow.Machine.Fields
import BytecodeFlow.Machine.Frame
import BytecodeFlow.Machine.State
import BytecodeFlow.Machine.Transfer
import BytecodeFlow.Machine.Passing
import BytecodeFlow.Machine.Tagging
import BytecodeFlow.Fixpoint.OrderedSet
import BytecodeFlow.Fixpoint.Waitlist
import BytecodeFlow.Fixpoint.Reached
import BytecodeFlow.Fixpoint.Operators
import BytecodeFlow.Fixpoint.Loop
import BytecodeFlow.Fixpoint.Abort
import BytecodeFlow.Fixpoint.Relation
import BytecodeFlow.Domain.Integer
import BytecodeFlow.Summary.Block
import BytecodeFlow.Summary.Analysis
import BytecodeFlow.Machine.Analysis
import BytecodeFlow.Trace.Predecessors
import BytecodeFlow.Trace.Witness
import BytecodeFlow.Trace.Backstep
import BytecodeFlow.Trace.Tracer
import BytecodeFlow.Options.Basic
import BytecodeFlow.Options.Arguments
import BytecodeFlow.Proofs.MachineWords
import BytecodeFlow.Proofs.CallFrames
import BytecodeFlow.Proofs.Collections
import BytecodeFlow.Proofs.Iteration
import BytecodeFlow.Proofs.Blocks
import BytecodeFlow.Proofs.CallGraph
import BytecodeFlow.Proofs.Closure
import BytecodeFlow.Proofs.Provenance
import BytecodeFlow.Proofs.Exploration
import BytecodeFlow.Proofs.StateOrder
import BytecodeFlow.Proofs.StepRelation
import BytecodeFlow.Proofs.Crashes
import BytecodeFlow.Proofs.Termination
import BytecodeFlow.Proofs.Tracing
import BytecodeFlow.Proofs.Callers
import BytecodeFlow.Proofs.Independence
import BytecodeFlow.Proofs.Returns
import BytecodeFlow.Proofs.BackwardClosure
import BytecodeFlow.Proofs.LocatedJoin
import BytecodeFlow.Proofs.CachedRuns
import BytecodeFlow.Proofs.ExplorationOrder
import BytecodeFlow.Proofs.JoinRuns
import BytecodeFlow.Proofs.TraceSuccess
import BytecodeFlow.Proofs.LocationIndex
import BytecodeFlow.Proofs.FiniteDomains
import BytecodeFlow.Proofs.RunCourse
import BytecodeFlow.Proofs.SessionChange
import BytecodeFlow.Proofs.Moments
import BytecodeFlow.Proofs.LockStep
import BytecodeFlow.Proofs.CallStack
import BytecodeFlow.Proofs.CacheAccounting
import BytecodeFlow.Proofs.Resumption
import BytecodeFlow.Proofs.Intraprocedural
import BytecodeFlow.Proofs.TraceStates
import BytecodeFlow.Proofs.TraceBalance
import BytecodeFlow.Proofs.BackwardRules
import BytecodeFlow.Proofs.LinearTraces
import BytecodeFlow.Proofs.ReturnSites
import BytecodeFlow.Proofs.SeparateRuns
import BytecodeFlow.Proofs.StackEffects
import BytecodeFlow.Proofs.DescriptorGrammar
import BytecodeFlow.Proofs.DescriptorBytes
import BytecodeFlow.Proofs.LeastClosed
import BytecodeFlow.Proofs.UndominatedRuns
import BytecodeFlow.Proofs.ArgumentGrammar
import BytecodeFlow.Proofs.GraphConstruction
import BytecodeFlow.Proofs.OptionChanges
import BytecodeFlow.Proofs.PowersetLaws
import BytecodeFlow.Proofs.PendingWork
import BytecodeFlow.Proofs.ReachedHistory
