import Cool.Main
import Cool.Tree.Builder
import Cool.Proofs.Typing.Agreement
import Cool.Proofs.Lowering.Pool
import Cool.Proofs.Pipeline.Acceptance
import Cool.Proofs.Lowering.Outcome
import Cool.Proofs.Lowering.Site
import Cool.Proofs.Lowering.NoCode
import Cool.Proofs.Lowering.Emission
import Cool.Proofs.Document.Written
import Cool.Proofs.Document.RoundTrip
import Cool.Proofs.Pipeline.Compilation
import Cool.Proofs.Wat.Typing
import Cool.Proofs.Lowering.Derivation
import Cool.Proofs.Lowering.Names
import Cool.Proofs.Lowering.Growth
import Cool.Proofs.Lowering.Interface
import Cool.Proofs.Lowering.CodeTyping
import Cool.Proofs.Lowering.Classes
import Cool.Proofs.Lowering.ClassTyping
import Cool.Proofs.Lowering.Generated
import Cool.Proofs.Typing.CaseType
import Cool.Proofs.Members.Slots
import Cool.Proofs.Pipeline.ClosedModule
import Cool.Proofs.Pipeline.Dispatch
import Cool.Proofs.Pipeline.ValidCode
import Cool.Proofs.Typing.Evaluation
import Cool.Proofs.Wat.Execution
import Cool.Proofs.Lowering.Representation
import Cool.Proofs.Lowering.Assigned
import Cool.Proofs.Lowering.Simulation
import Cool.Proofs.Lowering.Start
import Cool.Proofs.Pipeline.Meaning
import Cool.Proofs.Pipeline.Phases
import Cool.Proofs.Pipeline.Rearrangement
import Cool.Proofs.Pipeline.Recovery
import Cool.Proofs.Wat.Reading
import Cool.Proofs.Hierarchy.Cycles
import Cool.Proofs.Wat.Exceptions
import Cool.Proofs.Lowering.Selection
import Cool.Proofs.Lowering.FreeAssignment
import Cool.Proofs.Lowering.WriteBack
import Cool.Proofs.Lowering.LiftPoints
import Cool.Proofs.Pipeline.LiftedFunctions
import Cool.Proofs.Members.Declarations
import Cool.Proofs.Literal
import Cool.Proofs.Lowering.Constants
import Cool.Proofs.Tree.Occurrences
import Cool.Proofs.Typing.Annotation
import Cool.Proofs.Typing.AnnotatedProgram
import Cool.Proofs.Tree.Places
import Cool.Proofs.Typing.Narrowing
import Cool.Proofs.Typing.Recovery
import Cool.Proofs.Pipeline.History
import Cool.Proofs.Document.Culprit
import Cool.Proofs.Tree.Dump
import Cool.Proofs.Pipeline.Casts
import Cool.Proofs.Hierarchy.InstallationOrder
import Cool.Proofs.ScopeRuns
import Cool.Proofs.Tree.Visits
