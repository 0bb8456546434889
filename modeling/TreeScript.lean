import TreeScript.Context.Describe
import TreeScript.Context.Release
import TreeScript.Proofs.Calls.Bookkeeping
import TreeScript.Proofs.Calls.Callbacks
import TreeScript.Proofs.Calls.CallerLocals
import TreeScript.Proofs.Calls.Capture
import TreeScript.Proofs.Cells.Constants
import TreeScript.Proofs.Cells.Parameters
import TreeScript.Proofs.Cells.ReadOnly
import TreeScript.Proofs.Cells.References
import TreeScript.Proofs.Cells.Types
import TreeScript.Proofs.Context.BindingFrames
import TreeScript.Proofs.Context.Interference
import TreeScript.Proofs.Context.OwnerFirst
import TreeScript.Proofs.Dict.Comparison
import TreeScript.Proofs.Failures.Reports
import TreeScript.Proofs.Imports.Isolation
import TreeScript.Proofs.Instances.Construction
import TreeScript.Proofs.Instances.Independence
import TreeScript.Proofs.Lifetime.Owners
import TreeScript.Proofs.Places.Agreement
import TreeScript.Proofs.Places.Atomic
import TreeScript.Proofs.Places.Compound
import TreeScript.Proofs.Privacy.Names
import TreeScript.Proofs.Run.Counting
import TreeScript.Proofs.Run.Lines
import TreeScript.Proofs.Termination.Limits
import TreeScript.Proofs.Text.Characters
import TreeScript.Proofs.Text.Pieces
import TreeScript.Proofs.Value.Arithmetic
import TreeScript.Session
import TreeScript.Proofs.Value.Sequences
import TreeScript.Proofs.Number.Numerals
import TreeScript.Proofs.Source.Locations
import TreeScript.Proofs.Text.Escapes
import TreeScript.Proofs.Value.Conversions
import TreeScript.Proofs.Value.Rendering
import TreeScript.Proofs.Value.Sums
import TreeScript.Proofs.Scope.History
import TreeScript.Proofs.Instances.MemberHistory
