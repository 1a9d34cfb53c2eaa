import LexScope.Tree.Printer
import LexScope.Tree.Reader
import LexScope.Digest.Sha256
import LexScope.Name
import LexScope.Options
import LexScope.Pattern
import LexScope.Log
import LexScope.Scope.Strict
import LexScope.Scope.Store
import LexScope.Scope.Close
import LexScope.Walk.Plan
import LexScope.Analyze
import LexScope.Issue
import LexScope.Report.Render
import LexScope.Operation
import LexScope.Pipeline
import LexScope.CommandLine.Run
import LexScope.Main
import LexScope.Proofs.RenameSafe
import LexScope.Proofs.Optimism
import LexScope.Proofs.Grammar
import LexScope.Proofs.Parts
import LexScope.Proofs.Sites
import LexScope.Proofs.Encounter
import LexScope.Proofs.Harden
import LexScope.Proofs.Schedule
import LexScope.Proofs.Walked
import LexScope.Proofs.Uses
import LexScope.Proofs.Placed
import LexScope.Proofs.DeadZone
import LexScope.Proofs.Blockless
import LexScope.Proofs.Undeclared
import LexScope.Proofs.Leaves
import LexScope.Proofs.Origins
import LexScope.Proofs.Apart
import LexScope.Proofs.Deeds
import LexScope.Proofs.Nesting
import LexScope.Proofs.Innermost
import LexScope.Proofs.Bindings
import LexScope.Proofs.Faults
import LexScope.Proofs.ModuleItems
import LexScope.Proofs.Rendering
import LexScope.Proofs.Success
import LexScope.Proofs.Editions
import LexScope.Proofs.Overrides
import LexScope.Proofs.Balance
import LexScope.Proofs.Relabel
import LexScope.Proofs.Annotations
import LexScope.Proofs.Edits
import LexScope.Proofs.Strictness
import LexScope.Proofs.Flags
import LexScope.Proofs.NodeIndex
import LexScope.Proofs.Partition
import LexScope.Proofs.Forest
import LexScope.Proofs.Tables
import LexScope.Proofs.Told
import LexScope.Proofs.Provenance
