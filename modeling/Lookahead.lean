import Lookahead.Analysis.First
import Lookahead.Analysis.Follow
import Lookahead.Analysis.LeftRecursion
import Lookahead.Analysis.Nullable
import Lookahead.Analysis.Passes
import Lookahead.Analysis.Report
import Lookahead.Analysis.Stable
import Lookahead.Bnf.Bindings
import Lookahead.Bnf.Error
import Lookahead.Bnf.Grammar
import Lookahead.Bnf.Load
import Lookahead.Byte.Registers
import Lookahead.Byte.Set
import Lookahead.Byte.Text
import Lookahead.Byte.Words
import Lookahead.Counting
import Lookahead.Engine.Error
import Lookahead.Engine.Machine
import Lookahead.Engine.Parser
import Lookahead.Engine.Progress
import Lookahead.Engine.Run
import Lookahead.Engine.Stream
import Lookahead.Enumeration.Basic
import Lookahead.Enumeration.Code
import Lookahead.Enumeration.Grammar
import Lookahead.Enumeration.Program
import Lookahead.Enumeration.Samples
import Lookahead.Error
import Lookahead.Grammar.Basic
import Lookahead.Grammar.Error
import Lookahead.Grammar.Resolved
import Lookahead.Grammar.Text
import Lookahead.Json.Grammar
import Lookahead.Json.Keys
import Lookahead.Names
import Lookahead.Proofs.Alternatives
import Lookahead.Proofs.Bounds
import Lookahead.Proofs.Claims
import Lookahead.Proofs.Correctness
import Lookahead.Proofs.Depiction
import Lookahead.Proofs.Derivation
import Lookahead.Proofs.Execution
import Lookahead.Proofs.Extents
import Lookahead.Proofs.Gathering
import Lookahead.Proofs.Generation
import Lookahead.Proofs.Inversion
import Lookahead.Proofs.Joining
import Lookahead.Proofs.JsonGrammar
import Lookahead.Proofs.Language
import Lookahead.Proofs.LeftCorner
import Lookahead.Proofs.Lexemes
import Lookahead.Proofs.LineEnds
import Lookahead.Proofs.Lines
import Lookahead.Proofs.Loading
import Lookahead.Proofs.Naming
import Lookahead.Proofs.Nullability
import Lookahead.Proofs.Prediction
import Lookahead.Proofs.Quotations
import Lookahead.Proofs.Readability
import Lookahead.Proofs.Reading
import Lookahead.Proofs.Rebuilding
import Lookahead.Proofs.Recognition
import Lookahead.Proofs.Reentry
import Lookahead.Proofs.Rendering
import Lookahead.Proofs.Resolution
import Lookahead.Proofs.RoundTrip
import Lookahead.Proofs.SelfGrammar
import Lookahead.Proofs.Sequencing
import Lookahead.Proofs.Simulation
import Lookahead.Proofs.Stability
import Lookahead.Proofs.Unambiguity
import Lookahead.Proofs.Walks
import Lookahead.Table.Basic
import Lookahead.Table.Generate
import Lookahead.Table.Row
import Lookahead.Table.Text
import Lookahead.Text.Lossy
import Lookahead.Text.Printable
import Lookahead.Text.Quoted
import Lookahead.Tree.Basic
import Lookahead.Tree.Summary
import Lookahead.Tree.Text
import Lookahead.Tree.Walk
import Lookahead.Proofs.Postorder
import Lookahead.Proofs.Tiling
import Lookahead.Proofs.Stacks
import Lookahead.Proofs.Divergence
import Lookahead.Proofs.Outcomes
import Lookahead.Proofs.TreeStructure
import Lookahead.Proofs.TableErrors
import Lookahead.Proofs.Termination
import Lookahead.Proofs.ViablePrefix
import Lookahead.Proofs.ErrorPosition
import Lookahead.Proofs.Describing
import Lookahead.Proofs.JsonDocuments
import Lookahead.Proofs.JsonKeys
import Lookahead.Proofs.Lockstep
import Lookahead.Proofs.Renumbering
import Lookahead.Proofs.Reordering
import Lookahead.Proofs.OrderIndependence
import Lookahead.Proofs.Forms
import Lookahead.Proofs.Beginnings
import Lookahead.Proofs.Successors
import Lookahead.Proofs.PredictiveTable
import Lookahead.Proofs.Cycles
import Lookahead.Proofs.NonEmptiness
import Lookahead.Proofs.Causality
import Lookahead.Proofs.Productivity
import Lookahead.Proofs.LineNumbers
import Lookahead.Proofs.Preorder
import Lookahead.Proofs.NameResolution
import Lookahead.Proofs.TreeDumps
import Lookahead.Proofs.Validation
import Lookahead.Proofs.Words
import Lookahead.Proofs.ByteSets
import Lookahead.Proofs.NameIndifference
import Lookahead.Proofs.Searches
import Lookahead.Proofs.Fixpoints
