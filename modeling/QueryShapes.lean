import QueryShapes.Analysis.Arguments
import QueryShapes.Analysis.Basic
import QueryShapes.Analysis.Merging
import QueryShapes.Analysis.Resolution
import QueryShapes.Client.Basic
import QueryShapes.Client.Session
import QueryShapes.Compilation
import QueryShapes.CompileError
import QueryShapes.Digest.Sha256
import QueryShapes.Digest.Stream
import QueryShapes.Document.Layout
import QueryShapes.Document.Synthesis
import QueryShapes.Encoded.Error
import QueryShapes.Encoded.Literal
import QueryShapes.Encoded.Message
import QueryShapes.Encoded.Schema
import QueryShapes.Encoded.Selection
import QueryShapes.Encoded.Settings
import QueryShapes.Entries
import QueryShapes.Exchange.Execution
import QueryShapes.Exchange.Message
import QueryShapes.Extraction
import QueryShapes.FieldType
import QueryShapes.Flight.Basic
import QueryShapes.Flight.Run
import QueryShapes.Json.Basic
import QueryShapes.Json.Decoding
import QueryShapes.Json.Printer
import QueryShapes.Json.Reader
import QueryShapes.Lifting
import QueryShapes.Literal.Basic
import QueryShapes.Materialization
import QueryShapes.MaterializeError
import QueryShapes.Name
import QueryShapes.Number.Double
import QueryShapes.Number.FloatText
import QueryShapes.Number.Shortest
import QueryShapes.Path
import QueryShapes.Proofs.Analysis.Arguments
import QueryShapes.Proofs.Analysis.Steps
import QueryShapes.Proofs.Compilation
import QueryShapes.Proofs.Digest.Injectivity
import QueryShapes.Proofs.Digest.Stream
import QueryShapes.Proofs.Entries
import QueryShapes.Proofs.Except
import QueryShapes.Proofs.Exchange.Binding
import QueryShapes.Proofs.Extraction.Definitions
import QueryShapes.Proofs.Extraction.Inlining
import QueryShapes.Proofs.Flight.Changes
import QueryShapes.Proofs.Fragments.Acyclic
import QueryShapes.Proofs.Fragments.Expansion
import QueryShapes.Proofs.Lifting.Variables
import QueryShapes.Proofs.Selection.Traversal
import QueryShapes.Reachability
import QueryShapes.Schema.Basic
import QueryShapes.Schema.Builder
import QueryShapes.Schema.Coercion
import QueryShapes.Schema.Error
import QueryShapes.Schema.Sdl.Admission
import QueryShapes.Schema.Sdl.Assembly
import QueryShapes.Schema.Sdl.Basic
import QueryShapes.Schema.Sdl.BlockString
import QueryShapes.Schema.Sdl.Constant
import QueryShapes.Schema.Sdl.Definition
import QueryShapes.Schema.Sdl.Dependence
import QueryShapes.Schema.Sdl.Given
import QueryShapes.Schema.Sdl.Reader
import QueryShapes.Schema.Sdl.Token
import QueryShapes.Schema.Sdl.TypeSystem
import QueryShapes.Schema.Sdl.Validation
import QueryShapes.Schema.Subtyping
import QueryShapes.Selection.Basic
import QueryShapes.Selection.Fingerprint
import QueryShapes.Settings
import QueryShapes.Shape.Basic
import QueryShapes.Shape.Key
import QueryShapes.Text.Numeral
import QueryShapes.Text.Quoted
import QueryShapes.Text.Surrogate
import QueryShapes.Proofs.Analysis.Merging
import QueryShapes.Proofs.Document.Merging
import QueryShapes.Proofs.Materialization.Reference
import QueryShapes.Proofs.Materialization.Steps
import QueryShapes.Proofs.Materialization.Completion
import QueryShapes.Proofs.Materialization.Writing
import QueryShapes.Proofs.Materialization.Merged
import QueryShapes.Proofs.Flight.SingleFlight
import QueryShapes.Proofs.Client.Caching
import QueryShapes.Proofs.Flight.Waiting
import QueryShapes.Proofs.Analysis.Typing
import QueryShapes.Proofs.Materialization.Typing
import QueryShapes.Proofs.Materialization.PuttingBack
import QueryShapes.Proofs.Executable.Completeness
import QueryShapes.Proofs.Executable.Scanning
import QueryShapes.Proofs.Executable.Numbers
import QueryShapes.Proofs.Schema.Legality
import QueryShapes.Proofs.Executable.Constants
import QueryShapes.Proofs.Document.Legality
import QueryShapes.Proofs.Document.Resolution
import QueryShapes.Proofs.Executable.RoundTrip
import QueryShapes.Proofs.Analysis.Lists
import QueryShapes.Proofs.Analysis.TypeNames
import QueryShapes.Proofs.Document.Defects
import QueryShapes.Proofs.Materialization.Defects
import QueryShapes.Proofs.Materialization.Unconditional
import QueryShapes.Proofs.Literal.Parts
import QueryShapes.Proofs.Document.Spelling
import QueryShapes.Proofs.Analysis.Pairwise
import QueryShapes.Proofs.Analysis.ResponseShapes
import QueryShapes.Proofs.Extraction.Naming
import QueryShapes.Proofs.Fragments.Order
import QueryShapes.Proofs.Extraction.Closed
import QueryShapes.Proofs.Analysis.Assignment
import QueryShapes.Proofs.Schema.VariableValues
import QueryShapes.Proofs.Schema.ConstantValues
import QueryShapes.Proofs.Executable.Breaks
import QueryShapes.Proofs.Document.Layouts
import QueryShapes.Proofs.Analysis.Errors
import QueryShapes.Proofs.Analysis.Depth
import QueryShapes.Proofs.Materialization.Positions
import QueryShapes.Proofs.Materialization.Blame
import QueryShapes.Proofs.Materialization.KeyOrder
import QueryShapes.Proofs.Materialization.Narrowing
import QueryShapes.Proofs.Materialization.Idempotence
import QueryShapes.Proofs.Reachability
import QueryShapes.Proofs.Schema.Sdl.Assembly
import QueryShapes.Proofs.Schema.Sdl.Dependence
import QueryShapes.Proofs.Schema.Sdl.Interfaces
import QueryShapes.Proofs.Schema.Sdl.Names
import QueryShapes.Proofs.Schema.Sdl.Soundness
import QueryShapes.Proofs.Schema.Sdl.Validation
import QueryShapes.Proofs.Schema.SubtypeSearch
import QueryShapes.Proofs.Schema.Subtyping
import QueryShapes.Proofs.Analysis.Overlap
import QueryShapes.Proofs.Schema.Building
import QueryShapes.Proofs.Text.Numeral
import QueryShapes.Proofs.Path
