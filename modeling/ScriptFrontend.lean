import ScriptFrontend.CommandLine
import ScriptFrontend.Main
import ScriptFrontend.Proofs.Lexeme
import ScriptFrontend.Proofs.Reach
import ScriptFrontend.Proofs.Relabel
import ScriptFrontend.Proofs.Tracking
import ScriptFrontend.Proofs.Locality
import ScriptFrontend.Proofs.Precedence
import ScriptFrontend.Proofs.Spelling
import ScriptFrontend.Proofs.Meets
import ScriptFrontend.Proofs.Soundness.Expression
import ScriptFrontend.Proofs.Soundness.Statement
import ScriptFrontend.Proofs.Yields
import ScriptFrontend.Proofs.Completeness.Expression
import ScriptFrontend.Proofs.Completeness.Statement
import ScriptFrontend.Proofs.Unplaced
import ScriptFrontend.Proofs.Acceptance
import ScriptFrontend.Proofs.EarliestError
import ScriptFrontend.Proofs.FirstRule
import ScriptFrontend.Proofs.Lexes
import ScriptFrontend.Proofs.Proper
import ScriptFrontend.Proofs.Writes
import ScriptFrontend.Proofs.Rendering.Expression
import ScriptFrontend.Proofs.Rendering.Statement
import ScriptFrontend.Proofs.RoundTrip
import ScriptFrontend.Proofs.Analysis
import ScriptFrontend.Proofs.Phases
import ScriptFrontend.Proofs.FixedPoint
import ScriptFrontend.Proofs.Frames
import ScriptFrontend.Proofs.WellScoped
import ScriptFrontend.Proofs.Place
import ScriptFrontend.Proofs.Shape
import ScriptFrontend.Proofs.Scanning
import ScriptFrontend.Proofs.Lossless
import ScriptFrontend.Proofs.Lines
import ScriptFrontend.Proofs.ErrorPlaces
import ScriptFrontend.Proofs.Reports
import ScriptFrontend.Proofs.Renaming
import ScriptFrontend.Proofs.Noninterference
import ScriptFrontend.Proofs.Extent
import ScriptFrontend.Proofs.Gathers
import ScriptFrontend.Proofs.Extents.Expression
import ScriptFrontend.Proofs.Extents.Statement
import ScriptFrontend.Proofs.Spans
import ScriptFrontend.Proofs.Slices
import ScriptFrontend.Proofs.Junction
import ScriptFrontend.Proofs.OperatorChain
import ScriptFrontend.Proofs.TextLiteral
import ScriptFrontend.Proofs.Moves
import ScriptFrontend.Proofs.Progress
import ScriptFrontend.Proofs.Unrolling
import ScriptFrontend.Proofs.Termination
import ScriptFrontend.Proofs.Concatenation
import ScriptFrontend.Proofs.LongestMatch
import ScriptFrontend.Proofs.WrittenTokens
import ScriptFrontend.Proofs.Injection
import ScriptFrontend.Proofs.LineBytes
import ScriptFrontend.Proofs.Observation
import ScriptFrontend.Proofs.Blames
import ScriptFrontend.Proofs.Dispatch
import ScriptFrontend.Proofs.Outline
import ScriptFrontend.Proofs.Formatting
import ScriptFrontend.Proofs.CanonicalLayout
import ScriptFrontend.Proofs.Parameters
import ScriptFrontend.Proofs.Segments
import ScriptFrontend.Proofs.ScopeRenaming
import ScriptFrontend.Proofs.MemberChains
import ScriptFrontend.Proofs.Pulling
import ScriptFrontend.Proofs.Advancing
import ScriptFrontend.Proofs.Numerals
import ScriptFrontend.Proofs.Jumps
import ScriptFrontend.Proofs.Settles
import ScriptFrontend.Proofs.LoopDepth
