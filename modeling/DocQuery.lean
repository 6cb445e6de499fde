import DocQuery.Aggregation.Stage
import DocQuery.Aggregation.Unfolding
import DocQuery.Filter.Unfolding
import DocQuery.Inclusion
import DocQuery.Options.Reader
import DocQuery.Proofs.Filter.Meaning
import DocQuery.Proofs.Filter.Plain
import DocQuery.Proofs.Keys
import DocQuery.Proofs.Filter.Built
import DocQuery.Proofs.Filter.Emitted
import DocQuery.Proofs.Filter.Connectives
import DocQuery.Proofs.Scope.Position
import DocQuery.Proofs.Scope.Filter
import DocQuery.Proofs.Scope.Operand
import DocQuery.Proofs.Scope.Rejection
import DocQuery.Proofs.Dotted
import DocQuery.Proofs.Filter.Server
import DocQuery.Proofs.Filter.Quantified
import DocQuery.Proofs.Filter.Relocation
import DocQuery.Proofs.Filter.Collapse
import DocQuery.Proofs.Inclusion
import DocQuery.Proofs.Aggregation.Evaluation
import DocQuery.Proofs.Chain
import DocQuery.Proofs.Filter.Comparison
import DocQuery.Proofs.Filter.Literal
import DocQuery.Proofs.Aggregation.Binary
import DocQuery.Proofs.Aggregation.Stage
import DocQuery.Proofs.Aggregation.Scalar
import DocQuery.Proofs.Agreement
import DocQuery.Proofs.Aggregation.Binders
import DocQuery.Proofs.Aggregation.Parts
import DocQuery.Proofs.Aggregation.Constant
import DocQuery.Proofs.Aggregation.Capture
import DocQuery.Proofs.Resolution
import DocQuery.Proofs.Aggregation.Group
import DocQuery.Proofs.StoredLiteral
import DocQuery.Proofs.Filter.TextMatch
import DocQuery.Proofs.Pattern.Regex
import DocQuery.Proofs.Pattern.Notation
import DocQuery.Proofs.Pattern.Escaping
import DocQuery.Proofs.Pattern.Position
import DocQuery.Proofs.Scope.Stored
import DocQuery.Proofs.Filter.TrimmedMatch
import DocQuery.Proofs.Filter.Answer
import DocQuery.Proofs.Filter.TextLength
import DocQuery.Proofs.Filter.ArrayLength
import DocQuery.Proofs.Filter.MaskedBits
import DocQuery.Proofs.Filter.TextPosition
import DocQuery.Proofs.Filter.WellFormed
import DocQuery.Proofs.Aggregation.StringUnit
import DocQuery.Proofs.Aggregation.CodePoints
import DocQuery.Proofs.Spelling
import DocQuery.Proofs.Filter.Spelling
import DocQuery.Proofs.Filter.RespelledTest
import DocQuery.Proofs.Filter.Duality
import DocQuery.Proofs.Filter.Injected
import DocQuery.Proofs.Filter.KnownList
import DocQuery.Proofs.Aggregation.Arrays
import DocQuery.Proofs.Aggregation.ElementMembers
import DocQuery.Proofs.Hierarchy
import DocQuery.Proofs.IntegerLiteral
import DocQuery.Proofs.MinimalPaths
import DocQuery.Proofs.Aggregation.Fold
