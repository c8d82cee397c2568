import SemanticNullability.Directory
import SemanticNullability.Main
import SemanticNullability.TypeExpr.Text
import SemanticNullability.Proofs.Assembly
import SemanticNullability.Proofs.Conversion
import SemanticNullability.Proofs.Depth
import SemanticNullability.Proofs.Nullability
import SemanticNullability.Proofs.Clean
import SemanticNullability.Proofs.Reading
import SemanticNullability.Proofs.DirectiveUse
import SemanticNullability.Proofs.Validation
import SemanticNullability.Proofs.RoundTrip
import SemanticNullability.Proofs.Requirements
import SemanticNullability.Proofs.Response
import SemanticNullability.Proofs.CommandLine.Verdict
import SemanticNullability.Proofs.CommandLine.Split
import SemanticNullability.Proofs.Resolution
import SemanticNullability.Proofs.Supersession
import SemanticNullability.Proofs.Covariance
import SemanticNullability.Proofs.SchemaBlock
import SemanticNullability.Proofs.Unresolved
import SemanticNullability.Proofs.Refusal
import SemanticNullability.Proofs.Representation
import SemanticNullability.Proofs.CommandLine.Rejection
import SemanticNullability.Proofs.DirectiveLevels
import SemanticNullability.Proofs.TypeText
import SemanticNullability.Proofs.Stage
