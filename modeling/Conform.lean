import Conform.Http.Client
import Conform.Json.Writer
import Conform.Patch.Build
import Conform.Proofs.Extraction.Comment
import Conform.Proofs.Extraction.Family
import Conform.Proofs.Extraction.LineEnding
import Conform.Proofs.Extraction.Replacement
import Conform.Proofs.Extraction.Retention
import Conform.Proofs.Http.Answer
import Conform.Proofs.Patch.Address
import Conform.Proofs.Patch.Order
import Conform.Proofs.Patch.Precedence
import Conform.Proofs.Patch.Progress
import Conform.Proofs.Rendering.Extraction
import Conform.Proofs.Service.Independence
import Conform.Proofs.Service.Repetition
import Conform.Proofs.Source.Content
import Conform.Proofs.Summary.Marker
import Conform.Service.Store
import Conform.Proofs.Extraction.Interior
import Conform.Proofs.Extraction.Layout
import Conform.Proofs.Extraction.Bounds
import Conform.Proofs.Extraction.RecordName
import Conform.Proofs.Extraction.Documentation
