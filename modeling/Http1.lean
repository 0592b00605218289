import Http1.Bytes
import Http1.Error
import Http1.Text.Utf8
import Http1.Chunked.Decoder
import Http1.Timeout
import Http1.Config
import Http1.Framing
import Http1.Framing.Decision
import Http1.MediaType
import Http1.Body.Decoder
import Http1.Body.Encoder
import Http1.Body.Segments
import Http1.Endpoint
import Http1.Inlet
import Http1.Inlet.Search
import Http1.Inlet.InPlace
import Http1.Outlet
import Http1.Body.Reader
import Http1.Body.Writer
import Http1.Body.Entity
import Http1.Connection
import Http1.Connection.Record
import Http1.Proofs.Scan
import Http1.Proofs.Cuts
import Http1.Proofs.Marks
import Http1.Proofs.Grammar
import Http1.Proofs.Acceptance
import Http1.Proofs.TrailerSection
import Http1.Proofs.Steady
import Http1.Proofs.Drain
import Http1.Proofs.SteadyBody
import Http1.Proofs.CutOff
import Http1.Proofs.Refusal
import Http1.Proofs.Pipeline
import Http1.Proofs.Probing
import Http1.Proofs.Written
import Http1.Proofs.TrailerLines
import Http1.Proofs.Resending
import Http1.Proofs.Willing
import Http1.Proofs.Sending
import Http1.Proofs.RoundTrip
import Http1.Proofs.Acknowledged
import Http1.Proofs.Halves
import Http1.Proofs.Lifecycle
import Http1.Proofs.Record
import Http1.Proofs.Retrying
import Http1.Proofs.Closing
import Http1.Proofs.Sides
import Http1.Proofs.Timeouts
import Http1.Proofs.Capacity
import Http1.Proofs.Uptake
import Http1.Proofs.HeadSearch
import Http1.Proofs.Standing
import Http1.Proofs.NeededReads
import Http1.Proofs.FramingRules
import Http1.Proofs.Fragments
import Http1.Proofs.AfterEnd
import Http1.Proofs.LineLimit
import Http1.Proofs.SentTrailers
import Http1.Proofs.Liveness
import Http1.Proofs.Handout
import Http1.Proofs.DeclaredLength
import Http1.Proofs.TrailerBounds
import Http1.Proofs.TrailerRoom
import Http1.Proofs.Coalescing
import Http1.Proofs.Queue
import Http1.Proofs.Rounding
