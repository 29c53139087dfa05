import Smysl.Lib.OrdMap
import Smysl.Cbor.Reader
import Smysl.Cbor.Decode
import Smysl.Cbor.RoundTrip
import Smysl.Cbor.PayloadExact
import Smysl.Graph.Survivors
import Smysl.Graph.Log
import Smysl.Graph.BundleClosed
import Smysl.Graph.DeliveryOrder
import Smysl.Graph.Retraction
import Smysl.Graph.OverlayAnswers
import Smysl.Graph.RelinkSettles
import Smysl.Graph.Forks
import Smysl.Graph.Commitments
import Smysl.Graph.Cycles
import Smysl.Core.Clock
import Smysl.Core.Edtf.Canonical
import Smysl.Text.RangeAnswers
import Smysl.Text.Norm
import Smysl.Text.TableExact
import Smysl.Text.MapsInvert
import Smysl.Pack.Least
import Smysl.Pack.Lazy
import Smysl.Surface.OrderFree
import Smysl.Surface.Progress
import Smysl.Graph.HeadsAgree
import Smysl.Query.Supersede
import Smysl.Query.Fanout
import Smysl.Graph.SidecarHolds
import Smysl.Time.Findings
import Smysl.Time.Shortest
import Smysl.Time.Extents
import Smysl.Time.Inert
import Smysl.Time.Successive
import Smysl.Ingest.Ceiling
import Smysl.Thread.Derive
import Smysl.Thread.Coherent
import Smysl.Ingest.JournalSurvives
import Smysl.Ingest.WindowHolds
import Smysl.Query.Orbit
import Smysl.Schema.RoundTrip
import Smysl.Ingest.ChunkHolds
import Smysl.Ingest.MonotoneHolds
import Smysl.Text.PartHolds
import Smysl.Text.StructureHolds
import Smysl.Text.Containment
import Smysl.Surface.UidPrefix
import Smysl.Text.SegmenterHolds
import Smysl.Core.QuoteHolds
import Smysl.Surface.WriteExact
import Smysl.Graph.Proposition
import Smysl.Schema.LensLaws
