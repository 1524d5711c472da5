import TeaclaveCrates.Rustls.KeyOrder
import TeaclaveCrates.Tantivy.Broadcast
import TeaclaveCrates.Casbin.FileAdapter
import TeaclaveCrates.Csv.Escaping
import TeaclaveCrates.Csv.RandomAccess
import TeaclaveCrates.Gbdt.Boosting
import TeaclaveCrates.Gbdt.SplitOptimality
import TeaclaveCrates.Gbdt.Xgboost
import TeaclaveCrates.Image.HdrRoundTrip
import TeaclaveCrates.Gbdt.TextInput
import TeaclaveCrates.Csv.ByteRecord
import TeaclaveCrates.Csv.CallSequences
import TeaclaveCrates.Csv.BufferSizes
import TeaclaveCrates.Casbin.ClearPolicy
import TeaclaveCrates.Casbin.FilteredPolicy
import TeaclaveCrates.Casbin.ImplicitRoles
import TeaclaveCrates.Tantivy.BlockedBitpacker
import TeaclaveCrates.Tantivy.BitSetRefinement
import TeaclaveCrates.Tantivy.RangeQuery
import TeaclaveCrates.Tantivy.Phrases
import TeaclaveCrates.Tantivy.TermHashMapRefinement
import TeaclaveCrates.Tantivy.IndexedTerms
import TeaclaveCrates.Tantivy.RecorderReplay
import TeaclaveCrates.Tantivy.PositionsRandomAccess
import TeaclaveCrates.Tantivy.TermInfoStoreRoundTrip
import TeaclaveCrates.Tantivy.SSTableUnion
import TeaclaveCrates.Tantivy.TopCollector
import TeaclaveCrates.Tantivy.Facet
import TeaclaveCrates.Tantivy.IpRangeDocSet
import TeaclaveCrates.Rustls.ByteQueue
import TeaclaveCrates.Rustls.SequenceNumbers
import TeaclaveCrates.Rustls.Binder
import TeaclaveCrates.Rustls.QuicPush
import TeaclaveCrates.Rustls.Flight
import TeaclaveCrates.Rustls.ConnectionCore
import TeaclaveCrates.Rustls.LimitedCache
import TeaclaveCrates.Rustls.TicketThreads
import TeaclaveCrates.Rustls.TicketAge
import TeaclaveCrates.Tonic.EncodeFailures
import TeaclaveCrates.Tonic.TruncatedStreams
import TeaclaveCrates.TonicWeb.Call
import TeaclaveCrates.Rayon.MergeRuns
import TeaclaveCrates.Rayon.Bridge
import TeaclaveCrates.Tonic.GrpcTimeout
import TeaclaveCrates.Rand.Seq
import TeaclaveCrates.Rand.Block
import TeaclaveCrates.Rand.WeightedIndex
