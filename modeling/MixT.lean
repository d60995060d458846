import MixT.Tracking.Obligations
import MixT.Tracking.CrossClient
import MixT.Inference.Accepted
import MixT.Split.Placement
import MixT.Split.Removal
import MixT.Phase.Objects
import MixT.Split.Refreshing
import MixT.Split.Coherence
import MixT.Inference.Comparator
import MixT.Pgsql.ObjectCache
import MixT.Compile.InsertTracking
import MixT.Phase.Retry
import MixT.Parsing.RoundTrip
import MixT.Parsing.Allocator
import MixT.TestingStore.Separation
import MixT.Inference.Resolution
import MixT.Tracking.MustTrack
import MixT.Tracking.FindTombstones
import MixT.Tracking.ServerSession
import MixT.Pgsql.ObjectBuffer
import MixT.Serialization.Arrival
import MixT.Flatten.UniqueNames
import MixT.Inference.Strongest
import MixT.Endorse.Exact
import MixT.Split.Effects
import MixT.Split.Transactions
import MixT.Flatten.Loops
