import R2.Outcome
import R2.Base.SortedMap
import R2.Base.Bytes
import R2.Base.Queues
import R2.Base.TwoPiece
import R2.Packet.Flat
import R2.Eth.Resolution
import R2.Eth.Recycled
import R2.Base.TwoCopy
import R2.Counters.View
import R2.Hfsc.Class
import R2.Hfsc.Runs
import R2.Hfsc.Conservation
import R2.Hfsc.Bookkeeping
import R2.Hfsc.RealTime
import R2.Hfsc.Fairness
import R2.Hfsc.Starvation
import R2.Hfsc.Minimum
import R2.Hfsc.Horizon
import R2.Hfsc.Inversion
import R2.Fwd.Prefixes
import R2.Control.Restore
import R2.Dpdk.DataRoom
import R2.Hfsc.Ranged
import R2.Hfsc.Walks
import R2.Hfsc.Unwrap
import R2.Hfsc.Halved
import R2.Hfsc.OneOffset
import R2.Hfsc.Urgent
import R2.Route.Linear
import R2.Graph.Edges
import R2.Threads.HandOff
import R2.Boxed.Conserved
import R2.Log.Show
import R2.Control.Connected
import R2.Control.Routable
import R2.Path.Survives
import R2.Packet.Headers
import R2.Graph.Run
import R2.Graph.Bounded
import R2.Counters.Zeroed
import R2.Dpdk.Owned
import R2.Base.Json
import R2.Path.Hops
import R2.Base.Replicas
import R2.Fleet.Neighbours
import R2.Fleet.Transmit
import R2.Fleet.Mortal
