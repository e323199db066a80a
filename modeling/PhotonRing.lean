import PhotonRing.Lib.Run
import PhotonRing.Lib.Lap
import PhotonRing.Lib.Seqlock
import PhotonRing.Lib.Tiles
import PhotonRing.Lib.Mutex
import PhotonRing.Lib.Gate
import PhotonRing.Lib.Solo
import PhotonRing.Lib.Layout
import PhotonRing.Lib.Ranked
import PhotonRing.Lib.IntCast
import PhotonRing.Lib.Record
import PhotonRing.Lib.Progress
import PhotonRing.Lib.Temporal
import PhotonRing.Lib.Simulation
import PhotonRing.Lib.CatchUp
import PhotonRing.RingIndex
import PhotonRing.Slot
import PhotonRing.Payload
import PhotonRing.Ring
import PhotonRing.Backpressure
import PhotonRing.HasRoom
import PhotonRing.Channel.Publisher
import PhotonRing.Channel.MpPublisher
import PhotonRing.Channel.Subscriber
import PhotonRing.Channel.World
import PhotonRing.Channel.SpWriter
import PhotonRing.Channel.MpWriter
import PhotonRing.Channel.MpCursor
import PhotonRing.Channel.WriteSide
import PhotonRing.Channel.MpProgress
import PhotonRing.Channel.MpFair
import PhotonRing.Channel.Reader
import PhotonRing.Channel.ReadSide
import PhotonRing.Channel.WaitFree
import PhotonRing.Channel.ConsumerStop
import PhotonRing.Channel.Delivery
import PhotonRing.Channel.Backpressure
import PhotonRing.Channel.Handover
import PhotonRing.Channel.Bounded
import PhotonRing.Channel.LogSpec
import PhotonRing.Channel.Solo
import PhotonRing.Channel.Unattended
import PhotonRing.Channel.Refinement
import PhotonRing.Channel.Drain
import PhotonRing.Channel.Lossy
import PhotonRing.Channel.Replay
import PhotonRing.Channel.Stream
import PhotonRing.Channel.EndOfBatch
import PhotonRing.Channel.Tracked
import PhotonRing.Channel.Barrier
import PhotonRing.Channel.Position
import PhotonRing.Channel.Latest
import PhotonRing.Channel.RecvBatch
import PhotonRing.Channel.Blocking
import PhotonRing.Channel.Exact
import PhotonRing.Channel.Future
import PhotonRing.Channel.KeepUp
import PhotonRing.Channel.Attended
import PhotonRing.Topology.Stage
import PhotonRing.Topology.Pipeline
import PhotonRing.Topology.Lifecycle
import PhotonRing.Topology.FanOut
import PhotonRing.Event.Ring
import PhotonRing.Event.Backpressure
import PhotonRing.Event.Exclusive
import PhotonRing.Event.Attended
import PhotonRing.Arithmetic
import PhotonRing.TypedBus
import PhotonRing.AsyncSubscriber
import PhotonRing.Derive.Message
import PhotonRing.Derive.Padding
import PhotonRing.Derive.RoundTrip
import PhotonRing.Derive.Pod
import PhotonRing.Mem
import PhotonRing.Wait
import PhotonRing.Verification.Seqlock
import PhotonRing.Verification.Liveness
import PhotonRing.Verification.Refinement
