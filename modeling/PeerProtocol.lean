import PeerProtocol.Lib.Buffer
import PeerProtocol.Lib.Run
import PeerProtocol.Lib.Lists
import PeerProtocol.Lib.GapLog
import PeerProtocol.Lib.Broadcast
import PeerProtocol.Lib.Greedy
import PeerProtocol.Lib.Intern
import PeerProtocol.Lib.Flags
import PeerProtocol.Model.Options
import PeerProtocol.Model.Serial
import PeerProtocol.Model.Packet
import PeerProtocol.Model.Peer
import PeerProtocol.Model.Tick
import PeerProtocol.Model.World
import PeerProtocol.Model.Pool
import PeerProtocol.Wire.Codec
import PeerProtocol.Wire.RoundTrip
import PeerProtocol.Wire.Packing
import PeerProtocol.Wire.Optimal
import PeerProtocol.Wire.Framing
import PeerProtocol.Wire.Unpacking
import PeerProtocol.Wire.Repacking
import PeerProtocol.Wire.Asserts
import PeerProtocol.Wire.Appending
import PeerProtocol.Wire.Posting
import PeerProtocol.Peer.Queue
import PeerProtocol.Peer.Input
import PeerProtocol.Peer.Trail
import PeerProtocol.Peer.Resend
import PeerProtocol.Peer.HostTick
import PeerProtocol.Peer.ClientTick
import PeerProtocol.Peer.Cursor
import PeerProtocol.Peer.Clocks
import PeerProtocol.Peer.Transmit
import PeerProtocol.Peer.Host
import PeerProtocol.Peer.Actors
import PeerProtocol.Peer.Emission
import PeerProtocol.Peer.Resolved
import PeerProtocol.Peer.Bound
import PeerProtocol.Peer.HostSession
import PeerProtocol.Peer.Merge
import PeerProtocol.Peer.Log
import PeerProtocol.Peer.Heartbeat
import PeerProtocol.Peer.Learn
import PeerProtocol.Peer.CatchUp
import PeerProtocol.Peer.Delivery
import PeerProtocol.Peer.Order
import PeerProtocol.Peer.OneSlot
import PeerProtocol.Peer.Indices
import PeerProtocol.Peer.Overrun
import PeerProtocol.Peer.ClientOrder
import PeerProtocol.Peer.Responses
import PeerProtocol.Peer.Handshake
import PeerProtocol.Peer.Uplink
import PeerProtocol.Peer.Arrival
import PeerProtocol.Peer.Posted
import PeerProtocol.World.Session
import PeerProtocol.World.Agreement
import PeerProtocol.World.Times
import PeerProtocol.World.Uplink
import PeerProtocol.World.Lossless
import PeerProtocol.World.Broadcast
import PeerProtocol.World.Authentic
import PeerProtocol.World.Progress
import PeerProtocol.World.Downlink
import PeerProtocol.Pool.Endpoints
import PeerProtocol.Pool.SessionAddress
import PeerProtocol.Pool.Addresses
import PeerProtocol.Pool.Opening
import PeerProtocol.Pool.Sharing
import PeerProtocol.Peer.MergeFailures
import PeerProtocol.Peer.Provenance
import PeerProtocol.World.Identity
import PeerProtocol.Pool.Routing
import PeerProtocol.Peer.Errors
import PeerProtocol.Peer.TickErrors
import PeerProtocol.Pool.Errors
import PeerProtocol.Peer.Faults
import PeerProtocol.Pool.Descriptors
import PeerProtocol.World.Exchange
import PeerProtocol.Pool.Deployment
import PeerProtocol.Pool.Speakers
import PeerProtocol.Pool.Faults
