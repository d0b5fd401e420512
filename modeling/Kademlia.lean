import Kademlia.Bytes
import Kademlia.Nearest
import Kademlia.BoundedVec
import Kademlia.CloseNodes
import Kademlia.StaticBucket
import Kademlia.SiblingList
import Kademlia.Table
import Kademlia.Cache
import Kademlia.Codec
import Kademlia.HashChain
import Kademlia.Package
import Kademlia.VersionChain
import Kademlia.Store
import Kademlia.Replica
import Kademlia.Rpc
import Kademlia.Maintenance
import Kademlia.Lookup
import Kademlia.ValueLookup
import Kademlia.StorageTargets
import Kademlia.ValueReplies
import Kademlia.Ledger
import Kademlia.Republish
import Kademlia.Framing
import Kademlia.Oneshot
import Kademlia.Pending
import Kademlia.Transport
import Kademlia.HandleRpc
import Kademlia.Acceptance
import Kademlia.Install
import Kademlia.Publication
import Kademlia.Publishers
import Kademlia.Publishing
import Kademlia.Text
import Kademlia.Bootstrap
import Kademlia.Identifier
import Kademlia.CacheRuns
import Kademlia.Wire
import Kademlia.Converged
import Kademlia.Cluster
import Kademlia.ClusterLookup
import Kademlia.ClusterValues
import Kademlia.Registry
import Kademlia.Session
import Kademlia.Joining
