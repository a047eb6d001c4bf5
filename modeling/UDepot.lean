import UDepot.Lib.Hopscotch
import UDepot.Lib.Newest
import UDepot.Lib.Outcome
import UDepot.HashTable
import UDepot.HashTable.Packed
import UDepot.Directory
import UDepot.Probe
import UDepot.HashTable.Calls
import UDepot.Directory.Grows
import UDepot.Record
import UDepot.Recovery
import UDepot.Lib.Transition
import UDepot.Open.Geometry
import UDepot.Store.State
import UDepot.Recovery.Correctness
import UDepot.Store.Core
import UDepot.Store.Step
import UDepot.Store.Invariant
import UDepot.Store.Frame
import UDepot.Store.Segments
import UDepot.Store.Ranges
import UDepot.Store.Entries
import UDepot.Store.Operation
import UDepot.Store.OpSteps
import UDepot.Store.Commit
import UDepot.Store.Collector
import UDepot.Store.Reachable
import UDepot.Store.Opened
import UDepot.Store.KvMap
import UDepot.Store.Linear
import UDepot.Store.Sections
import UDepot.Store.Accounting
import UDepot.Store.Collected
import UDepot.Lib.Interaction
import UDepot.Memcache.Protocol
import UDepot.Memcache.Handlers
import UDepot.Memcache.RecvBuffer
import UDepot.Memcache.Connection
import UDepot.Memcache.Lines
import UDepot.Memcache.Commands
import UDepot.Memcache.Clients
import UDepot.Memcache.ItemRules
import UDepot.Rcu
import UDepot.HashTable.Stores
import UDepot.HashTable.Scan
import UDepot.Directory.Writers
import UDepot.Directory.Growing
import UDepot.HashTable.Keys
import UDepot.Directory.Gets
import UDepot.Directory.Changes
import UDepot.HashTable.Locks
import UDepot.Memcache.Items
import UDepot.Store.Inside
import UDepot.Store.Reopened
import UDepot.Store.Restored
import UDepot.Store.Device
import UDepot.Store.Order
import UDepot.Store.Tombstones
import UDepot.Store.Packing
import UDepot.Store.Reads
import UDepot.Open.SegmentSize
import UDepot.Open.SafeSizes
import UDepot.Record.Format
import UDepot.Index.Layout
import UDepot.Index.Flush
import UDepot.Index.Restore
import UDepot.Index.Footers
import UDepot.Index.Counts
import UDepot.Index.RoundTrip
import UDepot.Checksum
import UDepot.Index.TableSize
import UDepot.Rcu.Callbacks
import UDepot.Directory.Sources
import UDepot.Probe.Passes
import UDepot.Store.Staged
import UDepot.Store.Rewrites
import UDepot.Store.Advance
import UDepot.Store.Alone
import UDepot.Directory.GetSteps
import UDepot.Lib.Custody
import UDepot.Salsa.State
import UDepot.Salsa.Invariant
import UDepot.Salsa.Steps
import UDepot.Salsa.Runs
import UDepot.Salsa.Safety
import UDepot.Salsa.Collect
import UDepot.Salsa.Moves
import UDepot.Salsa.View
import UDepot.Salsa.Store
import UDepot.Io.Transfer
import UDepot.Lib.Completion
import UDepot.Io.Uring
