import OrderedStore.Backend
import OrderedStore.Backing
import OrderedStore.Bytes
import OrderedStore.Entries
import OrderedStore.Fault
import OrderedStore.Merge
import OrderedStore.Proofs.Action
import OrderedStore.Proofs.Batch.Calls
import OrderedStore.Proofs.Batch.Commit
import OrderedStore.Proofs.Batch.Held
import OrderedStore.Proofs.Batch.Sequence
import OrderedStore.Proofs.Counter.Chain
import OrderedStore.Proofs.Counter.Codec
import OrderedStore.Proofs.Counter.Tally
import OrderedStore.Proofs.Footprint
import OrderedStore.Proofs.Journal
import OrderedStore.Proofs.Message
import OrderedStore.Proofs.RangeCursor
import OrderedStore.Proofs.Scan.Alike
import OrderedStore.Proofs.Scan.Drain
import OrderedStore.Proofs.Scan.Listing
import OrderedStore.Proofs.Scan.Placement
import OrderedStore.Proofs.Scan.Session
import OrderedStore.Proofs.Scan.Start
import OrderedStore.Proofs.Scan.Sweep
import OrderedStore.Proofs.Settings
import OrderedStore.Proofs.Writers
import OrderedStore.Scan
import OrderedStore.SearchTree
import OrderedStore.Settings
import OrderedStore.SortedMap
import OrderedStore.Store
import OrderedStore.WriteBatch
