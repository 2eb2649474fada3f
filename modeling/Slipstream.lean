import Slipstream.Chain.Basic
import Slipstream.Machine.Basic
import Slipstream.Fetch.Delivered
import Slipstream.Fetch.Retries
import Slipstream.Fetch.Heights
import Slipstream.Graft.Contract
import Slipstream.Graft.Rescans
import Slipstream.Graft.Stranded
import Slipstream.Graft.Table
import Slipstream.Engine.Lemmas.Failover
import Slipstream.Scan.Aligned
import Slipstream.Scan.SubBatches
import Slipstream.Scan.Fence
import Slipstream.Persist.Positions
import Slipstream.Persist.Anchors
import Slipstream.Persist.Retained
import Slipstream.Persist.Rewind
import Slipstream.Persist.Grafts
import Slipstream.Persist.Flush
import Slipstream.Persist.Notes
import Slipstream.Persist.Coverage
import Slipstream.Persist.Adjoin
import Slipstream.Persist.Footprint
import Slipstream.Persist.Lane
import Slipstream.Persist.Sweep
import Slipstream.Persist.Downgrade
import Slipstream.Handle.Ring
import Slipstream.Handle.Stops
import Slipstream.Progress.Downloads
import Slipstream.Progress.Floor
import Slipstream.Session.Lifecycle
import Slipstream.Sinsemilla.Curve
import Slipstream.LookupBuild.Scalar
import Slipstream.Gpuhash.Field
import Slipstream.Gpuhash.Group
import Slipstream.Gpuhash.Dispatch
import Slipstream.WriteBehind.Stop
import Slipstream.WriteBehind.Views
import Slipstream.Oracle.Diff
import Slipstream.Reconcile.TxSet
import Slipstream.Reconcile.Balance
import Slipstream.Reconcile.Finality
import Slipstream.Scheduler.Coverage
import Slipstream.Scheduler.Ends
import Slipstream.Scheduler.Enhance
import Slipstream.Session.Mempool
