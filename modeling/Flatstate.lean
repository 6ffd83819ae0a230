import Flatstate.Foundation.Versioned
import Flatstate.Store.Build
import Flatstate.Exec.Execute
import Flatstate.Exec.Split
import Flatstate.Exec.Tries
import Flatstate.Engine.Stamps
import Flatstate.Engine.Progress
import Flatstate.Node.Copies
import Flatstate.Node.Crash
import Flatstate.Node.Order
import Flatstate.Consensus.Parents
import Flatstate.Consensus.Gap
import Flatstate.Consensus.Sessions
import Flatstate.Consensus.Head
import Flatstate.Consensus.Votes
import Flatstate.Reader.Restart
import Flatstate.Tipbus.Aborts
import Flatstate.Replay.Session
import Flatstate.Store.Bulk
import Flatstate.Store.Snapshots
import Flatstate.Node.Reject
import Flatstate.Node.Baseline
import Flatstate.Exec.TipCode
import Flatstate.Sim.Batches
import Flatstate.Suitecache.Runs
import Flatstate.Suitecache.File
import Flatstate.Sync.Giants
import Flatstate.Sync.Protocol
import Flatstate.Sync.Ranges
import Flatstate.Consensus.Halt
import Flatstate.Sync.NetClient
import Flatstate.Sync.Serve
