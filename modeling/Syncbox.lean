import Syncbox.App.Directory
import Syncbox.Clock
import Syncbox.Frame
import Syncbox.Fs
import Syncbox.Lib.Base64
import Syncbox.Lib.Check
import Syncbox.Lib.Cursor
import Syncbox.Lib.Encode
import Syncbox.Lib.Process
import Syncbox.Lib.Prog
import Syncbox.Lib.Rust
import Syncbox.Lib.Sort
import Syncbox.Lib.Symbolic
import Syncbox.Lib.Unix.Calls
import Syncbox.Lib.Unix.Calm
import Syncbox.Lib.Unix.Dirs
import Syncbox.Lib.Unix.Disk
import Syncbox.Lib.Unix.Files
import Syncbox.Lib.Unix.Look
import Syncbox.Lib.Unix.Passage
import Syncbox.Lib.Unix.Path
import Syncbox.Lib.Unix.Route
import Syncbox.Lib.Unix.Spec
import Syncbox.Lib.Unix.Walk
import Syncbox.Lib.Utf8
import Syncbox.Manifest.Canonical
import Syncbox.Manifest.Digest
import Syncbox.Manifest.Discover
import Syncbox.Manifest.Hierarchy
import Syncbox.Manifest.History
import Syncbox.Manifest.Laws
import Syncbox.Manifest.Merge
import Syncbox.Manifest.Model
import Syncbox.Manifest.Path
import Syncbox.Manifest.Rescan
import Syncbox.Manifest.Scan
import Syncbox.Manifest.Shortcut
import Syncbox.Manifest.Stamps
import Syncbox.Manifest.Tour
import Syncbox.Network.Apply
import Syncbox.Network.Auth
import Syncbox.Network.AuthModel
import Syncbox.Network.Bracket
import Syncbox.Network.Cache
import Syncbox.Network.Candidate
import Syncbox.Network.Chunk
import Syncbox.Network.Containment
import Syncbox.Network.Converge
import Syncbox.Network.Counter
import Syncbox.Network.Deadlock
import Syncbox.Network.Dominance
import Syncbox.Network.Due
import Syncbox.Network.Exchange
import Syncbox.Network.Feasible
import Syncbox.Network.Fleet
import Syncbox.Network.Gossip
import Syncbox.Network.Install
import Syncbox.Network.Joining
import Syncbox.Network.Local
import Syncbox.Network.LocalSpec
import Syncbox.Network.Merged
import Syncbox.Network.Nested
import Syncbox.Network.Parents
import Syncbox.Network.Partial
import Syncbox.Network.Plan
import Syncbox.Network.Pool
import Syncbox.Network.Realized
import Syncbox.Network.Receive
import Syncbox.Network.Response
import Syncbox.Network.Resume
import Syncbox.Network.Run
import Syncbox.Network.Schedule
import Syncbox.Network.Send
import Syncbox.Network.Sessions
import Syncbox.Network.Settled
import Syncbox.Network.Spared
import Syncbox.Network.State
import Syncbox.Network.Transfer
import Syncbox.Network.Unchanged
import Syncbox.Network.Untouched
import Syncbox.Network.Wire
import Syncbox.Network.Writable
import Syncbox.Peers
import Syncbox.Storage.Atomic
import Syncbox.Storage.Cells
import Syncbox.Storage.State
import Syncbox.Ticket
import Syncbox.Types
