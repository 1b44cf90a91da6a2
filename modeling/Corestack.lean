import Corestack.Chord.Fingers
import Corestack.Chord.Successor
import Corestack.Plant.Register
import Corestack.Plant.Watering
import Corestack.Raft.Ballot
import Corestack.Raft.Commit
import Corestack.Raft.Convergence
import Corestack.Raft.Torn
import Corestack.Raft.Numbering
import Corestack.Raft.Requests
import Corestack.Raft.Terms
import Corestack.Raft.Tracking
import Corestack.Tetrissh.Framing
import Corestack.Tetrissh.Session
import Corestack.Tetrissh.Transfer
import Corestack.Plant.Daemons
import Corestack.Ring.Buffer
import Corestack.Shell.History
import Corestack.Plant.Graveyard
import Corestack.Plant.Kill
import Corestack.Assoc
import Corestack.Shell.Alias
import Corestack.Shell.Definitions
import Corestack.Shell.MainLoop
import Corestack.Memory
import Corestack.Shell.LineEditor
import Corestack.Text.Zipper
import Corestack.Shell.Editing
import Corestack.Shell.Sessions
import Corestack.Plant.Deaths
import Corestack.Repeats
import Corestack.Shell.Matching
import Corestack.Shell.Settings
import Corestack.Raft.Progress
import Corestack.Raft.Following
import Corestack.Raft.Delivering
import Corestack.Plant.Check
import Corestack.Forest
import Corestack.Tools.Listing
