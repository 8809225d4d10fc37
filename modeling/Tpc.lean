import Tpc.System
import Tpc.Keys
import Tpc.Segments
import Tpc.Access
import Tpc.Runs
import Tpc.Chains
import Tpc.Handlers
import Tpc.Frames
import Tpc.Steps
import Tpc.AnyClients
import Tpc.Sessions
import Tpc.Refinement
import Tpc.Commitment
import Tpc.Answers
import Tpc.Waits
import Tpc.Locking
import Tpc.Dated
import Tpc.OwnWrites
import Tpc.Unplanned
import Tpc.Ordering
import Tpc.Replay
import Tpc.Atomicity
import Tpc.Reads
import Tpc.Routing
import Tpc.Snapshots
import Tpc.Isolation
import Tpc.Updates
import Tpc.Pool
import Tpc.Slots
import Tpc.Requests
import Tpc.Alignment
import Tpc.FailedCommits
import Tpc.Rollback
import Tpc.StartUp
import Tpc.Timestamps
import Tpc.KeySpace
import Tpc.ReadWholeFile
import Tpc.Network
import Tpc.Msg
import Tpc.Client
import Tpc.Deployment
import Tpc.Deciding
import Tpc.Holders
import Tpc.Connection
import Tpc.Routines
import Tpc.Deadlock
