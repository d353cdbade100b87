import Kurogane.Raft.DistinctVoters
import Kurogane.Raft.ElectionRule
import Kurogane.Raft.Lockstep
import Kurogane.Sim.FixedMembership
import Kurogane.Sim.ConfigChanges
import Kurogane.Sim.StaleSnapshots
import Kurogane.Runtime.CrashAtomicity
import Kurogane.Runtime.OneVote
import Kurogane.Runtime.JoiningNode
import Kurogane.Sim.SnapshotMembership
import Kurogane.Sim.NoPanic
import Kurogane.Raft.PeerProgress
import Kurogane.Kv.Snapshots
import Kurogane.Verify.Histories
import Kurogane.Sim.LateRejections
import Kurogane.Sim.Learners
import Kurogane.Raft.Compaction
import Kurogane.Raft.Redelivery
import Kurogane.Raft.CatchUp
import Kurogane.Kv.Boundaries
import Kurogane.Runtime.InterruptedFlush
import Kurogane.Sim.Conservation
import Kurogane.Runtime.ClientService
import Kurogane.Runtime.Agreement
import Kurogane.Runtime.PeerCalls
import Kurogane.Runtime.Writes
import Kurogane.Sim.Provenance
import Kurogane.Verify.Agreement
import Kurogane.Verify.Driver
import Kurogane.Verify.Seeds
import Kurogane.Verify.Sessions
