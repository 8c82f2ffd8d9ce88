import GossipMemberlist.Coherence
import GossipMemberlist.Rumours
import GossipMemberlist.Episodes
import GossipMemberlist.Beliefs
import GossipMemberlist.Accounting
import GossipMemberlist.Notification
import GossipMemberlist.Reachability
import GossipMemberlist.Backpressure
import GossipMemberlist.IndirectProbe
import GossipMemberlist.ProbePipes
import GossipMemberlist.Hangs
import GossipMemberlist.Redelivery
import GossipMemberlist.MergeCalls
import GossipMemberlist.Stamps
import GossipMemberlist.Departure
import GossipMemberlist.ProbeRounds
import GossipMemberlist.NackRelay
import GossipMemberlist.Countdown
import GossipMemberlist.Datagrams
import GossipMemberlist.Fallback
import GossipMemberlist.ProbeCalls
import GossipMemberlist.SeqNumbers
import GossipMemberlist.Resolve
import GossipMemberlist.RandomNodes
import GossipMemberlist.Mirror
import GossipMemberlist.OnceTimer
import GossipMemberlist.Arming
import GossipMemberlist.Silence
import GossipMemberlist.Exchange
import GossipMemberlist.Refutation
import GossipMemberlist.Integrity
import GossipMemberlist.WireBeliefs
import GossipMemberlist.Convergence
import GossipMemberlist.Schedule
import GossipMemberlist.Shutdown
import GossipMemberlist.Drain
import GossipMemberlist.ProbeAnswers
import GossipMemberlist.Detection
