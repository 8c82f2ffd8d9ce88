import GossipMemberlist.Library.Network
import GossipMemberlist.LocalRecord

/-!
# A cluster

Any number of members with distinct names, each running this code from its start,
on a network that loses, repeats, delays and reorders what it likes. A member acts
on a message from outside only if some member has sent it.
-/

namespace GossipMemberlist

structure Roster (ι : Type*) where
  config : ι → Config
  floats : Floats
  leaveFd : ι → ℤ
  env : ι → Env
  distinct : ∀ {i j}, (config i).name = (config j).name → i = j

def Packet.brings (state : PushNodeState) : Packet → Bool
  | .pushPull pp => state ∈ pp.states
  | .broadcast _ => false

/-- Whether the message that a step acts on is in flight. `packetHandler` goes by the
type of a broadcast and passes no descriptor to notify. -/
def Op.arrives (sent : List Packet) : Op → Bool
  | .alive b notifyFd _ => .broadcast b ∈ sent ∧ b.type = .aliveMsg ∧ notifyFd = -1
  | .suspect b _ => .broadcast b ∈ sent ∧ b.type = .suspectMsg
  | .dead b _ => .broadcast b ∈ sent ∧ b.type = .deadMsg
  | .merge state _ => sent.any (Packet.brings state)
  | _ => true

abbrev Cluster (ι : Type*) := Network.State ι Process Packet

namespace Roster

variable {ι : Type*} [DecidableEq ι] (R : Roster ι)

/-- Packets arrive whole or not at all. Members that exchange bytes, as in `Roster.wire`, do
nothing else as long as no read is refused. -/
def network : Network ι Process Op Packet where
  step i p op := p.step (R.config i) R.floats op
  delivers sent op := op.arrives sent = true
  decidable _ _ := inferInstance

def start : Cluster ι where
  node i := Process.start (R.config i) (R.leaveFd i) (R.env i)
  sent := []

def run (evs : List (ι × Op)) : Cluster ι := R.network.run R.start evs

/-- Every member of a cluster runs on its own, so what holds of one member holds here. -/
theorem run_node (evs : List (ι × Op)) (i : ι) : ∃ ops, (R.run evs).node i =
    Process.run (R.config i) R.floats (R.leaveFd i) (R.env i) ops :=
  Network.node_run (N := R.network) R.start evs i

def name (i : ι) : String := (R.config i).name

def own (c : Cluster ι) (i : ι) : Option NodeState := (c.node i).member.find (R.name i)

def total (c : Cluster ι) (i : ι) : ℕ := (c.node i).member.incarnation.total

def NoWrap (c : Cluster ι) : Prop := ∀ i, total c i < 2 ^ 32

theorem total_act (evs : List (ι × Op)) (i j : ι) (op : Op) :
    total (R.run evs) j ≤ total (R.network.act (R.run evs) i op) j := by
  by_cases hj : j = i
  · subst hj
    obtain ⟨ops,hrun⟩ := R.run_node evs j
    have hsound := Process.run_sound (R.config j) R.floats (R.leaveFd j) (R.env j) ops
    rw [total,total,Network.act_self,hrun]
    exact (Process.next_cellStep R.floats hsound op (R.name j)).2.2
  · rw [total,total,Network.act_other _ hj]

/-- Two members, `a` and `b`, with the default configuration. -/
def pair : Roster Bool where
  config i := { defaultLANConfig (if i then "a" else "b") with
    advertiseAddr := if i then "10.0.0.1" else "10.0.0.2" }
  floats := .small
  leaveFd _ := 3
  env _ := ⟨0,0,0,0,[],[]⟩
  distinct := by decide

end Roster
end GossipMemberlist
