import GossipMemberlist.LocalRecord
import GossipMemberlist.QueueRuns
import GossipMemberlist.Stamps

/-!
# Single deliveries

A delivery of a gossiped broadcast touches the node that it is about and no other. When
it is turned down it does nothing, but for the record of an unknown node that
`aliveNode` makes before its last test.
-/

namespace GossipMemberlist

variable {cfg : Config} {fl : Floats}

/-- The three handlers of gossiped broadcasts. They read the content that they are
for, whatever the broadcast holds. -/
inductive Handler
  | aliveNode | suspectNode | deadNode
  deriving DecidableEq

def Handler.op (h : Handler) (b : Broadcast) (e : Env) : Op :=
  match h with
  | .aliveNode => .alive b (-1) e
  | .suspectNode => .suspect b e
  | .deadNode => .dead b e

namespace Member

/-- What the member's own threads keep up between two deliveries. -/
structure Settled (cfg : Config) (m : Member) : Prop extends m.Sound cfg where
  timed : ∀ x, (m.cell x).Timed cfg x
  localCell : (m.cell cfg.name).Local cfg m.leave m.incarnation.total

def Queues (m m' : Member) : Prop := ∃ b, m'.queue = m.queue.queueBroadcast b 0

/-- If the call that leads from `m` to `m'` returns, queues no broadcast and changes
neither `State` nor `Incarnation` of a node known before, then it changes nothing. -/
def RejectsCleanly (m m' : Member) : Prop :=
  m'.deadlocked = false → ¬m.Queues m' →
  (∀ x s, m.find x = some s →
    ∃ s', m'.find x = some s' ∧ s'.state = s.state ∧ s'.incarnation = s.incarnation) →
  m'.table = m.table ∧ m'.nodeTimers = m.nodeTimers ∧ m'.incarnation = m.incarnation ∧
    m'.queue = m.queue

theorem RejectsCleanly.refl (m : Member) : m.RejectsCleanly m := fun _ _ _ => ⟨rfl,rfl,rfl,rfl⟩

theorem RejectsCleanly.of_queues {m m' : Member} (h : m.Queues m') : m.RejectsCleanly m' :=
  fun _ hq _ => absurd h hq

theorem RejectsCleanly.of_deadlocked {m m' : Member} (h : m'.deadlocked = true) :
    m.RejectsCleanly m' := fun hf _ _ => by rw [h] at hf; cases hf

theorem RejectsCleanly.disarm {m : Member} {x : String} (h : m.nodeTimers x = none) :
    m.RejectsCleanly (m.setTimer x none) := by
  rw [setTimer_none h]
  exact .refl m

theorem queueBroadcast_ne (b : MemberlistBroadcast) (q : BroadcastQueue) :
    q ≠ q.queueBroadcast b 0 := fun h => by
  have hid : q.idGen = if q.idGen = 2 ^ 32 - 1 then 1 else q.idGen + 1 :=
    (congrArg BroadcastQueue.idGen h).trans (by simp [BroadcastQueue.queueBroadcast])
  split at hid <;> omega

theorem refute_queues {m : Member} {x : String} {me : ℕ} (hr : m.table.nodeMap x = some me)
    (e : Env) (accusedInc : ℕ) : m.Queues (m.refute cfg e me accusedInc) := by
  rw [refute_eq cfg e accusedInc hr]
  exact ⟨_,rfl⟩

theorem confirmTimer_refused {m : Member} {e : Env} {s : Suspect} {t : Suspicion}
    (ht : m.nodeTimers s.node = some t) (hc : t.confirm fl e.now s.from_ = (t,.refused)) :
    m.confirmTimer fl e s t = m := by
  have hself : Function.update m.nodeTimers s.node (some t) = m.nodeTimers := by
    rw [← ht,Function.update_eq_self]
  simp [confirmTimer,hc,setTimer,hself]

theorem confirmTimer_rejectsCleanly {m : Member} {s : Suspect} {t : Suspicion} (fl : Floats)
    (ht : m.nodeTimers s.node = some t) (e : Env) :
    m.RejectsCleanly (m.confirmTimer fl e s t) := by
  cases hc : (t.confirm fl e.now s.from_).2 with
  | refused =>
    rw [confirmTimer_refused ht (Suspicion.confirm_refused hc)]
    exact .refl m
  | counted => exact .of_queues ⟨_,by simp only [confirmTimer,hc]; rfl⟩
  | callsBack => exact .of_deadlocked (by simp [confirmTimer,hc])

theorem addNode_not_rejectsCleanly {m : Member} {a : Alive} (e : Env)
    (hd : m.deadlocked = false) (hnone : m.table.nodeMap a.node = none) :
    ¬m.RejectsCleanly (m.addNode e a) := fun h => by
  have hquiet : ¬m.Queues (m.addNode e a) := fun ⟨b,hb⟩ => queueBroadcast_ne b m.queue hb
  obtain ⟨htable,-⟩ := h hd hquiet fun x s hs => by
    refine ⟨s,?_,rfl,rfl⟩
    have hne : x ≠ (newNodeState e a).n.name := fun hx => by
      rw [find,Table.find,hx,show m.table.nodeMap (newNodeState e a).n.name = none from hnone] at hs
      cases hs
    rw [find,addNode,Table.find_insert hnone,if_neg hne]
    exact hs
  have hlen := Table.length_insert (s := newNodeState e a) hnone e.rand
  rw [show m.table.insert e.rand (newNodeState e a) = m.table from htable] at hlen
  omega

theorem aliveNode_blank {m : Member} {b : Broadcast} (hm : m.Sound cfg) (hd : m.deadlocked = false)
    (hnone : m.table.nodeMap b.alive.node = none) (hinc : b.alive.incarnation = 0) (e : Env)
    (notifyFd : ℤ) : m.aliveNode cfg e b false notifyFd = m.addNode e b.alive := by
  have hne : b.alive.node ≠ cfg.name := hm.ne_of_unknown hnone
  have hheap : (m.addNode e b.alive).table.heap m.table.next = newNodeState e b.alive :=
    Table.heap_insert hnone _
  simp [aliveNode,hd,hnone,aliveKnown,hheap,newNodeState,hne,hinc]

theorem aliveNode_rejectsCleanly {m : Member} (hm : m.Settled cfg) (e : Env) {b : Broadcast}
    (hblank : m.deadlocked = false → m.table.nodeMap b.alive.node = none →
      b.alive.incarnation ≠ 0) (notifyFd : ℤ) :
    m.RejectsCleanly (m.aliveNode cfg e b false notifyFd) := by
  have h := aliveNode_exit hm.known e b notifyFd
  generalize m.aliveNode cfg e b false notifyFd = m' at h ⊢
  cases h with
  | created hd hnone _ hinc => exact absurd hinc (hblank hd hnone)
  | joined | accepted | replaced => exact .of_queues ⟨_,rfl⟩
  | refuted _ hr => exact .of_queues (refute_queues (m := m.setTimer cfg.name none) hr e _)
  | echoed => exact .disarm hm.localCell.timer
  | _ => exact .refl _

theorem suspectNode_rejectsCleanly (cfg : Config) (fl : Floats) (m : Member) (e : Env)
    (b : Broadcast) : m.RejectsCleanly (m.suspectNode cfg fl e b) := by
  have h : SuspectExit cfg fl e b.suspect m _ := suspectNode_exit m e b
  generalize m.suspectNode cfg fl e b = m' at h ⊢
  cases h with
  | confirmed _ _ _ ht => exact confirmTimer_rejectsCleanly fl ht e
  | refuted _ hr => exact .of_queues (refute_queues hr e _)
  | suspected => exact .of_queues ⟨_,rfl⟩
  | _ => exact .refl _

theorem deadNode_rejectsCleanly {m : Member} (hm : m.Settled cfg) (e : Env) (b : Broadcast) :
    m.RejectsCleanly (m.deadNode cfg e b) := by
  have h : DeadExit cfg e b.dead m _ := deadNode_exit m e b
  generalize m.deadNode cfg e b = m' at h ⊢
  cases h with
  | settled _ hr _ hdead =>
    refine .disarm ((hm.timed _).no_timer (cell_record hr) fun hs => ?_)
    simp [NodeState.deadOrLeft,hs] at hdead
  | refuted _ hr => exact .of_queues (refute_queues (m := m.setTimer cfg.name none) hr e _)
  | buried => exact .of_queues ⟨_,rfl⟩
  | _ => exact .refl _

/-- The step from `m` to `m'` leaves the record and the timer of every other node alone. -/
def SameElsewhere (x : String) (m m' : Member) : Prop :=
  ∀ y ≠ x, m'.find y = m.find y ∧ m'.nodeTimers y = m.nodeTimers y

theorem SameElsewhere.refl (x : String) (m : Member) : m.SameElsewhere x m :=
  fun _ _ => ⟨rfl,rfl⟩

theorem SameElsewhere.of_keeps {x : String} {m m' : Member}
    (h : ∀ y ≠ x, (m.cell y).Keeps (m'.cell y)) : m.SameElsewhere x m' :=
  fun y hy => ⟨(h y hy).record_eq,(h y hy).timer_eq⟩

theorem SameElsewhere.setTimer (x : String) (t : Option Suspicion) (m : Member) :
    m.SameElsewhere x (m.setTimer x t) :=
  fun _ hy => ⟨rfl,Function.update_of_ne hy ..⟩

theorem SameElsewhere.refute (cfg : Config) {x : String} {m : Member} {r : ℕ}
    (hq : m.queue.Consistent) (hr : m.table.nodeMap x = some r) (e : Env) (accusedInc : ℕ) :
    m.SameElsewhere x ((m.setTimer x none).refute cfg e r accusedInc) := by
  obtain ⟨i,a,b,h⟩ := refuteInc_frame cfg e accusedInc (m.setTimer x none)
  have heq := refute_eq cfg e accusedInc (m := m.setTimer x none) hr
  refine .of_keeps (write_cell (f := fun s =>
      { s with incarnation := ((m.setTimer x none).refuteInc cfg e accusedInc).2 }) hq hr
    (fun _ => rfl) (by rw [heq]; rfl) (by simp only [heq,h]; rfl) (by rw [heq]; rfl)).2

theorem aliveNode_elsewhere {m : Member} (hm : m.Sound cfg) (e : Env) (b : Broadcast)
    (notifyFd : ℤ) : m.SameElsewhere b.alive.node (m.aliveNode cfg e b false notifyFd) := by
  have h := aliveNode_exit hm.known e b notifyFd
  generalize m.aliveNode cfg e b false notifyFd = m' at h ⊢
  cases h with
  | created _ hnone =>
    refine .of_keeps fun y hy => ?_
    rw [addNode_cell hnone,if_neg hy]
    exact .refl _
  | joined _ hnone => exact .of_keeps (join_cell hm.queue hnone notifyFd).2
  | accepted _ hr => exact .of_keeps (acceptAlive_cell hm.queue hr e notifyFd).2
  | replaced _ hr => exact .of_keeps (acceptAlive_cell hm.queue hr e notifyFd).2
  | echoed _ _ hl => exact hl ▸ .setTimer cfg.name none m
  | refuted _ hr hl => exact hl ▸ .refute cfg hm.queue (hl ▸ hr) e _
  | _ => exact .refl _ _

theorem suspectNode_elsewhere {m : Member} (hm : m.Sound cfg) (e : Env) (b : Broadcast) :
    m.SameElsewhere b.suspect.node (m.suspectNode cfg fl e b) := by
  have h : SuspectExit cfg fl e b.suspect m _ := suspectNode_exit m e b
  generalize m.suspectNode cfg fl e b = m' at h ⊢
  cases h with
  | confirmed =>
    obtain ⟨q,d,h,-⟩ := confirmTimer_frame fl e b.suspect _ m
    rw [h]
    exact fun y hy => ⟨rfl,Function.update_of_ne hy ..⟩
  | refuted _ hr hl _ hnone =>
    have h := SameElsewhere.refute cfg hm.queue (hl ▸ hr) e b.suspect.incarnation
    rw [setTimer_none (hl ▸ hnone)] at h
    exact hl ▸ h
  | suspected _ hr => exact .of_keeps (startSuspicion_cell cfg fl hm.queue hr e).2
  | _ => exact .refl _ _

theorem deadNode_elsewhere {m : Member} (hm : m.Sound cfg) (e : Env) (b : Broadcast) :
    m.SameElsewhere b.dead.node (m.deadNode cfg e b) := by
  have h : DeadExit cfg e b.dead m _ := deadNode_exit m e b
  generalize m.deadNode cfg e b = m' at h ⊢
  cases h with
  | settled => exact .setTimer _ none m
  | refuted _ hr hl => exact hl ▸ .refute cfg hm.queue (hl ▸ hr) e _
  | buried _ hr => exact .of_keeps (acceptDead_cell hm.queue hr e _).2
  | _ => exact .refl _ _

theorem aliveNode_deadlocked {m : Member} (hm : m.Sound cfg) (e : Env) (b : Broadcast)
    (notifyFd : ℤ) : (m.aliveNode cfg e b false notifyFd).deadlocked = m.deadlocked := by
  have h := aliveNode_exit hm.known e b notifyFd
  generalize m.aliveNode cfg e b false notifyFd = m' at h ⊢
  cases h with
  | refuted _ hr =>
    obtain ⟨i,a,u,t,q,h⟩ := refute_frame cfg e _ (m := m.setTimer cfg.name none) hr
    rw [h]
    rfl
  | _ => rfl

theorem deadNode_deadlocked (cfg : Config) (m : Member) (e : Env) (b : Broadcast) :
    (m.deadNode cfg e b).deadlocked = m.deadlocked := by
  have h : DeadExit cfg e b.dead m _ := deadNode_exit m e b
  generalize m.deadNode cfg e b = m' at h ⊢
  cases h with
  | refuted _ hr =>
    obtain ⟨i,a,u,t,q,h⟩ := refute_frame cfg e _ (m := m.setTimer cfg.name none) hr
    rw [h]
    rfl
  | _ => rfl

end Member

namespace Process

theorem run_settled (cfg : Config) (fl : Floats) (leaveFd : ℤ) (e : Env) (ops : List Op) :
    (run cfg fl leaveFd e ops).member.Settled cfg where
  toSound := run_sound cfg fl leaveFd e ops
  timed := run_timed cfg fl leaveFd e ops
  localCell := run_local cfg fl leaveFd e ops

/-- A broadcast that a handler turns down leaves no trace, except that an alive message
with incarnation zero about an unknown node always leaves one. -/
theorem rejected_changes_nothing_iff (cfg : Config) (fl : Floats) (leaveFd : ℤ) (e : Env)
    (ops : List Op) (h : Handler) (b : Broadcast) (env : Env) :
    let p := run cfg fl leaveFd e ops
    p.member.RejectsCleanly (p.next cfg fl (h.op b env)).member ↔
      ¬Blank cfg p (h.op b env) := by
  intro p
  have hp : p.member.Settled cfg := run_settled cfg fl leaveFd e ops
  constructor
  · rintro hclean ⟨hd,a,e',hl,hnone,hinc⟩
    cases h with
    | aliveNode =>
      cases hl
      have hnext : (p.next cfg fl (.alive b (-1) env)).member = p.member.addNode env b.alive :=
        Member.aliveNode_blank hp.toSound hd hnone hinc env (-1)
      rw [Handler.op,hnext] at hclean
      exact Member.addNode_not_rejectsCleanly env hd hnone hclean
    | suspectNode => cases hl
    | deadNode => cases hl
  · intro hblank
    cases h with
    | aliveNode =>
      exact Member.aliveNode_rejectsCleanly hp env
        (fun hd hnone hinc => hblank ⟨hd,_,_,rfl,hnone,hinc⟩) (-1)
    | suspectNode => exact Member.suspectNode_rejectsCleanly cfg fl p.member env b
    | deadNode => exact Member.deadNode_rejectsCleanly hp env b

/-- An alive message with incarnation zero is turned down, but its node stays. -/
theorem rejected_newcomer_stays :
    let node := defaultLANConfig "node"
    let e : Env := ⟨0,0,0,0,[],[]⟩
    let p := run node .small 3 e []
    let p' := p.next node .small (.alive (genAliveBroadcast ⟨0,"b","10.0.0.2",6666⟩) (-1) e)
    ¬p.member.RejectsCleanly p'.member ∧ p.member.table.numNodes.load = 1 ∧
      p'.member.table.numNodes.load = 2 ∧ p'.member.queue.tq = p.member.queue.tq ∧
      p'.member.find "b" = some ⟨⟨"b","10.0.0.2",6666⟩,0,.stateDead,0⟩ := by
  intro node e p p'
  let b := genAliveBroadcast ⟨0,"b","10.0.0.2",6666⟩
  have hsound : p.member.Sound node := run_sound node .small 3 e []
  have hd : p.member.deadlocked = false := by decide +kernel
  have hnone : p.member.table.nodeMap b.alive.node = none := by decide +kernel
  have hnext : p'.member = p.member.addNode e b.alive :=
    Member.aliveNode_blank hsound hd hnone rfl e (-1)
  refine ⟨?_,?_,?_,?_,?_⟩
  · rw [hnext]
    exact Member.addNode_not_rejectsCleanly e hd hnone
  all_goals decide +kernel

end Process

end GossipMemberlist
