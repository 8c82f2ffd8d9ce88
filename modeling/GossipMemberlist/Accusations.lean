import GossipMemberlist.LocalRecord
import GossipMemberlist.QueueRuns

/-!
# Accusations and answers

Three calls that go wrong without anybody noticing at first: a confirmation that
ends a suspicion runs the callback under the lock that the callback takes, an
accusation with the largest number is answered with zero, and the announcement of
an `UpdateNode` is taken for somebody else's and answered like an accusation.
-/

namespace GossipMemberlist

variable {cfg : Config} {fl : Floats}

namespace Member

/-- The call that leads from `m` to `m'` waits for `nodeMutex` while it holds it. -/
def Relocks (m m' : Member) : Prop := m.deadlocked = false ∧ m'.deadlocked = true

/-- The message is a new confirmation of a running timer, and leaves the suspect no time. -/
def Overdue (fl : Floats) (now : ℤ) (s : Suspect) (m : Member) : Prop :=
  m.deadlocked = false ∧ ∃ r t, m.find s.node = some r ∧ r.incarnation ≤ s.incarnation ∧
    m.nodeTimers s.node = some t ∧ t.n ≤ t.k ∧ s.from_ ∉ t.confirmations ∧ t.running = true ∧
    (t.count s.from_).remainingSuspicionTime fl now ≤ 0

theorem confirm_callsBack_iff {now : ℤ} {from_ : String} {t : Suspicion} :
    (t.confirm fl now from_).2 = .callsBack ↔ t.n ≤ t.k ∧ from_ ∉ t.confirmations ∧
      t.running = true ∧ (t.count from_).remainingSuspicionTime fl now ≤ 0 := by
  rcases Suspicion.confirm_cases fl now from_ t with
    ⟨hwhy,he⟩ | ⟨⟨hle,hx⟩,⟨hr,he⟩ | ⟨hr,hpos,he⟩ | ⟨hr,hneg,he⟩⟩
  · rw [he]
    refine iff_of_false (by simp) fun h => ?_
    exact absurd hwhy (not_or.mpr ⟨Nat.not_lt.mpr h.1,h.2.1⟩)
  · simp [he,hr]
  · rw [he]
    refine iff_of_false (by simp) fun h => ?_
    exact absurd h.2.2.2 (not_le.mpr hpos)
  · exact iff_of_true (by rw [he]) ⟨hle,hx,hr,hneg⟩

theorem confirmTimer_deadlocked {m : Member} (hd : m.deadlocked = false) (e : Env) (s : Suspect)
    (t : Suspicion) :
    (m.confirmTimer fl e s t).deadlocked = true ↔ (t.confirm fl e.now s.from_).2 = .callsBack := by
  cases hc : (t.confirm fl e.now s.from_).2 <;>
    simp [confirmTimer,hc,setTimer,onlyBroadcast,broadcastNotify,hd]

theorem relocks_iff_overdue (cfg : Config) (fl : Floats) (e : Env) (b : Broadcast) (m : Member) :
    m.Relocks (m.suspectNode cfg fl e b) ↔ m.Overdue fl e.now b.suspect := by
  constructor
  · rintro ⟨hd,hlocked⟩
    have h : SuspectExit cfg fl e b.suspect m _ := suspectNode_exit m e b
    generalize m.suspectNode cfg fl e b = m' at h hlocked
    have hfree : ¬m.deadlocked = true := by simp [hd]
    cases h with
    | @confirmed r t _ hr hle ht =>
      rw [confirmTimer_deadlocked hd] at hlocked
      exact ⟨hd,_,t,Table.find_eq hr,hle,ht,confirm_callsBack_iff.mp hlocked⟩
    | refuted _ hr =>
      obtain ⟨i,a,u,t,q,h⟩ := refute_frame cfg e b.suspect.incarnation hr
      rw [h] at hlocked
      exact absurd hlocked hfree
    | _ => exact absurd hlocked hfree
  · rintro ⟨hd,_,t,hfind,hle,ht,hback⟩
    obtain ⟨r,hr,rfl⟩ := Option.map_eq_some_iff.mp hfind
    have hconfirm : m.suspectNode cfg fl e b = m.confirmTimer fl e b.suspect t := by
      simp [suspectNode,hd,hr,Nat.not_lt.mpr hle,ht]
    rw [hconfirm]
    exact ⟨hd,(confirmTimer_deadlocked hd e b.suspect t).mpr (confirm_callsBack_iff.mpr hback)⟩

/-- A call of `suspectNode` waits for its own lock on overdue confirmations only. -/
theorem suspectNode_relocks_iff (cfg : Config) (fl : Floats) (e : Env) (b : Broadcast)
    (m : Member) : ¬m.Relocks (m.suspectNode cfg fl e b) ↔ ¬m.Overdue fl e.now b.suspect := by
  have h := relocks_iff_overdue cfg fl e b m
  constructor
  · intro hfree hoverdue
    exact hfree (h.mpr hoverdue)
  · intro hearly hrelocks
    exact hearly (h.mp hrelocks)

/-- The call that leads from `m` to `m'` puts the counter's number on the local record,
above the accusation and no lower than before, and announces it. -/
def Outbids (cfg : Config) (accusedInc : ℕ) (m m' : Member) : Prop :=
  ∃ s s', m.find cfg.name = some s ∧ m'.find cfg.name = some s' ∧
    s'.incarnation = m'.incarnation.load ∧ accusedInc < s'.incarnation ∧
    s.incarnation ≤ s'.incarnation ∧ m'.queue = m.queue.queueBroadcast
      ⟨cfg.name,genAliveBroadcast ⟨s'.incarnation,cfg.name,s.n.addr,s.n.port.toNat⟩,-1⟩ 0

/-- There is a number for the answer: the one on the counter, if nobody raises it in the
meantime, or else one that is past the accusation and still has 32 bits. -/
def LeavesRoom (accusedInc : ℕ) (e : Env) (s : NodeState) (m : Member) : Prop :=
  if accusedInc < m.incarnation.load then
    raises e.before % 2 ^ 32 = 0 ∧ s.incarnation ≤ m.incarnation.load
  else
    let k := (raises e.before + 1 + raises e.between) % 2 ^ 32
    0 < k ∧ accusedInc + k < 2 ^ 32 ∧ s.incarnation ≤ accusedInc + k

theorem refute_outbids {m : Member} {r : ℕ} (hr : m.table.nodeMap cfg.name = some r) (e : Env)
    {accusedInc : ℕ} (hacc : accusedInc < 2 ^ 32) :
    m.Outbids cfg accusedInc (m.refute cfg e r accusedInc) ↔
      m.LeavesRoom accusedInc e (m.table.heap r) := by
  have hout : m.Outbids cfg accusedInc (m.refute cfg e r accusedInc) ↔
      (m.refuteInc cfg e accusedInc).2 = (m.refuteInc cfg e accusedInc).1.incarnation.load ∧
        accusedInc < (m.refuteInc cfg e accusedInc).2 ∧
        (m.table.heap r).incarnation ≤ (m.refuteInc cfg e accusedInc).2 := by
    have hs : m.find cfg.name = some (m.table.heap r) := Table.find_eq hr
    rw [refute_eq cfg e accusedInc hr]
    have hs' : (m.table.modify r (fun s =>
        { s with incarnation := (m.refuteInc cfg e accusedInc).2 }) fun _ => rfl).find cfg.name =
          some { m.table.heap r with incarnation := (m.refuteInc cfg e accusedInc).2 } := by
      rw [Table.find_modify hr,if_pos rfl]
    constructor
    · rintro ⟨s,s',h,h',hload,hlt,hle,-⟩
      cases h.symm.trans hs
      cases h'.symm.trans hs'
      exact ⟨hload,hlt,hle⟩
    · rintro ⟨hload,hlt,hle⟩
      exact ⟨_,_,hs,hs',hload,hlt,hle,rfl⟩
  have htotal := refuteInc_total cfg e accusedInc m
  rw [hout]
  dsimp only at htotal
  unfold LeavesRoom
  split_ifs at htotal ⊢ with hlt
  · obtain ⟨ht,hinc⟩ := htotal
    rw [hinc,WrapCounter.load,WrapCounter.load,ht]
    simp only [WrapCounter.load] at hlt
    omega
  · obtain ⟨ht,hinc⟩ := htotal
    have hload : (m.refuteInc cfg e accusedInc).1.incarnation.load =
        (accusedInc + (raises e.before + 1 + raises e.between)) % 2 ^ 32 := by
      rw [WrapCounter.load,ht]
      simp only [WrapCounter.load] at hlt ⊢
      omega
    rw [hinc,hload]
    dsimp only
    omega

end Member

namespace Process

/-- With three peers a suspicion lasts up to 24 seconds, but only 11.4 once somebody has
confirmed it; the confirmation comes after 15. -/
theorem late_confirmation_relocks :
    let node := defaultLANConfig "node"
    let e : Env := ⟨0,0,0,0,[],[]⟩
    let joins : List Op := ["b","c","d"].map fun x =>
      .alive (genAliveBroadcast ⟨1,x,"10.0.0.2",6666⟩) (-1) e
    let m := (run node .small 3 e (joins ++ [.suspect (genSuspectBroadcast ⟨1,"b","c"⟩) e])).member
    m.Relocks (m.suspectNode node .small ⟨0,0,15000000,15000001,[],[]⟩
      (genSuspectBroadcast ⟨1,"b","d"⟩)) := by
  constructor <;> decide +kernel

/-- A refutation outbids the accusation exactly when there is a number left for it. Undisturbed
and at a number that is not older than the record's, it fails on the largest one only. -/
theorem refute_outbids_iff (cfg : Config) (fl : Floats) (leaveFd : ℤ) (e : Env) (ops : List Op)
    {accusedInc : ℕ} (hacc : accusedInc < 2 ^ 32) (env : Env) :
    let m := (run cfg fl leaveFd e ops).member
    ∃ me, m.table.nodeMap cfg.name = some me ∧
      (m.Outbids cfg accusedInc (m.refute cfg env me accusedInc) ↔
        m.LeavesRoom accusedInc env (m.table.heap me)) ∧
      (env.alone → (m.table.heap me).incarnation ≤ accusedInc →
        (m.Outbids cfg accusedInc (m.refute cfg env me accusedInc) ↔
          accusedInc < 2 ^ 32 - 1)) := by
  intro m
  obtain ⟨me,hme⟩ := (run_sound cfg fl leaveFd e ops).known
  have hiff := Member.refute_outbids (m := m) hme env hacc
  refine ⟨me,hme,hiff,fun ⟨hbefore,hbetween⟩ hle => hiff.trans ?_⟩
  have hlt := m.incarnation.load_lt
  have hraises : Member.raises [] = 0 := rfl
  unfold Member.LeavesRoom
  rw [hbefore,hbetween,hraises]
  split <;> omega

theorem refute_outbids_seven :
    let node := defaultLANConfig "node"
    let m := (run node .small 3 ⟨0,0,0,0,[],[]⟩ []).member
    ∃ me, m.table.nodeMap "node" = some me ∧
      m.Outbids node 7 (m.refute node ⟨0,0,0,0,[],[]⟩ me 7) := by
  intro node m
  obtain ⟨me,hme,-,h⟩ := refute_outbids_iff node .small 3 ⟨0,0,0,0,[],[]⟩ []
    (show 7 < 2 ^ 32 by decide) ⟨0,0,0,0,[],[]⟩
  have hme₀ : m.table.nodeMap "node" = some 0 := by decide +kernel
  cases hme.symm.trans hme₀
  exact ⟨0,hme,(h ⟨rfl,rfl⟩ (by decide +kernel)).mpr (by decide)⟩

/-- The answer to a suspicion with the largest number: the counter wraps, and the member
announces zero. -/
theorem largest_accusation_unanswered :
    let node := defaultLANConfig "node"
    let e : Env := ⟨0,0,0,0,[],[]⟩
    let suspect : Op := .suspect (genSuspectBroadcast ⟨2 ^ 32 - 1,"node","c"⟩) e
    let m := (run node .small 3 e []).member
    let m' := (run node .small 3 e [suspect]).member
    ¬m.Outbids node (2 ^ 32 - 1) m' ∧
      m'.find "node" = some ⟨⟨"node","",6666⟩,0,.stateAlive,0⟩ ∧ m'.incarnation.load = 0 := by
  have hfind : (run (defaultLANConfig "node") .small 3 ⟨0,0,0,0,[],[]⟩
      [.suspect (genSuspectBroadcast ⟨2 ^ 32 - 1,"node","c"⟩) ⟨0,0,0,0,[],[]⟩]).member.find
        "node" = some ⟨⟨"node","",6666⟩,0,.stateAlive,0⟩ := by decide +kernel
  refine ⟨?_,hfind,by decide +kernel⟩
  rintro ⟨s,s',-,hs',-,hlt,-⟩
  cases hs'.symm.trans hfind
  exact absurd hlt (by decide)

end Process

namespace Member

def Unawaited (cfg : Config) (m : Member) : Prop :=
  ∀ e ∈ m.queue.tq, e.b.node = cfg.name → e.b.msg.type = .aliveMsg → e.b.notifyFd = -1

/-- The member has its record at the number of the announcement `b`, and a broadcast
with that number waits in the queue that will end the wait on `notifyFd`. -/
def Advertises (cfg : Config) (b : Broadcast) (notifyFd : ℤ) (m : Member) : Prop :=
  (∃ s, m.find cfg.name = some s ∧ s.incarnation = b.alive.incarnation) ∧
    ∃ e ∈ m.queue.tq, e.b.node = cfg.name ∧ e.b.msg.type = .aliveMsg ∧
      e.b.msg.alive.incarnation = b.alive.incarnation ∧ e.b.notifyFd = notifyFd

theorem Unawaited.queueBroadcast {m n : Member} {b : MemberlistBroadcast}
    (h : m.Unawaited cfg) (hq : m.queue.Consistent) (hn : n.queue = m.queue.queueBroadcast b 0)
    (hb : b.node = cfg.name → b.msg.type = .aliveMsg → b.notifyFd = -1) : n.Unawaited cfg := by
  intro e he
  rw [hn] at he
  rcases BroadcastQueue.mem_queueBroadcast hq he with h' | ⟨h',-⟩
  · rw [h']
    exact hb
  · exact h e h'

end Member

theorem Effect.unawaited {m m' : Member} {l : Heard} (h : Effect cfg fl m l m')
    (hq : m.queue.Consistent) (hm : m.Unawaited cfg) : m'.Unawaited cfg := by
  cases h with
  | joined _ hne => exact hm.queueBroadcast hq rfl fun h => absurd h hne
  | accepted _ hne => exact hm.queueBroadcast hq rfl fun h => absurd h hne
  | replaced _ hne => exact hm.queueBroadcast hq rfl fun h => absurd h hne
  | @refuted _ r accusedInc e hr =>
    have h := Member.refute_eq cfg e accusedInc (m := m.setTimer cfg.name none) hr
    exact hm.queueBroadcast hq (congrArg Member.queue h) fun _ _ => rfl
  | confirmed =>
    obtain ⟨q,d,h,rfl | ⟨-,rfl⟩,-⟩ := Member.confirmTimer_frame fl _ _ _ m
    · rwa [h]
    · exact hm.queueBroadcast hq (by rw [h]) fun _ h => by cases h
  | suspected => exact hm.queueBroadcast hq rfl fun _ h => by cases h
  | buried => exact hm.queueBroadcast hq rfl fun _ h => by cases h
  | updating u =>
    obtain ⟨i,a,b,h⟩ := Member.updateStep_frame cfg m u
    rwa [h]
  | queued _ hold =>
    intro e he
    obtain ⟨e₀,he₀,hb⟩ := hold e he
    rw [hb]
    exact hm e₀ he₀
  | _ => exact hm

namespace Process

theorem run_unawaited (cfg : Config) (fl : Floats) (leaveFd : ℤ) (e : Env) (ops : List Op) :
    (run cfg fl leaveFd e ops).member.Unawaited cfg := by
  refine (Transitions.run_invariant (P := fun p : Process => p.member.Sound cfg ∧
    p.member.Unawaited cfg) ⟨start_sound cfg leaveFd e,?_⟩ (fun p op hp => ⟨next_sound hp.1 op,?_⟩)
    ops).2
  · rw [start_member]
    refine Member.Unawaited.queueBroadcast (m := Member.newmemberlist cfg leaveFd)
      (fun e he => ?_) (BroadcastQueue.new_consistent _) rfl fun _ _ => rfl
    cases he
  · obtain ⟨u,-,henters⟩ := p.enters_eq op
    have heffect : Effect cfg fl _ _ _ := step_effect hp.1 op
    refine heffect.unawaited (p.enters_sound hp.1 op).queue ?_
    rw [henters]
    exact hp.2

/-- `UpdateNode` never gets what it waits for: no alive broadcast about the local node is
queued with a descriptor. Unless somebody else has answered with its number in the
meantime, its own message is answered like an accusation, with a larger one. -/
theorem update_never_advertised (cfg : Config) (fl : Floats) (leaveFd : ℤ) (e : Env)
    (ops : List Op) {b : Broadcast} (hb : b ∈ (run cfg fl leaveFd e ops).member.updates)
    (hfree : (run cfg fl leaveFd e ops).member.deadlocked = false)
    (hleave : (run cfg fl leaveFd e ops).member.leave = false) {notifyFd : ℤ} (hfd : 0 ≤ notifyFd)
    (env : Env) :
    let p := run cfg fl leaveFd e ops
    let m' := (p.next cfg fl (.updateAlive b notifyFd env)).member
    ¬m'.Advertises cfg b notifyFd ∧
      ∀ s s', p.member.find cfg.name = some s → m'.find cfg.name = some s' → env.alone →
        s.incarnation < b.alive.incarnation → b.alive.incarnation < 2 ^ 32 - 1 →
        b.alive.incarnation < s'.incarnation := by
  intro p m'
  constructor
  · rintro ⟨-,e',he',hnode,htype,-,hfd'⟩
    have hrun : m' = (run cfg fl leaveFd e (ops ++ [.updateAlive b notifyFd env])).member := by
      rw [run,Transitions.run_snoc]
      rfl
    have h := run_unawaited cfg fl leaveFd e (ops ++ [.updateAlive b notifyFd env])
    rw [← hrun] at h
    have := h e' he' hnode htype
    omega
  · intro s s' hs hs' halone hlt hmax
    have hsteady : p.Steady cfg := run_steady cfg fl leaveFd e ops
    obtain ⟨s₀,hs₀,hn,-⟩ := hsteady.record.record
    cases hs.symm.trans hs₀
    obtain ⟨inc,-,hmsg⟩ := hsteady.announces b hb
    obtain ⟨r,hr,rfl⟩ := Option.map_eq_some_iff.mp hs
    have hnode : b.alive.node = cfg.name := by rw [hmsg]; rfl
    have haddr : Member.addressDiffers b.alive (p.member.table.heap r) = false := by
      simp [hmsg,Member.addressDiffers,hn,Config.advertised]
    have hm' : m' = ((p.member.takeUpdate b).setTimer b.alive.node none).refute cfg env r
        b.alive.incarnation := by
      have hnext : m' = (p.member.takeUpdate b).aliveNode cfg env b false notifyFd := by
        simp only [m',p,next,step,hb,hfree,and_self,if_true,act]
      rw [hnext,aliveNode_local (m := p.member.takeUpdate b) hfree hleave (hnode ▸ hr) hnode haddr
        hlt.le env notifyFd]
      exact if_neg hlt.ne'
    obtain ⟨hmap,hheap,hbeats⟩ := Member.refute_beats cfg
      (m := (p.member.takeUpdate b).setTimer b.alive.node none) hr
        (Member.raises_alone halone hmax)
    have hfind : m'.find cfg.name = some _ := Table.find_eq (by rw [hm',hmap]; exact hr)
    rw [hm',hheap] at hfind
    rw [hm'] at hs'
    cases hs'.symm.trans hfind
    exact hbeats

theorem update_never_advertised_alone :
    let node := defaultLANConfig "node"
    let p := run node .small 3 ⟨0,0,0,0,[],[]⟩ [.update .add,.update .load]
    let b := genAliveBroadcast ⟨2,"node","",6666⟩
    ¬(p.next node .small (.updateAlive b 9 ⟨0,0,0,0,[],[]⟩)).member.Advertises node b 9 := by
  intro node p b
  exact (update_never_advertised node .small 3 ⟨0,0,0,0,[],[]⟩ [.update .add,.update .load] (b := b)
    (by decide +kernel) (by decide +kernel) (by decide +kernel) (by decide)
    ⟨0,0,0,0,[],[]⟩).1

/-- `UpdateNode` draws 2; the record and the broadcast get 3, and nobody will write to
the descriptor. -/
theorem update_announces_another :
    let node := defaultLANConfig "node"
    let e : Env := ⟨0,0,0,0,[],[]⟩
    let p := run node .small 3 e [.update .add,.update .load]
    let b := genAliveBroadcast ⟨2,"node","",6666⟩
    let m' := (p.next node .small (.updateAlive b 9 e)).member
    b ∈ p.member.updates ∧ p.member.leave = false ∧ ¬m'.Advertises node b 9 ∧
      m'.find "node" = some ⟨⟨"node","",6666⟩,3,.stateAlive,0⟩ ∧
      m'.queue.tq.map (·.b) = [⟨"node",genAliveBroadcast ⟨3,"node","",6666⟩,-1⟩] := by
  intro node e p b m'
  have hfind : m'.find "node" = some ⟨⟨"node","",6666⟩,3,.stateAlive,0⟩ := by decide +kernel
  refine ⟨by decide +kernel,by decide +kernel,?_,hfind,by decide +kernel⟩
  rintro ⟨⟨s,hs,hinc⟩,-⟩
  cases hs.symm.trans hfind
  exact absurd hinc (by decide)

end Process

end GossipMemberlist
