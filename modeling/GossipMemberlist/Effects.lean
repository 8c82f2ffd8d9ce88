import GossipMemberlist.Handlers
import GossipMemberlist.Process

/-!
# What a step can do

One case per way in which an atomic step can leave the member, guards included.
Every invariant of the member is derived from this list, so that no later proof
looks into a handler.
-/

namespace GossipMemberlist

/-- The message that the handler call of a step gets, and what it reads. -/
inductive Heard
  | alive (a : Alive) (e : Env)
  | suspect (s : Suspect) (e : Env)
  | dead (d : Dead) (e : Env)
  | nothing

def Heard.about : Heard → Option (String × ℕ)
  | .alive a _ => some (a.node,a.incarnation)
  | .suspect s _ => some (s.node,s.incarnation)
  | .dead d _ => some (d.node,d.incarnation)
  | .nothing => none

def PushNodeState.heard (cfg : Config) (e : Env) (state : PushNodeState) : Heard :=
  match state.state with
  | .stateAlive => .alive ⟨state.incarnation,state.name,state.addr,state.port⟩ e
  | .stateLeft => .dead ⟨state.incarnation,state.name,state.name⟩ e
  | .stateDead | .stateSuspect => .suspect ⟨state.incarnation,state.name,cfg.name⟩ e
  | .unrecognized _ => .nothing

/-- What the handler call of a step is given, if the step makes one. -/
def Process.heard (cfg : Config) (p : Process) : Op → Heard
  | .alive b _ e => .alive b.alive e
  | .suspect b e => .suspect b.suspect e
  | .dead b e => .dead b.dead e
  | .merge state e => state.heard cfg e
  | .timerDead b e =>
    if b ∈ p.verdicts ∧ p.member.deadlocked = false then .dead b.dead e else .nothing
  | .leaveDead b e =>
    if b ∈ p.farewells ∧ p.member.deadlocked = false then .dead b.dead e else .nothing
  | .probeFail node e =>
    if node ∈ p.probing ∧ p.member.deadlocked = false then
      .suspect ⟨node.incarnation,node.n.name,cfg.name⟩ e
    else .nothing
  | .updateAlive b _ e =>
    if b ∈ p.member.updates ∧ p.member.deadlocked = false then .alive b.alive e else .nothing
  | _ => .nothing

def Process.enters (p : Process) : Op → Member
  | .updateAlive b _ _ =>
    if b ∈ p.member.updates ∧ p.member.deadlocked = false then p.member.takeUpdate b else p.member
  | _ => p.member

/-- What every step relies on: the local node is known and the queue is consistent. -/
structure Member.Sound (cfg : Config) (m : Member) : Prop where
  known : ∃ r, m.table.nodeMap cfg.name = some r
  queue : m.queue.Consistent

theorem Member.Sound.ne_of_unknown {cfg : Config} {m : Member} (hm : m.Sound cfg) {x : String}
    (hx : m.table.nodeMap x = none) : x ≠ cfg.name := fun he => by
  obtain ⟨r,hr⟩ := hm.known
  rw [he,hr] at hx
  cases hx

inductive Effect (cfg : Config) (fl : Floats) (m : Member) : Heard → Member → Prop
  | ignored {l} : Effect cfg fl m l m
  | disarmed {l x r} : m.table.nodeMap x = some r →
      x = cfg.name ∨ (m.table.heap r).deadOrLeft = true →
      Effect cfg fl m l (m.setTimer x none)
  | created {a e} : m.table.nodeMap a.node = none → a.node ≠ cfg.name → a.incarnation = 0 →
      Effect cfg fl m (.alive a e) (m.addNode e a)
  | joined {a e notifyFd} : m.table.nodeMap a.node = none → a.node ≠ cfg.name →
      0 < a.incarnation → Effect cfg fl m (.alive a e)
        (((m.addNode e a).setTimer a.node none).acceptAlive e a notifyFd m.table.next)
  | accepted {a e notifyFd r} : m.table.nodeMap a.node = some r → a.node ≠ cfg.name →
      Member.addressDiffers a (m.table.heap r) = false →
      (m.table.heap r).incarnation < a.incarnation →
      Effect cfg fl m (.alive a e) ((m.setTimer a.node none).acceptAlive e a notifyFd r)
  | replaced {a e notifyFd r} : m.table.nodeMap a.node = some r → a.node ≠ cfg.name →
      Member.addressDiffers a (m.table.heap r) = true →
      Member.canReplace cfg e.now (m.table.heap r) = true →
      Effect cfg fl m (.alive a e) ((m.setTimer a.node none).acceptAlive e a notifyFd r)
  | refuted {l r accusedInc} (e : Env) : m.table.nodeMap cfg.name = some r →
      l.about = some (cfg.name,accusedInc) →
      m.leave = false ∨ (m.table.heap r).state = .stateAlive →
      (m.table.heap r).incarnation ≤ accusedInc →
      Effect cfg fl m l ((m.setTimer cfg.name none).refute cfg e r accusedInc)
  | confirmed {s e r t} : m.table.nodeMap s.node = some r →
      (m.table.heap r).incarnation ≤ s.incarnation → m.nodeTimers s.node = some t →
      Effect cfg fl m (.suspect s e) (m.confirmTimer fl e s t)
  | suspected {s e r} : m.table.nodeMap s.node = some r → s.node ≠ cfg.name →
      (m.table.heap r).incarnation ≤ s.incarnation → m.nodeTimers s.node = none →
      (m.table.heap r).state = .stateAlive →
      Effect cfg fl m (.suspect s e) (m.startSuspicion cfg fl e s r)
  | buried {d e notifyFd r} : m.table.nodeMap d.node = some r →
      (m.table.heap r).incarnation ≤ d.incarnation → (m.table.heap r).deadOrLeft = false →
      (d.node = cfg.name → m.leave = true) →
      Effect cfg fl m (.dead d e) ((m.setTimer d.node none).acceptDead e d notifyFd r)
  | shuffled {l} (ns : List ℕ) (i : ℕ) :
      Effect cfg fl m l { m with table := m.table.shuffle ns, probeIndex := i }
  | advanced {l} (i : ℕ) : Effect cfg fl m l { m with probeIndex := i }
  | ended {l x t} : m.nodeTimers x = some t →
      Effect cfg fl m l (m.setTimer x (some { t with running := false }))
  | updating (u : UpdateStep) : Effect cfg fl m .nothing (m.updateStep cfg u)
  | leaving : Effect cfg fl m .nothing { m with leave := true }
  | queued {l} {q : BroadcastQueue} : q.Consistent → (∀ e ∈ q.tq, ∃ e₀ ∈ m.queue.tq, e.b = e₀.b) →
      Effect cfg fl m l { m with queue := q }

variable {cfg : Config} {fl : Floats}

theorem Member.setTimer_none {m : Member} {x : String} (h : m.nodeTimers x = none) :
    m.setTimer x none = m := by
  have : Function.update m.nodeTimers x none = m.nodeTimers := by
    rw [← h,Function.update_eq_self]
  simp [Member.setTimer,this]

theorem aliveNode_effect {m : Member} (hm : m.Sound cfg) (e : Env) (b : Broadcast)
    (notifyFd : ℤ) : Effect cfg fl m (.alive b.alive e) (m.aliveNode cfg e b false notifyFd) := by
  have h := Member.aliveNode_exit hm.known e b notifyFd
  generalize m.aliveNode cfg e b false notifyFd = m' at h ⊢
  cases h with
  | created _ hnone hne hinc => exact .created hnone hne hinc
  | joined _ hnone hne hinc => exact .joined hnone hne hinc
  | accepted _ hr hne haddr hinc => exact .accepted hr hne haddr hinc
  | replaced _ hr hne haddr hrep => exact .replaced hr hne haddr hrep
  | echoed _ hr hl => exact .disarmed (hl ▸ hr) (Or.inl rfl)
  | refuted _ hr hl hleave _ hinc =>
    exact .refuted e (hl ▸ hr) (by simp [Heard.about,hl]) (Or.inl hleave) hinc.le
  | _ => exact .ignored

theorem suspectNode_effect (m : Member) (e : Env) (b : Broadcast) :
    Effect cfg fl m (.suspect b.suspect e) (m.suspectNode cfg fl e b) := by
  have h : Member.SuspectExit cfg fl e b.suspect m _ := Member.suspectNode_exit m e b
  generalize m.suspectNode cfg fl e b = m' at h ⊢
  cases h with
  | confirmed _ hr hinc ht => exact .confirmed hr hinc ht
  | @refuted r _ hr hl hinc hnone hs =>
    have h : Effect cfg fl m (.suspect b.suspect e)
        ((m.setTimer cfg.name none).refute cfg e r b.suspect.incarnation) :=
      .refuted e (hl ▸ hr) (by simp [Heard.about,hl]) (Or.inr hs) hinc
    rwa [Member.setTimer_none (hl ▸ hnone)] at h
  | suspected _ hr hne hinc hnone hs => exact .suspected hr hne hinc hnone hs
  | _ => exact .ignored

theorem deadNode_effect (m : Member) (e : Env) (b : Broadcast) :
    Effect cfg fl m (.dead b.dead e) (m.deadNode cfg e b) := by
  have h : Member.DeadExit cfg e b.dead m _ := Member.deadNode_exit m e b
  generalize m.deadNode cfg e b = m' at h ⊢
  cases h with
  | settled _ hr _ hdead => exact .disarmed hr (Or.inr hdead)
  | refuted _ hr hl hinc _ hleave =>
    exact .refuted e (hl ▸ hr) (by simp [Heard.about,hl]) (Or.inl hleave) hinc
  | buried _ hr hinc hdead hleave => exact .buried hr hinc hdead hleave
  | _ => exact .ignored

theorem mergeState_effect {m : Member} (hm : m.Sound cfg) (e : Env) (state : PushNodeState) :
    Effect cfg fl m (state.heard cfg e) (m.mergeState cfg fl e state) := by
  cases hs : state.state <;> simp only [Member.mergeState,PushNodeState.heard,hs]
  case stateAlive => exact aliveNode_effect hm e (genAliveBroadcast _) (-1)
  case stateLeft => exact deadNode_effect m e (genDeadBroadcast _)
  case stateSuspect => exact suspectNode_effect m e (genSuspectBroadcast _)
  case stateDead => exact suspectNode_effect m e (genSuspectBroadcast _)
  case unrecognized => exact .ignored

theorem probeSection_effect (m : Member) (numCheck : ℕ) (ns : List ℕ) :
    Effect cfg fl m .nothing (m.probeSection cfg numCheck ns).1 := by
  unfold Member.probeSection
  split
  · exact .ignored
  split
  · exact .shuffled ns 0
  · dsimp only
    split <;> exact .advanced _

theorem aliveNode_new {m : Member} {b : Broadcast} {bootstrap : Bool}
    (hfree : m.deadlocked = false) (hleave : m.leave = false)
    (hnone : m.table.nodeMap b.alive.node = none) (hinc : 0 < b.alive.incarnation)
    (hlocal : bootstrap = false → b.alive.node ≠ cfg.name) (e : Env) (notifyFd : ℤ) :
    m.aliveNode cfg e b bootstrap notifyFd =
      ((m.addNode e b.alive).setTimer b.alive.node none).acceptAlive e b.alive notifyFd
        m.table.next := by
  have hheap : (m.addNode e b.alive).table.heap m.table.next = Member.newNodeState e b.alive :=
    Table.heap_insert hnone _
  have hlocal : ¬(bootstrap = false ∧ b.alive.node = cfg.name) := fun h => hlocal h.1 h.2
  simp [Member.aliveNode,hfree,hleave,hnone,Member.aliveKnown,hheap,Member.newNodeState,
    Nat.ne_of_gt hinc,hlocal]

theorem aliveNode_local {m : Member} {b : Broadcast} {r : ℕ} (hfree : m.deadlocked = false)
    (hleave : m.leave = false) (hr : m.table.nodeMap b.alive.node = some r)
    (hl : b.alive.node = cfg.name)
    (haddr : Member.addressDiffers b.alive (m.table.heap r) = false)
    (hinc : (m.table.heap r).incarnation ≤ b.alive.incarnation) (e : Env) (notifyFd : ℤ) :
    m.aliveNode cfg e b false notifyFd =
      if b.alive.incarnation = (m.table.heap r).incarnation then m.setTimer b.alive.node none
      else (m.setTimer b.alive.node none).refute cfg e r b.alive.incarnation := by
  have hname : (m.table.heap r).n.name = cfg.name := (m.table.named hr).trans hl
  simp [Member.aliveNode,hfree,hleave,hr,haddr,Member.aliveKnown,hname,Nat.not_lt.mpr hinc]

theorem deadNode_accepts {m : Member} {b : Broadcast} {r : ℕ} (hfree : m.deadlocked = false)
    (hr : m.table.nodeMap b.dead.node = some r) (hne : b.dead.node ≠ cfg.name)
    (hinc : (m.table.heap r).incarnation ≤ b.dead.incarnation)
    (hdead : (m.table.heap r).deadOrLeft = false) (e : Env) :
    m.deadNode cfg e b = (m.setTimer b.dead.node none).acceptDead e b.dead (-1) r := by
  have hname : (m.table.heap r).n.name ≠ cfg.name := fun h => hne ((m.table.named hr).symm.trans h)
  simp [Member.deadNode,hfree,hr,hdead,hname,Nat.not_lt.mpr hinc]

theorem suspectNode_accepts {m : Member} {b : Broadcast} {r : ℕ} (hfree : m.deadlocked = false)
    (hr : m.table.nodeMap b.suspect.node = some r) (hne : b.suspect.node ≠ cfg.name)
    (hinc : (m.table.heap r).incarnation ≤ b.suspect.incarnation)
    (ht : m.nodeTimers b.suspect.node = none) (halive : (m.table.heap r).state = .stateAlive)
    (e : Env) : m.suspectNode cfg fl e b = m.startSuspicion cfg fl e b.suspect r := by
  have hname : (m.table.heap r).n.name ≠ cfg.name := fun h => hne ((m.table.named hr).symm.trans h)
  simp [Member.suspectNode,hfree,hr,hname,ht,halive,Nat.not_lt.mpr hinc]

/-- Every atomic step of every thread has one of the listed effects. -/
theorem step_effect {p : Process} (hp : p.member.Sound cfg) (op : Op) :
    Effect cfg fl (p.enters op) (p.heard cfg op) (p.next cfg fl op).member := by
  cases op with
  | alive b notifyFd e => exact aliveNode_effect hp e b notifyFd
  | suspect b e => exact suspectNode_effect _ e b
  | dead b e => exact deadNode_effect _ e b
  | merge state e => exact mergeState_effect hp e state
  | timerWake x =>
    simp only [Process.next,Process.step]
    split
    · split <;> exact .ignored
    · exact .ignored
  | timerCheck f =>
    simp only [Process.next,Process.step,Process.timerCheck]
    split <;> exact .ignored
  | timerDead b e =>
    simp only [Process.next,Process.step,Process.heard]
    split
    · exact deadNode_effect _ e b
    · exact .ignored
  | timerEnd x =>
    simp only [Process.next,Process.step]
    split
    · rename_i t ht
      exact .ended ht
    · exact .ignored
  | probe numCheck ns =>
    simp only [Process.next,Process.step,Process.probe]
    split
    · exact .ignored
    · exact probeSection_effect _ numCheck ns
  | probeSend node =>
    simp only [Process.next,Process.step]
    split <;> exact .ignored
  | probeFail node e =>
    simp only [Process.next,Process.step,Process.heard]
    split
    · exact suspectNode_effect _ e (Process.probeSuspicion cfg node)
    · exact .ignored
  | update u => exact .updating u
  | updateAlive b notifyFd e =>
    simp only [Process.next,Process.step,Process.heard,Process.enters]
    split
    · exact aliveNode_effect (m := p.member.takeUpdate b) ⟨hp.known,hp.queue⟩ e b notifyFd
    · exact .ignored
  | leaveTest =>
    simp only [Process.next,Process.step]
    split <;> exact .ignored
  | leaveSet =>
    simp only [Process.next,Process.step,Process.leaveSet]
    split
    · exact .ignored
    · exact .leaving
  | leaveRead =>
    simp only [Process.next,Process.step,Process.leaveRead]
    split <;> exact .ignored
  | leaveDead b e =>
    simp only [Process.next,Process.step,Process.heard]
    split
    · exact deadNode_effect _ e b
    · exact .ignored
  | sendState join =>
    simp only [Process.next,Process.step]
    split <;> exact .ignored
  | gossip overhead limit haveMsg =>
    obtain ⟨h₁,h₂,-⟩ := BroadcastQueue.getBroadcasts_spec fl p.member.table.numNodes.load overhead
      limit haveMsg hp.queue
    exact .queued h₁ h₂
  | prune maxRetain =>
    obtain ⟨h₁,h₂⟩ := BroadcastQueue.prune_spec maxRetain hp.queue
    exact .queued h₁ fun e he => ⟨e,h₂.subset he,rfl⟩
  | clear => exact .queued (BroadcastQueue.clear_consistent _) (by simp [BroadcastQueue.clear])

/-- Behind a lock that is never released no handler touches a record. -/
theorem Process.next_locked {p : Process} (hp : p.member.deadlocked = true) (op : Op) :
    (p.next cfg fl op).member.table = p.member.table := by
  cases op with
  | alive b notifyFd e => simp [next,step,act,Member.aliveNode,hp]
  | suspect b e => simp [next,step,act,Member.suspectNode,hp]
  | dead b e => simp [next,step,act,Member.deadNode,hp]
  | merge state e =>
    simp only [next,step,act,Member.mergeState]
    split <;> simp [Member.aliveNode,Member.suspectNode,Member.deadNode,hp]
  | timerWake x =>
    simp only [next,step]
    split
    · split <;> rfl
    · rfl
  | timerEnd x =>
    simp only [next,step]
    split <;> rfl
  | update u =>
    obtain ⟨i,a,b,h⟩ := Member.updateStep_frame cfg p.member u
    simp [next,step,act,h]
  | leaveTest =>
    simp only [next,step]
    split <;> rfl
  | leaveSet =>
    simp only [next,step,leaveSet]
    split <;> rfl
  | probe => simp [next,step,probe,hp]
  | timerCheck => simp [next,step,timerCheck,hp]
  | leaveRead =>
    simp only [next,step,leaveRead]
    split <;> rfl
  | probeSend node =>
    simp only [next,step]
    split <;> rfl
  | gossip | prune | clear => rfl
  | _ => simp [next,step,hp]

theorem Effect.nodeMap {m m' : Member} {l : Heard} (h : Effect cfg fl m l m') {x : String} {r : ℕ}
    (hx : m.table.nodeMap x = some r) : m'.table.nodeMap x = some r := by
  have hadd {e a} (ha : m.table.nodeMap a.node = none) :
      (m.addNode e a).table.nodeMap x = some r := by
    have hne : x ≠ a.node := fun he => by rw [← he,hx] at ha; cases ha
    rw [Member.addNode,Table.nodeMap_insert (by exact ha)]
    exact (Function.update_of_ne hne _ _).trans hx
  cases h with
  | created ha => exact hadd ha
  | joined ha => exact hadd ha
  | refuted e hr =>
    rw [Member.refute_eq cfg e _ (by exact hr)]
    exact hx
  | confirmed =>
    obtain ⟨q,d,h,-⟩ := Member.confirmTimer_frame fl _ _ _ m
    rw [h]
    exact hx
  | shuffled => simpa using hx
  | updating u =>
    obtain ⟨i,a,b,h⟩ := Member.updateStep_frame cfg m u
    rw [h]
    exact hx
  | _ => exact hx

theorem Effect.queue_consistent {m m' : Member} {l : Heard} (h : Effect cfg fl m l m')
    (hm : m.queue.Consistent) : m'.queue.Consistent := by
  cases h with
  | joined | accepted | replaced | suspected | buried =>
    exact BroadcastQueue.queueBroadcast_consistent hm _ 0
  | refuted e hr =>
    rw [Member.refute_eq cfg e _ (by exact hr)]
    exact BroadcastQueue.queueBroadcast_consistent hm _ 0
  | confirmed =>
    obtain ⟨q,d,h,rfl | ⟨-,rfl⟩,-⟩ := Member.confirmTimer_frame fl _ _ _ m
    · rwa [h]
    · rw [h]
      exact BroadcastQueue.queueBroadcast_consistent hm _ 0
  | updating u =>
    obtain ⟨i,a,b,h⟩ := Member.updateStep_frame cfg m u
    rwa [h]
  | queued hq => exact hq
  | _ => exact hm

theorem Effect.sound {m m' : Member} {l : Heard} (h : Effect cfg fl m l m') (hm : m.Sound cfg) :
    m'.Sound cfg :=
  ⟨hm.known.imp fun _ hr => h.nodeMap hr,h.queue_consistent hm.queue⟩

theorem Effect.leave {m m' : Member} {l : Heard} (h : Effect cfg fl m l m') :
    m'.leave = m.leave ∨ l = .nothing ∧ m' = { m with leave := true } := by
  cases h with
  | refuted e hr =>
    obtain ⟨i,a,b,t,q,h⟩ := Member.refute_frame cfg e _ (m := m.setTimer cfg.name none) hr
    rw [h]
    exact Or.inl rfl
  | confirmed =>
    obtain ⟨q,d,h,-⟩ := Member.confirmTimer_frame fl _ _ _ m
    rw [h]
    exact Or.inl rfl
  | updating u =>
    obtain ⟨i,a,b,h⟩ := Member.updateStep_frame cfg m u
    rw [h]
    exact Or.inl rfl
  | leaving => exact Or.inr ⟨rfl,rfl⟩
  | _ => exact Or.inl rfl

theorem Effect.incarnation {m m' : Member} {l : Heard} (h : Effect cfg fl m l m') :
    m.incarnation.total ≤ m'.incarnation.total := by
  cases h with
  | refuted e hr =>
    rw [Member.refute_eq cfg e _ (by exact hr)]
    exact (Member.refuteInc_spec cfg e _ (m.setTimer cfg.name none)).1
  | confirmed =>
    obtain ⟨q,d,h,-⟩ := Member.confirmTimer_frame fl _ _ _ m
    rw [h]
  | updating u => exact Member.updateSteps_total cfg [u] m
  | _ => exact le_refl _

theorem Effect.deadlocked {m m' : Member} {l : Heard} (h : Effect cfg fl m l m')
    (hm : m.deadlocked = true) : m'.deadlocked = true := by
  cases h with
  | refuted e hr =>
    obtain ⟨i,a,b,t,q,h⟩ := Member.refute_frame cfg e _ (m := m.setTimer cfg.name none) hr
    rw [h]
    exact hm
  | confirmed =>
    obtain ⟨q,d,h,-,rfl | rfl⟩ := Member.confirmTimer_frame fl _ _ _ m
    · rw [h]
      exact hm
    · rw [h]
  | updating u =>
    obtain ⟨i,a,b,h⟩ := Member.updateStep_frame cfg m u
    rw [h]
    exact hm
  | _ => exact hm

theorem Process.enters_eq (p : Process) (op : Op) :
    ∃ updates ⊆ p.member.updates, p.enters op = { p.member with updates } := by
  unfold Process.enters
  split
  · split
    · exact ⟨_,List.erase_subset,rfl⟩
    · exact ⟨_,List.Subset.refl _,rfl⟩
  · exact ⟨_,List.Subset.refl _,rfl⟩

theorem Process.enters_sound {p : Process} (hp : p.member.Sound cfg) (op : Op) :
    (p.enters op).Sound cfg := by
  obtain ⟨u,-,h⟩ := p.enters_eq op
  rw [h]
  exact ⟨hp.known,hp.queue⟩

namespace Process

theorem next_suspect (fl : Floats) {p : Process} {op : Op} {s : Suspect} {e : Env}
    (h : p.heard cfg op = .suspect s e) :
    (p.next cfg fl op).member = p.member.suspectNode cfg fl e (genSuspectBroadcast s) := by
  cases op with
  | suspect b e' => cases h; rfl
  | merge state e' =>
    cases hs : state.state <;> simp only [heard,PushNodeState.heard,hs] at h
    case stateSuspect | stateDead =>
      cases h
      simp only [next,step,act,Member.mergeState,hs]
    all_goals cases h
  | probeFail node e' =>
    simp only [heard] at h
    split at h
    · rename_i hnode
      cases h
      simp only [next,step,hnode,and_self,if_true]
      rfl
    · cases h
  | alive | dead => cases h
  | timerDead | leaveDead | updateAlive =>
    simp only [heard] at h
    split at h <;> cases h
  | _ => cases h

theorem next_dead (fl : Floats) {p : Process} {op : Op} {d : Dead} {e : Env}
    (h : p.heard cfg op = .dead d e) :
    (p.next cfg fl op).member = p.member.deadNode cfg e (genDeadBroadcast d) := by
  cases op with
  | dead b e' => cases h; rfl
  | merge state e' =>
    cases hs : state.state <;> simp only [heard,PushNodeState.heard,hs] at h
    case stateLeft =>
      cases h
      simp only [next,step,act,Member.mergeState,hs]
    all_goals cases h
  | timerDead b e' | leaveDead b e' =>
    simp only [heard] at h
    split at h
    · rename_i hb
      cases h
      simp only [next,step,hb,and_self,if_true]
      rfl
    · cases h
  | probeFail | updateAlive =>
    simp only [heard] at h
    split at h <;> cases h
  | _ => cases h

theorem next_alive (fl : Floats) {p : Process} {op : Op} {a : Alive} {e : Env}
    (h : p.heard cfg op = .alive a e) : ∃ notifyFd, (p.next cfg fl op).member =
      (p.enters op).aliveNode cfg e (genAliveBroadcast a) false notifyFd := by
  cases op with
  | alive b fd e' => cases h; exact ⟨fd,rfl⟩
  | merge state e' =>
    cases hs : state.state <;> simp only [heard,PushNodeState.heard,hs] at h
    case stateAlive =>
      cases h
      exact ⟨-1,by simp only [next,step,act,Member.mergeState,hs,enters]⟩
    all_goals cases h
  | updateAlive b fd e' =>
    simp only [heard] at h
    split at h
    · rename_i hb
      cases h
      refine ⟨fd,?_⟩
      simp only [next,step,enters,hb,and_self,if_true]
      rfl
    · cases h
  | timerDead | leaveDead | probeFail =>
    simp only [heard] at h
    split at h <;> cases h
  | _ => cases h

/-- In a deadlocked member no alive message is ever acted on. -/
theorem next_stuck {p : Process} {op : Op} {a : Alive} {e : Env}
    (h : p.heard cfg op = .alive a e) (hstuck : p.member.deadlocked = true) (x : String) :
    (p.next cfg fl op).member.find x = p.member.find x := by
  obtain ⟨notifyFd,hnext⟩ := next_alive fl h
  obtain ⟨u,-,henters⟩ := p.enters_eq op
  simp [hnext,henters,Member.aliveNode,hstuck,Member.find]

end Process

end GossipMemberlist
