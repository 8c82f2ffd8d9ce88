import GossipMemberlist.Departure
import GossipMemberlist.Deliveries
import GossipMemberlist.Runners

/-!
# A member behind its lock

The handlers of a member run in the critical sections of `nodeMutex`, and what they
do to `nodeTimers` makes them join threads there. A handler has done its work once
it has got past the join; the callback of a suspicion runs in the thread that the
others join.
-/

namespace GossipMemberlist

/-- The calls that lock `nodeMutex`: the three handlers, the search of `probe`, whatever only
reads, and `ShutDown`. -/
inductive LockedCall
  | alive (b : Broadcast) (notifyFd : ℤ) (e : Env)
  | suspect (b : Broadcast) (e : Env)
  | dead (b : Broadcast) (e : Env)
  | probe (numCheck : ℕ) (shuffled : List ℕ)
  | read
  | shutDown
  deriving DecidableEq

def LockedCall.sect : LockedCall → Section
  | .alive b _ _ => .aliveNode b.alive.node
  | .suspect b _ => .suspectNode b.suspect.node
  | .dead b _ => .deadNode b.dead.node
  | .probe _ _ | .read => .plain
  | .shutDown => .shutDown

def LockedCall.name : LockedCall → String
  | .alive b _ _ => b.alive.node
  | .suspect b _ => b.suspect.node
  | .dead b _ => b.dead.node
  | .probe _ _ | .read | .shutDown => ""

def LockedCall.apply (cfg : Config) (fl : Floats) (m : Member) : LockedCall → Member
  | .alive b notifyFd e => m.aliveNode cfg e b false notifyFd
  | .suspect b e => m.suspectNode cfg fl e b
  | .dead b e => m.deadNode cfg e b
  | .probe numCheck shuffled =>
    if m.deadlocked then m else (m.probeSection cfg numCheck shuffled).1
  | .read | .shutDown => m

/-- The call gets as far as erasing a timer of its name. -/
def LockedCall.Reaches (cfg : Config) (m : Member) : LockedCall → Prop
  | .alive b _ e => m.deadlocked = false ∧ ∃ s, m.find b.alive.node = some s ∧
      if Member.addressDiffers b.alive s then Member.canReplace cfg e.now s = true
      else s.incarnation < b.alive.incarnation
  | .dead b _ => m.deadlocked = false ∧ ∃ s, m.find b.dead.node = some s ∧
      s.incarnation ≤ b.dead.incarnation
  | _ => False

/-- What happens to a member without the lock. -/
inductive Aside
  | update (u : UpdateStep)
  | leaveSet
  | gossip (overhead limit : ℕ) (haveMsg : Bool)
  | prune (maxRetain : ℕ)
  | clear

def Aside.apply (cfg : Config) (fl : Floats) (m : Member) : Aside → Member
  | .update u => m.updateStep cfg u
  | .leaveSet => { m with leave := true }
  | .gossip overhead limit haveMsg =>
    { m with
      queue := (m.queue.getBroadcasts fl m.table.numNodes.load overhead limit haveMsg).2.2 }
  | .prune maxRetain => { m with queue := m.queue.prune maxRetain }
  | .clear => { m with queue := m.queue.clear }

/-- `doing` is the call that a thread is in. -/
structure Host where
  member : Member
  locking : Locking
  doing : Tid → LockedCall

inductive HostEvent
  | aside (o : Aside)
  | call (t : Tid) (c : LockedCall)
  | go (t : Tid) (choice : Choice) (e : Env)

def HostEvent.goOn (t : Tid) : HostEvent := .go t .go ⟨0,0,0,0,[],[]⟩

def HostEvent.handled (t : Tid) (c : LockedCall) : List HostEvent :=
  .call t c::List.replicate 4 (.goOn t)

namespace Host

section Machine

variable (cfg : Config) (fl : Floats) (enabled : Periodic → Bool)

def start (leaveFd : ℤ) (e : Env) : Host where
  member := (Member.newmemberlist cfg leaveFd).setAlive cfg e
  locking := .initial enabled
  doing _ := .read

def move (m : Move) (s : Host) : Host := { s with locking := s.locking.step enabled m }

/-- `Confirm` reads the flag of the timer that it finds. -/
def reads (s : Host) : LockedCall → Member
  | .suspect b _ =>
    match s.locking.nodeTimers b.suspect.node, s.member.nodeTimers b.suspect.node with
    | some i, some t =>
      if s.locking.running (.suspicion i) then s.member
      else s.member.setTimer b.suspect.node (some { t with running := false })
    | _, _ => s.member
  | _ => s.member

/-- What the call that leads from `m` to `m'` does to the timer of its name. -/
def choice (c : LockedCall) (m m' : Member) : Choice :=
  if m.deadlocked = false ∧ m'.deadlocked = true then .late
  else if m'.nodeTimers c.name = m.nodeTimers c.name then .go
  else .act

/-- A handler, up to the join if there is one, else up to the unlock. -/
def body (t : Tid) (s : Host) : Host :=
  let m := s.reads (s.doing t)
  let m' := (s.doing t).apply cfg fl m
  let locking := s.locking.step enabled ⟨t,choice (s.doing t) m m'⟩
  match locking.pc t with
  | .join _ _ => { s with member := m, locking }
  | _ => { s with member := m', locking }

/-- What the callback of a suspicion finds in its check. -/
def verdict (i : ℕ) (s : Host) : Option Broadcast :=
  (s.member.nodeTimers (s.locking.node i)).bind fun t => s.member.timeoutCheck cfg t.f

def check (i : ℕ) (e : Env) (s : Host) : Host :=
  match s.verdict cfg i with
  | some d =>
    { s.move enabled ⟨.suspicion i,.act⟩ with
      doing := Function.update s.doing (.suspicion i) (.dead d e) }
  | none => s.move enabled ⟨.suspicion i,.go⟩

def inside (t : Tid) (c : Section) (e : Env) (s : Host) : Host :=
  match c, t with
  | .check, .suspicion i => s.check cfg enabled i e
  | _, t => s.body cfg fl enabled t

def step (s : Host) : HostEvent → Host
  | .aside o => { s with member := o.apply cfg fl s.member }
  | .call t c =>
    if s.locking.pc t = .free ∧ t.calls c.sect then
      { s.move enabled ⟨t,.call c.sect⟩ with doing := Function.update s.doing t c }
    else s
  | .go t choice e =>
    match s.locking.pc t with
    | .free =>
      match choice with
      | .call _ => s
      | choice => s.move enabled ⟨t,choice⟩
    | .inside c => s.inside cfg fl enabled t c e
    | .join _ u =>
      if s.locking.pc u = .ended then
        { s.move enabled ⟨t,choice⟩ with member := (s.doing t).apply cfg fl s.member }
      else s
    | _ => s.move enabled ⟨t,choice⟩

def run (leaveFd : ℤ) (e : Env) (evs : List HostEvent) : Host :=
  Transitions.run (step cfg fl enabled) (start cfg enabled leaveFd e) evs

end Machine

end Host

namespace LockedCall

variable {cfg : Config} {fl : Floats} {m : Member}

theorem aliveNode_timer (hm : m.Settled cfg) {b : Broadcast} (notifyFd : ℤ) (e : Env)
    (ht : m.nodeTimers b.alive.node ≠ none) :
    let c : LockedCall := .alive b notifyFd e
    (c.Reaches cfg m ∧ (c.apply cfg fl m).nodeTimers b.alive.node = none) ∨
      ¬c.Reaches cfg m ∧ c.apply cfg fl m = m := by
  obtain ⟨t,ht⟩ := Option.ne_none_iff_exists'.mp ht
  obtain ⟨hne,s,hs,-⟩ := (hm.timed b.alive.node).episode t ht
  have hs : m.find b.alive.node = some s := hs
  have hdown (h : ¬Reaches cfg m (.alive b notifyFd e)) :
      m.aliveNode cfg e b false notifyFd = m := by
    have hexit := Member.aliveNode_exit hm.known e b notifyFd
    generalize m.aliveNode cfg e b false notifyFd = m' at hexit ⊢
    cases hexit with
    | created _ hnone =>
      simp [Member.find,Table.find,hnone] at hs
    | joined _ hnone =>
      simp [Member.find,Table.find,hnone] at hs
    | accepted hd hr _ hdiff hlt =>
      exact absurd ⟨hd,_,Table.find_eq hr,by simpa [hdiff] using hlt⟩ h
    | replaced hd hr _ hdiff hrep =>
      exact absurd ⟨hd,_,Table.find_eq hr,by simpa [hdiff] using hrep⟩ h
    | echoed _ _ hl => exact absurd hl hne
    | refuted _ _ hl => exact absurd hl hne
    | _ => rfl
  by_cases h : Reaches cfg m (.alive b notifyFd e)
  · refine Or.inl ⟨h,?_⟩
    obtain ⟨hd,s',hs',htest⟩ := h
    have hexit := Member.aliveNode_exit hm.known e b notifyFd
    show (m.aliveNode cfg e b false notifyFd).nodeTimers b.alive.node = none
    generalize m.aliveNode cfg e b false notifyFd = m' at hexit ⊢
    have hrecord {r : ℕ} (hr : m.table.nodeMap b.alive.node = some r) : m.table.heap r = s' :=
      Option.some.inj ((Table.find_eq hr).symm.trans hs')
    cases hexit with
    | blocked h => rw [hd] at h; cases h
    | created _ hnone => simp [Member.find,Table.find,hnone] at hs
    | joined _ hnone => simp [Member.find,Table.find,hnone] at hs
    | leaving _ hl => exact absurd hl hne
    | conflict _ hr hdiff hrep =>
      rw [hrecord hr] at hdiff hrep
      rw [if_pos hdiff,hrep] at htest
      cases htest
    | stale _ hr _ hdiff hle =>
      rw [hrecord hr] at hdiff hle
      rw [if_neg (by simp [hdiff])] at htest
      omega
    | accepted => simp [Member.acceptAlive,Member.broadcastNotify,Member.modify,Member.setTimer]
    | replaced => simp [Member.acceptAlive,Member.broadcastNotify,Member.modify,Member.setTimer]
    | staleLocal _ _ hl => exact absurd hl hne
    | echoed _ _ hl => exact absurd hl hne
    | refuted _ _ hl => exact absurd hl hne
  · exact Or.inr ⟨h,hdown h⟩

theorem deadNode_timer (hm : m.Settled cfg) {b : Broadcast} (e : Env)
    (ht : m.nodeTimers b.dead.node ≠ none) :
    let c : LockedCall := .dead b e
    (c.Reaches cfg m ∧ (c.apply cfg fl m).nodeTimers b.dead.node = none) ∨
      ¬c.Reaches cfg m ∧ c.apply cfg fl m = m := by
  obtain ⟨t,ht⟩ := Option.ne_none_iff_exists'.mp ht
  obtain ⟨hne,s,hs,hsuspect,-⟩ := (hm.timed b.dead.node).episode t ht
  have hs : m.find b.dead.node = some s := hs
  have hexit : Member.DeadExit cfg e b.dead m (m.deadNode cfg e b) := Member.deadNode_exit m e b
  have happly : apply cfg fl m (.dead b e) = m.deadNode cfg e b := rfl
  intro c
  rw [happly]
  generalize m.deadNode cfg e b = m' at hexit ⊢
  have hrecord {r : ℕ} (hr : m.table.nodeMap b.dead.node = some r) : m.table.heap r = s :=
    Option.some.inj ((Table.find_eq hr).symm.trans hs)
  cases hexit with
  | blocked hd =>
    refine Or.inr ⟨fun h => ?_,rfl⟩
    obtain ⟨hfree,-⟩ := h
    rw [hd] at hfree
    cases hfree
  | unknown _ hnone => simp [Member.find,Table.find,hnone] at hs
  | stale _ hr hlt =>
    refine Or.inr ⟨?_,rfl⟩
    rintro ⟨-,s',hs',hle⟩
    rw [hrecord hr] at hlt
    cases hs.symm.trans hs'
    omega
  | settled _ hr _ hgone =>
    rw [hrecord hr] at hgone
    simp [NodeState.deadOrLeft,hsuspect] at hgone
  | refuted _ _ hl => exact absurd hl hne
  | buried hd hr hle =>
    refine Or.inl ⟨⟨hd,_,Table.find_eq hr,hle⟩,?_⟩
    simp [Member.acceptDead,Member.broadcastNotify,Member.modify,Member.setTimer]

end LockedCall

namespace Host

variable {cfg : Config} {fl : Floats} {enabled : Periodic → Bool}

/-- The steps of a process that come to the same. -/
theorem apply_process (cfg : Config) (fl : Floats) (c : LockedCall) (p : Process) :
    ∃ ops, (Transitions.run (Process.next cfg fl) p ops).member = c.apply cfg fl p.member := by
  cases c with
  | alive b notifyFd e => exact ⟨[.alive b notifyFd e],rfl⟩
  | suspect b e => exact ⟨[.suspect b e],rfl⟩
  | dead b e => exact ⟨[.dead b e],rfl⟩
  | probe numCheck shuffled =>
    refine ⟨[.probe numCheck shuffled],?_⟩
    simp only [Transitions.run_cons,Transitions.run_nil,Process.next,Process.step,Process.probe,
      LockedCall.apply]
    split <;> rfl
  | _ => exact ⟨[],rfl⟩

theorem aside_process (cfg : Config) (fl : Floats) (o : Aside) (p : Process) :
    ∃ ops, (Transitions.run (Process.next cfg fl) p ops).member = o.apply cfg fl p.member := by
  cases o with
  | update u => exact ⟨[.update u],rfl⟩
  | leaveSet =>
    cases hl : p.member.leave with
    | true => exact ⟨[],by simp [Aside.apply,← hl]⟩
    | false =>
      refine ⟨[.leaveTest,.leaveSet],?_⟩
      simp [Process.next,Process.step,Process.leaveSet,hl,Aside.apply]
  | gossip overhead limit haveMsg => exact ⟨[.gossip overhead limit haveMsg],rfl⟩
  | prune maxRetain => exact ⟨[.prune maxRetain],rfl⟩
  | clear => exact ⟨[.clear],rfl⟩

theorem reads_process (cfg : Config) (fl : Floats) (s : Host) (c : LockedCall) (p : Process)
    (hp : p.member = s.member) :
    ∃ ops, (Transitions.run (Process.next cfg fl) p ops).member = s.reads c := by
  cases c with
  | suspect b e =>
    simp only [reads]
    split
    · rename_i i t hi ht
      split
      · exact ⟨[],hp⟩
      · refine ⟨[.timerEnd b.suspect.node],?_⟩
        simp [Process.next,Process.step,Process.act,hp,ht]
    · exact ⟨[],hp⟩
  | _ => exact ⟨[],hp⟩

theorem body_process (s : Host) (t : Tid) (p : Process) (hp : p.member = s.member) :
    ∃ ops, (Transitions.run (Process.next cfg fl) p ops).member =
      (s.body cfg fl enabled t).member := by
  obtain ⟨ops,hops⟩ := reads_process cfg fl s (s.doing t) p hp
  obtain ⟨more,hmore⟩ := apply_process cfg fl (s.doing t)
    (Transitions.run (Process.next cfg fl) p ops)
  rw [hops] at hmore
  simp only [body]
  split
  · exact ⟨ops,hops⟩
  · exact ⟨ops ++ more,by rw [Transitions.run_append,hmore]⟩

/-- The threads and the joins only take runs away: the member goes through states of a process. -/
theorem step_process (s : Host) (ev : HostEvent) (p : Process) (hp : p.member = s.member) :
    ∃ ops, (Transitions.run (Process.next cfg fl) p ops).member =
      (s.step cfg fl enabled ev).member := by
  cases ev with
  | aside o =>
    obtain ⟨ops,h⟩ := aside_process cfg fl o p
    exact ⟨ops,by rw [h,hp]; rfl⟩
  | call t c =>
    refine ⟨[],?_⟩
    simp only [step]
    split <;> exact hp
  | go t choice e =>
    simp only [step]
    split
    · refine ⟨[],?_⟩
      split <;> exact hp
    · simp only [inside]
      split
      · refine ⟨[],?_⟩
        simp only [check]
        split <;> exact hp
      · exact body_process s t p hp
    · split
      · obtain ⟨ops,h⟩ := apply_process cfg fl (s.doing t) p
        exact ⟨ops,by rw [h,hp]⟩
      · exact ⟨[],hp⟩
    · exact ⟨[],hp⟩

theorem run_process (cfg : Config) (fl : Floats) (enabled : Periodic → Bool) (leaveFd : ℤ)
    (e : Env) (evs : List HostEvent) :
    ∃ ops, (Process.run cfg fl leaveFd e ops).member =
      (run cfg fl enabled leaveFd e evs).member := by
  refine Transitions.run_invariant (P := fun s : Host =>
    ∃ ops, (Process.run cfg fl leaveFd e ops).member = s.member) ⟨[],rfl⟩ ?_ evs
  rintro s ev ⟨ops,h⟩
  obtain ⟨more,hmore⟩ := step_process s ev _ h
  exact ⟨ops ++ more,by rw [Process.run,Transitions.run_append]; exact hmore⟩

theorem run_settled (cfg : Config) (fl : Floats) (enabled : Periodic → Bool) (leaveFd : ℤ)
    (e : Env) (evs : List HostEvent) : (run cfg fl enabled leaveFd e evs).member.Settled cfg := by
  obtain ⟨ops,h⟩ := run_process cfg fl enabled leaveFd e evs
  rw [← h]
  exact Process.run_settled cfg fl leaveFd e ops

/-- The threads move as they do without the records. -/
theorem step_locking (s : Host) (ev : HostEvent) :
    (s.step cfg fl enabled ev).locking = s.locking ∨
      ∃ m, (s.step cfg fl enabled ev).locking = s.locking.step enabled m := by
  cases ev with
  | aside o => exact Or.inl rfl
  | call t c =>
    simp only [step]
    split
    · exact Or.inr ⟨_,rfl⟩
    · exact Or.inl rfl
  | go t choice e =>
    simp only [step]
    split
    · split
      · exact Or.inl rfl
      · exact Or.inr ⟨_,rfl⟩
    · simp only [inside]
      split
      · simp only [check]
        split <;> exact Or.inr ⟨_,rfl⟩
      · simp only [body]
        split <;> exact Or.inr ⟨_,rfl⟩
    · split
      · exact Or.inr ⟨_,rfl⟩
      · exact Or.inl rfl
    · exact Or.inr ⟨_,rfl⟩

theorem run_locking (s : Host) (evs : List HostEvent) :
    ∃ ms, (Transitions.run (step cfg fl enabled) s evs).locking =
      Transitions.run (Locking.step enabled) s.locking ms := by
  refine Transitions.run_invariant (P := fun s' : Host =>
    ∃ ms, s'.locking = Transitions.run (Locking.step enabled) s.locking ms) ⟨[],rfl⟩ ?_ evs
  rintro s' ev ⟨ms,h⟩
  rcases step_locking s' ev with he | ⟨m,he⟩
  · exact ⟨ms,he.trans h⟩
  · exact ⟨ms ++ [m],by rw [he,h,Transitions.run_snoc]⟩

end Host

end GossipMemberlist
