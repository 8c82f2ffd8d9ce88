import GossipMemberlist.Timers

/-!
# When a record took its state

Every place that writes `State` also writes the clock into `StateChange`, except
the constructor of a record. An alive message with incarnation zero about an
unknown name is turned down after its record has been made, and that record keeps
what the memory happened to hold; in runs without one no such byte is ever read.
-/

namespace GossipMemberlist

variable {cfg : Config} {fl : Floats}

/-- The clock reading that the handler of a message puts into `StateChange`. -/
def Heard.stamp : Heard → Option ℤ
  | .alive _ e => some e.later
  | .suspect _ e | .dead _ e => some e.now
  | .nothing => none

/-- The messages and clock readings of a call, without the unwritten memory. -/
def Env.written (e : Env) : Env := { e with mem := 0 }

def Member.gossipExcludes (cfg : Config) (gossipToTheDeadTime now : ℤ) (s : NodeState) : Bool :=
  if s.n.name = cfg.name then true
  else match s.state with
    | .stateAlive | .stateSuspect => false
    | .stateDead => gossipToTheDeadTime ≤ now - s.stateChange
    | .stateLeft => true

namespace Op

def written : Op → Op
  | .alive b notifyFd e => .alive b notifyFd e.written
  | .suspect b e => .suspect b e.written
  | .dead b e => .dead b e.written
  | .merge state e => .merge state e.written
  | .timerDead b e => .timerDead b e.written
  | .probeFail node e => .probeFail node e.written
  | .updateAlive b notifyFd e => .updateAlive b notifyFd e.written
  | .leaveDead b e => .leaveDead b e.written
  | op => op

end Op

namespace Process

/-- The step makes the record of `x` or gives it another state. -/
def Takes (cfg : Config) (fl : Floats) (x : String) (p : Process) (op : Op) : Prop :=
  ((p.next cfg fl op).member.find x).map (·.state) ≠ (p.member.find x).map (·.state)

instance (x : String) (p : Process) (op : Op) : Decidable (Takes cfg fl x p op) :=
  inferInstanceAs (Decidable (_ ≠ _))

/-- The clock reading of the last step of a run in which `x` took its state; `t` is
that of the past before the run. -/
def lastTaken (cfg : Config) (fl : Floats) (x : String) : Process → Option ℤ → List Op → Option ℤ
  | _, t, [] => t
  | p, t, op::ops =>
    lastTaken cfg fl x (p.next cfg fl op)
      (if Takes cfg fl x p op then (p.heard cfg op).stamp else t) ops

/-- The reading of the clock that `StateChange` should hold for `x` after a run. -/
def takenAt (cfg : Config) (fl : Floats) (leaveFd : ℤ) (e : Env) (ops : List Op) (x : String) :
    Option ℤ :=
  lastTaken cfg fl x (start cfg leaveFd e) (if x = cfg.name then some e.later else none) ops

/-- Every record is stamped with the clock of the step in which it took its state. -/
def Stamped (cfg : Config) (fl : Floats) (leaveFd : ℤ) (e : Env) (ops : List Op) : Prop :=
  let t := (run cfg fl leaveFd e ops).member.table
  ∀ r ∈ t.nodes, takenAt cfg fl leaveFd e ops (t.heap r).n.name = some (t.heap r).stateChange

/-- The step delivers an alive message with incarnation zero about an unknown name. -/
def Blank (cfg : Config) (p : Process) (op : Op) : Prop :=
  p.member.deadlocked = false ∧ ∃ a e, p.heard cfg op = .alive a e ∧
    p.member.table.nodeMap a.node = none ∧ a.incarnation = 0

end Process

theorem CellStep.stamp {x : String} {leave : Bool} {lo hi : ℕ} {c c' : Cell} {l : Heard}
    (h : CellStep cfg fl x leave lo hi c c' l)
    (hblank : ∀ a e, l = .alive a e → a.node = x → c.record = none → a.incarnation ≠ 0)
    {s' : NodeState} (hs' : c'.record = some s') :
    (∃ s, c.record = some s ∧ s.state = s'.state ∧ s.stateChange = s'.stateChange) ∨
      c.record.map (·.state) ≠ some s'.state ∧ l.stamp = some s'.stateChange := by
  have hkeep : c'.record = c.record →
      ∃ s, c.record = some s ∧ s.state = s'.state ∧ s.stateChange = s'.stateChange := fun hr =>
    ⟨s',hr.symm.trans hs',rfl,rfl⟩
  have halive {a : Alive} {e : Env} {s : NodeState} {R : Set Broadcast} (hr : c.record = some s)
      (hc : c'.Becomes (some (Member.aliveRecord a e.later s)) none R) :
      (∃ s, c.record = some s ∧ s.state = s'.state ∧ s.stateChange = s'.stateChange) ∨
        c.record.map (·.state) ≠ some s'.state ∧
          (Heard.alive a e).stamp = some s'.stateChange := by
    cases hc.record_eq.symm.trans hs'
    by_cases hs : s.state = .stateAlive
    · exact Or.inl ⟨s,hr,hs,by simp [Member.aliveRecord,hs]⟩
    · exact Or.inr ⟨by simp [hr,Member.aliveRecord,hs],by simp [Heard.stamp,Member.aliveRecord,hs]⟩
  cases h with
  | kept h => exact Or.inl (hkeep h.record_eq)
  | disarmed _ _ h => exact Or.inl (hkeep h.record_eq)
  | ended _ h => exact Or.inl (hkeep h.record_eq)
  | confirmed _ _ _ _ h => exact Or.inl (hkeep (h.elim (·.record_eq) (·.2.record_eq)))
  | created hnone ha _ hinc => exact absurd hinc (hblank _ _ rfl ha hnone)
  | joined hnone _ _ _ h =>
    cases h.record_eq.symm.trans hs'
    exact Or.inr ⟨by simp [hnone],by simp [Heard.stamp,Member.aliveRecord,Member.newNodeState]⟩
  | accepted hr _ _ _ _ h => exact halive hr h
  | replaced hr _ _ _ _ h => exact halive hr h
  | @refuted _ s _ _ hr _ _ _ _ _ _ h =>
    cases h.record_eq.symm.trans hs'
    exact Or.inl ⟨s,hr,rfl,rfl⟩
  | suspected hr _ _ _ _ hs h =>
    cases h.record_eq.symm.trans hs'
    exact Or.inr ⟨by simp [hr,hs,Member.suspectRecord],rfl⟩
  | @buried d e s hr _ _ hdead _ h =>
    cases h.record_eq.symm.trans hs'
    refine Or.inr ⟨fun hs => ?_,rfl⟩
    have hs : s.state = (Member.deadRecord d e.now s).state := by simpa [hr] using hs
    simp only [NodeState.deadOrLeft,hs,Member.deadRecord] at hdead
    split at hdead <;> simp at hdead

namespace Member

theorem join_eq {m : Member} {e : Env} {a : Alive} (h : m.table.nodeMap a.node = none)
    (notifyFd : ℤ) :
    ((m.addNode e a).setTimer a.node none).acceptAlive e a notifyFd m.table.next =
      { m with
        table := m.table.insert e.rand (aliveRecord a e.later (newNodeState e a))
        nodeTimers := Function.update m.nodeTimers a.node none
        queue := m.queue.queueBroadcast ⟨a.node,genAliveBroadcast a,notifyFd⟩ 0 } := by
  rw [← Table.modify_insert (by exact h) e.rand (aliveRecord a e.later) fun _ => rfl]
  rfl

theorem join_written {m : Member} {e : Env} {a : Alive} (h : m.table.nodeMap a.node = none)
    (notifyFd : ℤ) :
    ((m.addNode e.written a).setTimer a.node none).acceptAlive e.written a notifyFd m.table.next =
      ((m.addNode e a).setTimer a.node none).acceptAlive e a notifyFd m.table.next := by
  rw [join_eq h,join_eq h]
  rfl

theorem aliveNode_written {m : Member} (hm : m.Sound cfg) {e : Env} {b : Broadcast}
    (hblank : m.deadlocked = false → m.table.nodeMap b.alive.node = none →
      b.alive.incarnation ≠ 0) (notifyFd : ℤ) :
    m.aliveNode cfg e.written b false notifyFd = m.aliveNode cfg e b false notifyFd := by
  cases hd : m.deadlocked with
  | true => simp [aliveNode,hd]
  | false =>
    cases hr : m.table.nodeMap b.alive.node with
    | some r =>
      simp only [aliveNode,hd,hr]
      rfl
    | none =>
      have hne : b.alive.node ≠ cfg.name := hm.ne_of_unknown hr
      have hinc : ¬b.alive.incarnation ≤ 0 := by have := hblank hd hr; omega
      have hjoin (e : Env) : m.aliveNode cfg e b false notifyFd =
          ((m.addNode e b.alive).setTimer b.alive.node none).acceptAlive e b.alive notifyFd
            m.table.next := by
        have hheap : (m.addNode e b.alive).table.heap m.table.next = newNodeState e b.alive :=
          Table.heap_insert hr _
        simp [aliveNode,hd,hr,aliveKnown,hheap,newNodeState,hne,hinc]
      rw [hjoin,hjoin,join_written hr]

theorem mergeState_written (fl : Floats) {m : Member} (hm : m.Sound cfg) {e : Env}
    {state : PushNodeState}
    (hblank : m.deadlocked = false → ∀ a, state.heard cfg e = .alive a e →
      m.table.nodeMap a.node = none → a.incarnation ≠ 0) :
    m.mergeState cfg fl e.written state = m.mergeState cfg fl e state := by
  cases hs : state.state <;> simp only [mergeState,hs]
  case stateAlive =>
    refine aliveNode_written hm (fun hd => hblank hd _ ?_) (-1)
    simp [PushNodeState.heard,hs]
  all_goals rfl

end Member

namespace Process

/-- Unless a step makes a blank record, the unwritten memory does not matter to it. -/
theorem next_written {p : Process} (hp : p.member.Sound cfg) {op : Op} (hop : ¬Blank cfg p op) :
    p.next cfg fl op.written = p.next cfg fl op := by
  have hblank : p.member.deadlocked = false → ∀ a e, p.heard cfg op = .alive a e →
      p.member.table.nodeMap a.node = none → a.incarnation ≠ 0 := fun hd a e hl hr hinc =>
    hop ⟨hd,a,e,hl,hr,hinc⟩
  cases op with
  | alive b notifyFd e =>
    have h := Member.aliveNode_written hp (e := e) (fun hd => hblank hd b.alive e rfl) notifyFd
    simp only [Op.written,next,step,act,h]
  | merge state e =>
    have h := Member.mergeState_written fl hp (e := e) fun hd a => hblank hd a e
    simp only [Op.written,next,step,act,h]
  | updateAlive b notifyFd e =>
    by_cases hb : b ∈ p.member.updates ∧ p.member.deadlocked = false
    · have h := Member.aliveNode_written (m := p.member.takeUpdate b) (e := e)
        ⟨hp.known,hp.queue⟩ (fun hd => hblank hd b.alive e (by simp [heard,hb])) notifyFd
      simp only [Op.written,next,step,act,h]
    · simp only [Op.written,next,step,if_neg hb]
  | _ => rfl

theorem start_written (cfg : Config) (leaveFd : ℤ) (e : Env) :
    start cfg leaveFd e.written = start cfg leaveFd e := by
  let m : Member := { Member.newmemberlist cfg leaveFd with incarnation := ⟨1⟩ }
  have h : (start cfg leaveFd e.written).member = (start cfg leaveFd e).member := by
    rw [start_member,start_member]
    exact Member.join_written (m := m) (a := firstAlive cfg) rfl (-1)
  simpa [start] using h

/-- The stamps that a past accounts for stay accounted for. -/
theorem next_stamp {p : Process} (hp : p.member.Sound cfg) {op : Op} (hop : ¬Blank cfg p op)
    {x : String} {t : Option ℤ}
    (ht : ∀ s, p.member.find x = some s → t = some s.stateChange) {s' : NodeState}
    (hs' : (p.next cfg fl op).member.find x = some s') :
    (if Takes cfg fl x p op then (p.heard cfg op).stamp else t) = some s'.stateChange := by
  obtain ⟨hcell,-⟩ := next_cellStep fl hp op x
  cases hd : p.member.deadlocked with
  | true =>
    have hsame : (p.next cfg fl op).member.find x = p.member.find x := by
      rw [Member.find,next_locked hd op,Member.find]
    have hkeep : ¬Takes cfg fl x p op := by simp [Takes,hsame]
    rw [if_neg hkeep,ht s' (hsame ▸ hs')]
  | false =>
    have h := hcell.stamp (fun a e hl ha hnone hinc =>
      hop ⟨hd,a,e,hl,ha ▸ Table.find_eq_none.mp hnone,hinc⟩) hs'
    rcases h with ⟨s,hs,hstate,hchange⟩ | ⟨hne,hstamp⟩
    · have hkeep : ¬Takes cfg fl x p op := by
        have hs : p.member.find x = some s := hs
        simp [Takes,hs,hs',hstate]
      rw [if_neg hkeep,ht s hs,hchange]
    · have htakes : Takes cfg fl x p op := by
        rw [Takes,hs']
        exact hne.symm
      rw [if_pos htakes,hstamp]

theorem lastTaken_eq {ops : List Op} {p : Process} (hp : p.member.Sound cfg)
    (hops : Transitions.Along (next cfg fl) (fun p op => ¬Blank cfg p op) p ops) {x : String}
    {t : Option ℤ} (ht : ∀ s, p.member.find x = some s → t = some s.stateChange) {s : NodeState}
    (hs : (Transitions.run (next cfg fl) p ops).member.find x = some s) :
    lastTaken cfg fl x p t ops = some s.stateChange := by
  induction ops generalizing p t with
  | nil => exact ht s hs
  | cons op ops ih =>
    exact ih (next_sound hp op) hops.2 (fun _ hs' => next_stamp hp hops.1 ht hs') hs

theorem run_written {ops : List Op} {p : Process} (hp : p.member.Sound cfg)
    (hops : Transitions.Along (next cfg fl) (fun p op => ¬Blank cfg p op) p ops) :
    Transitions.run (next cfg fl) p (ops.map Op.written) = Transitions.run (next cfg fl) p ops := by
  induction ops generalizing p with
  | nil => rfl
  | cons op ops ih =>
    rw [List.map_cons,Transitions.run_cons,Transitions.run_cons,next_written hp hops.1]
    exact ih (next_sound hp op) hops.2

/-- As long as no blank record is made, every record carries the clock reading of the
step in which it took its state, and the unwritten memory decides nothing: what the
member is, and so every test on a stamp, follows from the messages and the clock. -/
theorem run_stamped (cfg : Config) (fl : Floats) (leaveFd : ℤ) (e : Env) (ops : List Op)
    (hops : Transitions.Along (next cfg fl) (fun p op => ¬Blank cfg p op) (start cfg leaveFd e)
      ops) :
    Stamped cfg fl leaveFd e ops ∧
      run cfg fl leaveFd e.written (ops.map Op.written) = run cfg fl leaveFd e ops := by
  have hsound := start_sound cfg leaveFd e
  constructor
  · intro r hr
    refine lastTaken_eq hsound hops (fun s hs => ?_) (Table.find_eq (Table.nodeMap_of_mem hr))
    obtain ⟨hlocal,hothers⟩ := start_cell cfg leaveFd e
    split
    · rename_i hx
      cases (hx ▸ hs).symm.trans hlocal.record_eq
      rfl
    · rename_i hx
      cases hs.symm.trans (hothers _ hx).record_eq
  · rw [run,start_written]
    exact run_written hsound hops

theorem run_stamped_suspect :
    let ops : List Op := [.alive (genAliveBroadcast ⟨1,"b","10.0.0.2",6666⟩) (-1) ⟨0,7,1,2,[],[]⟩,
      .suspect (genSuspectBroadcast ⟨1,"b","c"⟩) ⟨0,7,3,4,[],[]⟩]
    Stamped (defaultLANConfig "node") .small 3 ⟨0,7,0,0,[],[]⟩ ops ∧
      run (defaultLANConfig "node") .small 3 ⟨0,0,0,0,[],[]⟩ (ops.map Op.written) =
        run (defaultLANConfig "node") .small 3 ⟨0,7,0,0,[],[]⟩ ops := by
  intro ops
  refine run_stamped (defaultLANConfig "node") .small 3 ⟨0,7,0,0,[],[]⟩ ops ⟨?_,?_,trivial⟩
  · rintro ⟨-,_,_,⟨⟩,-,⟨⟩⟩
  · rintro ⟨-,_,_,⟨⟩,-⟩

/-- The record of `b` has no number yet and is turned down: with the same messages at the
same times, what its memory held decides whether another node gets the name, and
whether `b` is gossiped to. -/
theorem blank_record_unstamped :
    let node := defaultLANConfig "node"
    let e : Env := ⟨0,0,0,0,[],[]⟩
    let blank (mem : ℤ) : Op :=
      .alive (genAliveBroadcast ⟨0,"b","10.0.0.2",6666⟩) (-1) ⟨0,mem,5,6,[],[]⟩
    let reclaim : Op :=
      .alive (genAliveBroadcast ⟨1,"b","10.0.0.7",6666⟩) (-1) ⟨0,0,20000000,20000001,[],[]⟩
    let find (ops : List Op) := (run node .small 3 e ops).member.find "b"
    let excluded (mem : ℤ) := (find [blank mem]).map (Member.gossipExcludes node 30000000 20000000)
    ¬Stamped node .small 3 e [blank 0] ∧
      find [blank 0,reclaim] = some ⟨⟨"b","10.0.0.7",6666⟩,1,.stateAlive,20000001⟩ ∧
      find [blank 15000000,reclaim] = some ⟨⟨"b","10.0.0.2",6666⟩,0,.stateDead,15000000⟩ ∧
      excluded (-15000000) = some true ∧ excluded 15000000 = some false := by
  refine ⟨fun h => ?_,?_,?_,?_,?_⟩
  · have h := h 1 (by decide +kernel)
    revert h
    decide +kernel
  all_goals decide +kernel

end Process

end GossipMemberlist
