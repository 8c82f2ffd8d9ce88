import GossipMemberlist.Cell
import GossipMemberlist.Library.Sweep
import Mathlib.Data.List.Nodup

/-!
# Rounds of probing

`probe` reads a record under the lock and moves its cursor without it, and the
same after a shuffle. Other threads run in between and store newcomers at random
places, so a round is a sweep over a vector that grows.
-/

namespace GossipMemberlist

/-- Where the thread is that calls `probe`: outside, at `START`, between a shuffle and the
reset of the cursor, past the lock with a copy of the record `r`, or in `probeNode`. -/
inductive ProbeStage
  | idle
  | searching (numCheck : ℕ)
  | wrapping (numCheck : ℕ)
  | copied (numCheck r : ℕ) (node : NodeState)
  | probing (r : ℕ) (node : NodeState)
  deriving DecidableEq

structure Prober where
  process : Process
  stage : ProbeStage

inductive ProbeOp
  | call
  | check (shuffled : List ℕ)
  | reset | advance | probed
  | other (op : Op)

def Op.isProbe : Op → Bool
  | .probe _ _ => true
  | _ => false

variable {cfg : Config} {fl : Floats}

namespace Prober

/-- The local node and those known to be gone are skipped. -/
def skips (cfg : Config) (node : NodeState) : Bool := node.n.name = cfg.name ∨ node.deadOrLeft

/-- A single thread calls `probe`, so no other thread's step does. -/
def step (cfg : Config) (fl : Floats) (p : Prober) : ProbeOp → Prober
  | .call =>
    match p.stage with
    | .idle => { p with stage := .searching 0 }
    | _ => p
  | .check shuffled =>
    match p.stage, p.process.member.deadlocked with
    | .searching numCheck, false =>
      let m := p.process.member
      if m.table.nodes.length ≤ numCheck then { p with stage := .idle }
      else match m.table.nodes[m.probeIndex]? with
        | none =>
          ⟨p.process.act fun m => { m with table := m.table.shuffle shuffled },.wrapping numCheck⟩
        | some r => { p with stage := .copied numCheck r (m.table.heap r) }
    | _, _ => p
  | .reset =>
    match p.stage with
    | .wrapping numCheck =>
      ⟨p.process.act fun m => { m with probeIndex := 0 },.searching (numCheck + 1)⟩
    | _ => p
  | .advance =>
    match p.stage with
    | .copied numCheck r node =>
      let process := p.process.act fun m => { m with probeIndex := m.probeIndex + 1 }
      if skips cfg node then ⟨process,.searching (numCheck + 1)⟩
      else ⟨{ process with probing := node::process.probing },.probing r node⟩
    | _ => p
  | .probed =>
    match p.stage with
    | .probing _ _ => { p with stage := .idle }
    | _ => p
  | .other op => if op.isProbe then p else { p with process := p.process.next cfg fl op }

def run (cfg : Config) (fl : Floats) (leaveFd : ℤ) (e : Env) (ops : List ProbeOp) : Prober :=
  Transitions.run (step cfg fl) ⟨.start cfg leaveFd e,.idle⟩ ops

/-- A section of `probe` that nobody interrupts is the atomic one. -/
theorem section_atomic (cfg : Config) (fl : Floats) (numCheck : ℕ) (shuffled : List ℕ)
    (p : Process) :
    (Transitions.run (step cfg fl) ⟨p,.searching numCheck⟩
      [.check shuffled,.reset,.advance]).process = p.probe cfg numCheck shuffled := by
  cases hd : p.member.deadlocked with
  | true => simp [step,Process.probe,hd]
  | false =>
    by_cases hlen : p.member.table.nodes.length ≤ numCheck
    · simp [step,Process.probe,Member.probeSection,hd,hlen]
    · cases hr : p.member.table.nodes[p.member.probeIndex]? with
      | none => simp [step,Process.probe,Member.probeSection,hd,hlen,hr,Process.act]
      | some r =>
        by_cases hskip : skips cfg (p.member.table.heap r) = true
        · have h : (p.member.table.heap r).n.name = cfg.name ∨
              (p.member.table.heap r).deadOrLeft = true := by simpa [skips] using hskip
          simp [step,Process.probe,Member.probeSection,hd,hlen,hr,hskip,h,Process.act]
        · have h : ¬((p.member.table.heap r).n.name = cfg.name ∨
              (p.member.table.heap r).deadOrLeft = true) := by simpa [skips] using hskip
          simp [step,Process.probe,Member.probeSection,hd,hlen,hr,hskip,h,Process.act]

def reads (p : Prober) : Option ℕ :=
  match p.stage, p.process.member.deadlocked with
  | .searching numCheck, false =>
    if p.process.member.table.nodes.length ≤ numCheck then none
    else p.process.member.table.nodes[p.process.member.probeIndex]?
  | _, _ => none

def examines (r : ℕ) (p : Prober) : ProbeOp → Bool
  | .check _ => p.reads = some r
  | _ => false

/-- It reads `r`, which is neither the local record nor known to be gone. -/
def examinesEligible (cfg : Config) (r : ℕ) (p : Prober) (op : ProbeOp) : Bool :=
  p.examines r op ∧ skips cfg (p.process.member.table.heap r) = false

def probes (cfg : Config) (r : ℕ) (p : Prober) : ProbeOp → Bool
  | .advance =>
    match p.stage with
    | .copied _ r' node => r' = r ∧ skips cfg node = false
    | _ => false
  | _ => false

def Wraps (p : Prober) : ProbeOp → Prop
  | .check _ => p.process.member.deadlocked = false ∧
      p.process.member.table.nodes.length ≤ p.process.member.probeIndex ∧
      ∃ numCheck < p.process.member.table.nodes.length, p.stage = .searching numCheck
  | _ => False

instance Wraps.decidable (p : Prober) : ∀ op, Decidable (p.Wraps op)
  | .check _ => inferInstanceAs (Decidable (_ ∧ _ ∧ _))
  | .call | .reset | .advance | .probed | .other _ => isFalse id

/-- Where a newcomer is stored, and its record, if the step stores one. -/
def places (cfg : Config) (p : Prober) : ProbeOp → Option (ℕ × ℕ)
  | .other op =>
    match p.process.heard cfg op with
    | .alive a e =>
      if p.process.member.deadlocked = false ∧ p.process.member.table.nodeMap a.node = none then
        some (e.rand,p.process.member.table.next)
      else none
    | _ => none
  | _ => none

end Prober

def Member.SameRound (m m' : Member) : Prop :=
  m'.table.nodes = m.table.nodes ∧ m'.probeIndex = m.probeIndex

namespace Member

theorem SameRound.refl (m : Member) : m.SameRound m := ⟨rfl,rfl⟩

theorem SameRound.refute (cfg : Config) {x : String} {m : Member} {r : ℕ}
    (hr : m.table.nodeMap x = some r) (e : Env) (accusedInc : ℕ) :
    m.SameRound (m.refute cfg e r accusedInc) := by
  rw [refute_eq cfg e accusedInc hr]
  obtain ⟨i,a,b,h⟩ := refuteInc_frame cfg e accusedInc m
  have hindex : (m.refuteInc cfg e accusedInc).1.probeIndex = m.probeIndex := by rw [h]
  exact ⟨rfl,hindex⟩

theorem SameRound.insert {m m' : Member} {e : Env} {a : Alive}
    (hnone : m.table.nodeMap a.node = none) (h : (m.addNode e a).SameRound m') :
    m'.table.nodes = OrderedList.placeAt e.rand m.table.next m.table.nodes ∧
      m'.probeIndex = m.probeIndex := by
  refine ⟨h.1.trans ?_,h.2⟩
  simp [addNode,Table.insert,newNodeState,hnone]

theorem aliveNode_nodes {m : Member} (hm : m.Sound cfg) (e : Env) (b : Broadcast) (notifyFd : ℤ) :
    let m' := m.aliveNode cfg e b false notifyFd
    (m'.table.nodes = if m.deadlocked = false ∧ m.table.nodeMap b.alive.node = none then
        OrderedList.placeAt e.rand m.table.next m.table.nodes else m.table.nodes) ∧
      m'.probeIndex = m.probeIndex := by
  intro m'
  have hkeep (h : m.SameRound m')
      (hold : m.deadlocked = true ∨ m.table.nodeMap b.alive.node ≠ none) :
      (m'.table.nodes = if m.deadlocked = false ∧ m.table.nodeMap b.alive.node = none then
        OrderedList.placeAt e.rand m.table.next m.table.nodes else m.table.nodes) ∧
      m'.probeIndex = m.probeIndex := by
    rw [if_neg]
    · exact h
    · rintro ⟨hd,hnone⟩
      rcases hold with h | h
      · rw [hd] at h
        cases h
      · exact h hnone
  have hknown {r : ℕ} (hr : m.table.nodeMap b.alive.node = some r) :
      m.deadlocked = true ∨ m.table.nodeMap b.alive.node ≠ none :=
    Or.inr (by rw [hr]; exact Option.some_ne_none r)
  have h : AliveExit cfg e b.alive notifyFd m m' := aliveNode_exit hm.known e b notifyFd
  generalize m' = m' at h hkeep ⊢
  cases h with
  | blocked hd => exact hkeep (.refl m) (Or.inl hd)
  | leaving _ hl =>
    obtain ⟨r,hr⟩ := hm.known
    exact hkeep (.refl m) (hknown (hl ▸ hr))
  | created hd hnone =>
    rw [if_pos ⟨hd,hnone⟩]
    exact SameRound.insert hnone (.refl _)
  | joined hd hnone =>
    rw [if_pos ⟨hd,hnone⟩]
    exact SameRound.insert hnone ⟨rfl,rfl⟩
  | refuted _ hr =>
    obtain ⟨hnodes,hindex⟩ := SameRound.refute cfg (m := m.setTimer cfg.name none) hr e
      b.alive.incarnation
    exact hkeep ⟨hnodes,hindex⟩ (hknown hr)
  | conflict _ hr => exact hkeep ⟨rfl,rfl⟩ (hknown hr)
  | stale _ hr => exact hkeep ⟨rfl,rfl⟩ (hknown hr)
  | accepted _ hr => exact hkeep ⟨rfl,rfl⟩ (hknown hr)
  | replaced _ hr => exact hkeep ⟨rfl,rfl⟩ (hknown hr)
  | staleLocal _ hr => exact hkeep ⟨rfl,rfl⟩ (hknown hr)
  | echoed _ hr => exact hkeep ⟨rfl,rfl⟩ (hknown hr)

theorem suspectNode_nodes (fl : Floats) (m : Member) (e : Env) (b : Broadcast) :
    m.SameRound (m.suspectNode cfg fl e b) := by
  have h : SuspectExit cfg fl e b.suspect m _ := suspectNode_exit m e b
  generalize m.suspectNode cfg fl e b = m' at h ⊢
  cases h with
  | confirmed =>
    obtain ⟨q,d,h,-⟩ := confirmTimer_frame fl e b.suspect _ m
    rw [h]
    exact ⟨rfl,rfl⟩
  | refuted _ hr => exact .refute cfg hr e _
  | _ => exact ⟨rfl,rfl⟩

theorem deadNode_nodes (cfg : Config) (m : Member) (e : Env) (b : Broadcast) :
    m.SameRound (m.deadNode cfg e b) := by
  have h : DeadExit cfg e b.dead m _ := deadNode_exit m e b
  generalize m.deadNode cfg e b = m' at h ⊢
  cases h with
  | refuted _ hr =>
    obtain ⟨hnodes,hindex⟩ := SameRound.refute cfg (m := m.setTimer cfg.name none) hr e
      b.dead.incarnation
    exact ⟨hnodes,hindex⟩
  | _ => exact ⟨rfl,rfl⟩

end Member

theorem Process.next_silent (fl : Floats) {p : Process} {op : Op} (hop : op.isProbe = false)
    (h : p.heard cfg op = .nothing) : p.member.SameRound (p.next cfg fl op).member := by
  cases op with
  | alive | suspect | dead => cases h
  | probe => cases hop
  | merge state e =>
    cases hs : state.state <;> simp only [heard,PushNodeState.heard,hs] at h <;> cases h
    simp only [next,step,act,Member.mergeState,hs]
    exact .refl _
  | timerWake x =>
    simp only [next,step]
    split
    · split <;> exact .refl _
    · exact .refl _
  | timerCheck f =>
    simp only [next,step,timerCheck]
    split <;> exact .refl _
  | timerEnd x =>
    simp only [next,step]
    split <;> exact ⟨rfl,rfl⟩
  | timerDead b e | leaveDead b e | probeFail node e | updateAlive b notifyFd e =>
    simp only [heard] at h
    split at h
    · cases h
    · rename_i hb
      simp only [next,step,if_neg hb]
      exact .refl _
  | probeSend node =>
    simp only [next,step]
    split <;> exact .refl _
  | update u =>
    obtain ⟨i,a,b,h⟩ := Member.updateStep_frame cfg p.member u
    simp only [next,step,act,h]
    exact ⟨rfl,rfl⟩
  | leaveTest =>
    simp only [next,step]
    split <;> exact .refl _
  | leaveSet =>
    simp only [next,step,leaveSet]
    split <;> exact ⟨rfl,rfl⟩
  | leaveRead =>
    simp only [next,step,leaveRead]
    split <;> exact .refl _
  | sendState join =>
    simp only [next,step]
    split <;> exact .refl _
  | gossip | prune | clear => exact ⟨rfl,rfl⟩

namespace Prober

theorem other_nodes (fl : Floats) {p : Prober} (hp : p.process.member.Sound cfg) {op : Op}
    (hop : op.isProbe = false) :
    let m' := (p.process.next cfg fl op).member
    m'.table.nodes = (match p.places cfg (.other op) with
      | some (k,r) => OrderedList.placeAt k r p.process.member.table.nodes
      | none => p.process.member.table.nodes) ∧ m'.probeIndex = p.process.member.probeIndex := by
  intro m'
  cases hl : p.process.heard cfg op with
  | nothing =>
    have h := Process.next_silent fl hop hl
    simp only [places,hl]
    exact h
  | suspect s e =>
    have h : p.process.member.SameRound m' := by
      simp only [m',Process.next_suspect fl hl]
      exact Member.suspectNode_nodes fl _ e _
    simp only [places,hl]
    exact h
  | dead d e =>
    have h : p.process.member.SameRound m' := by
      simp only [m',Process.next_dead fl hl]
      exact Member.deadNode_nodes cfg _ e _
    simp only [places,hl]
    exact h
  | alive a e =>
    obtain ⟨notifyFd,hnext⟩ := Process.next_alive fl hl
    obtain ⟨u,-,henters⟩ := p.process.enters_eq op
    obtain ⟨hnodes,hindex⟩ := Member.aliveNode_nodes (p.process.enters_sound hp op) e
      (genAliveBroadcast a) notifyFd
    simp only [m',hnext,places,hl]
    rw [henters] at hnodes hindex ⊢
    refine ⟨hnodes.trans ?_,hindex⟩
    change (if p.process.member.deadlocked = false ∧
      p.process.member.table.nodeMap a.node = none then _ else _) = _
    split <;> rfl

/-- A copied record has been visited, although the cursor does not show it yet. -/
def sweep (p : Prober) : Sweep ℕ where
  items := p.process.member.table.nodes
  cursor := match p.stage with
    | .copied _ _ _ => p.process.member.probeIndex + 1
    | _ => p.process.member.probeIndex

def moves (cfg : Config) (p : Prober) (op : ProbeOp) : List (Sweep.Move ℕ) :=
  match op with
  | .check _ => p.reads.toList.map fun _ => .visit
  | _ => (p.places cfg op).toList.map fun (k,r) => .place k r

/-- What a round relies on: it goes on until the next shuffle. -/
structure InRound (cfg : Config) (p : Prober) : Prop where
  sound : p.process.member.Sound cfg
  unwrapped : ∀ numCheck, p.stage ≠ .wrapping numCheck

theorem reads_eq {p : Prober} {r : ℕ} (h : p.reads = some r) :
    ∃ numCheck, p.stage = .searching numCheck ∧ p.process.member.deadlocked = false ∧
      numCheck < p.process.member.table.nodes.length ∧
      p.process.member.table.nodes[p.process.member.probeIndex]? = some r := by
  unfold reads at h
  split at h
  · rename_i numCheck hstage hd
    split at h
    · cases h
    · exact ⟨numCheck,hstage,hd,by omega,h⟩
  · cases h

theorem check_quiet (fl : Floats) {p : Prober} {shuffled : List ℕ} (hreads : p.reads = none)
    (hwraps : ¬p.Wraps (.check shuffled)) (hround : p.InRound cfg) :
    (p.step cfg fl (.check shuffled)).sweep = p.sweep ∧
      (p.step cfg fl (.check shuffled)).InRound cfg := by
  simp only [step]
  split
  · rename_i numCheck hstage hd
    simp only [reads,hstage,hd] at hreads
    split
    · refine ⟨?_,hround.sound,fun _ => ProbeStage.noConfusion⟩
      simp only [sweep,hstage]
    · rename_i hlen
      rw [if_neg hlen] at hreads
      have hend := List.getElem?_eq_none_iff.mp hreads
      exact absurd ⟨hd,hend,numCheck,not_le.mp hlen,hstage⟩ hwraps
  · exact ⟨rfl,hround⟩

theorem check_reads (cfg : Config) (fl : Floats) {p : Prober} {shuffled : List ℕ} {r : ℕ}
    (hreads : p.reads = some r) :
    ∃ numCheck, p.stage = .searching numCheck ∧ p.step cfg fl (.check shuffled) =
      { p with stage := .copied numCheck r (p.process.member.table.heap r) } := by
  obtain ⟨numCheck,hstage,hd,hlen,hr⟩ := reads_eq hreads
  refine ⟨numCheck,hstage,?_⟩
  simp only [step,hstage,hd,hr,if_neg (not_le.mpr hlen)]

/-- One step of the threads is what its moves make of the sweep. -/
theorem step_sweep {p : Prober} (hround : p.InRound cfg) {op : ProbeOp} (hwraps : ¬p.Wraps op) :
    Transitions.run Sweep.step p.sweep (p.moves cfg op) = (p.step cfg fl op).sweep ∧
      (p.step cfg fl op).InRound cfg := by
  cases op with
  | call =>
    simp only [step]
    split
    · rename_i hstage
      refine ⟨?_,hround.sound,fun _ => ProbeStage.noConfusion⟩
      simp only [moves,places,sweep,hstage]
      rfl
    · exact ⟨rfl,hround⟩
  | check shuffled =>
    cases hreads : p.reads with
    | none =>
      obtain ⟨hsweep,hnext⟩ := check_quiet fl hreads hwraps hround
      refine ⟨?_,hnext⟩
      rw [hsweep,moves,hreads]
      rfl
    | some r =>
      obtain ⟨numCheck,hstage,hstep⟩ := check_reads cfg fl hreads
      rw [hstep]
      refine ⟨?_,hround.sound,fun _ => ProbeStage.noConfusion⟩
      simp only [moves,hreads,sweep,hstage]
      rfl
  | reset =>
    simp only [step]
    split
    · rename_i numCheck hstage
      exact absurd hstage (hround.unwrapped numCheck)
    · exact ⟨rfl,hround⟩
  | advance =>
    simp only [step]
    split
    · rename_i numCheck r node hstage
      have hsound : ({ p.process.member with
          probeIndex := p.process.member.probeIndex + 1 } : Member).Sound cfg :=
        ⟨hround.sound.known,hround.sound.queue⟩
      split
      all_goals
        refine ⟨?_,hsound,fun _ => ProbeStage.noConfusion⟩
        simp only [moves,places,sweep,hstage]
        rfl
    · exact ⟨rfl,hround⟩
  | probed =>
    simp only [step]
    split
    · rename_i hstage
      refine ⟨?_,hround.sound,fun _ => ProbeStage.noConfusion⟩
      simp only [moves,places,sweep,hstage]
      rfl
    · exact ⟨rfl,hround⟩
  | other op =>
    simp only [step]
    split
    · rename_i hop
      refine ⟨?_,hround⟩
      cases op with
      | probe => rfl
      | _ => cases hop
    · rename_i hop
      obtain ⟨hnodes,hindex⟩ := other_nodes fl hround.sound (Bool.eq_false_iff.mpr hop)
      refine ⟨?_,Process.next_sound hround.sound op,hround.unwrapped⟩
      simp only [sweep,hnodes,hindex,moves]
      cases p.places cfg (.other op) <;> rfl

theorem tally_moves (p : Prober) (r : ℕ) (op : ProbeOp) :
    Transitions.tally Sweep.step (Sweep.visits r) p.sweep (p.moves cfg op) =
      (p.examines r op).toNat := by
  cases op with
  | check shuffled =>
    cases hreads : p.reads with
    | none => simp [moves,examines,hreads]
    | some r' =>
      obtain ⟨numCheck,hstage,-,-,hr⟩ := reads_eq hreads
      simp [moves,examines,hreads,Transitions.tally,Sweep.visits,sweep,hstage,hr]
  | other op =>
    simp only [moves,examines]
    cases p.places cfg (.other op) <;> rfl
  | _ => rfl

theorem not_place_mem_moves {p : Prober} {op : ProbeOp} (h : p.places cfg op = none) (k r : ℕ) :
    .place k r ∉ p.moves cfg op := by
  cases op with
  | check shuffled =>
    intro hmem
    obtain ⟨-,-,h⟩ := List.mem_map.mp hmem
    cases h
  | _ => simp [moves,h]

def pending (cfg : Config) (r : ℕ) (p : Prober) : ℕ :=
  match p.stage with
  | .copied _ r' node => (decide (r' = r ∧ skips cfg node = false)).toNat
  | _ => 0

theorem step_pending (cfg : Config) (fl : Floats) (r : ℕ) (p : Prober) (op : ProbeOp) :
    (p.probes cfg r op).toNat + (p.step cfg fl op).pending cfg r =
      (p.examinesEligible cfg r op).toNat + p.pending cfg r := by
  cases op with
  | check shuffled =>
    cases hreads : p.reads with
    | none =>
      have hquiet : (p.step cfg fl (.check shuffled)).pending cfg r = p.pending cfg r := by
        simp only [step]
        split
        · rename_i numCheck hstage hd
          simp only [reads,hstage,hd] at hreads
          split
          · simp only [pending,hstage]
          · rename_i hlen
            rw [if_neg hlen] at hreads
            simp only [hreads,pending,hstage]
        · rfl
      simp [probes,examinesEligible,examines,hreads,hquiet]
    | some r' =>
      obtain ⟨numCheck,hstage,hstep⟩ := check_reads cfg fl hreads
      rw [hstep]
      by_cases hr : r' = r
      · subst hr
        simp [probes,examinesEligible,examines,hreads,pending,hstage]
      · simp [probes,examinesEligible,examines,hreads,pending,hstage,hr]
  | advance =>
    cases hstage : p.stage with
    | copied numCheck r' node =>
      cases hskip : skips cfg node <;>
        simp [step,probes,examinesEligible,examines,pending,hstage,hskip]
    | _ => simp [step,probes,examinesEligible,examines,pending,hstage]
  | call | reset | probed =>
    cases hstage : p.stage <;>
      simp [step,probes,examinesEligible,examines,pending,hstage]
  | other op =>
    have hsame : (p.step cfg fl (.other op)).stage = p.stage := by
      simp only [step]
      split <;> rfl
    simp [probes,examinesEligible,examines,pending,hsame]

theorem step_sound (fl : Floats) {p : Prober} (hp : p.process.member.Sound cfg) (op : ProbeOp) :
    (p.step cfg fl op).process.member.Sound cfg := by
  have hmoved (ns : List ℕ) (i : ℕ) :
      Effect cfg fl p.process.member .nothing _ := .shuffled ns i
  have hadvanced (i : ℕ) : Effect cfg fl p.process.member .nothing _ := .advanced i
  cases op with
  | call | probed =>
    simp only [step]
    split <;> exact hp
  | check shuffled =>
    simp only [step]
    split
    · split
      · exact hp
      · split
        · exact (hmoved shuffled p.process.member.probeIndex).sound hp
        · exact hp
    · exact hp
  | reset =>
    simp only [step]
    split
    · exact (hadvanced 0).sound hp
    · exact hp
  | advance =>
    simp only [step]
    split
    · split <;> exact (hadvanced (p.process.member.probeIndex + 1)).sound hp
    · exact hp
  | other op =>
    simp only [step]
    split
    · exact hp
    · exact Process.next_sound hp op

/-- Every node that is there when a round begins is examined before the next shuffle, and
just once if no newcomer is stored in between; `probeNode` is called at every examination
that finds it eligible. -/
theorem round_covers (cfg : Config) (fl : Floats) (leaveFd : ℤ) (e : Env) (before : List ProbeOp)
    {numCheck : ℕ} (hwrapping : (run cfg fl leaveFd e before).stage = .wrapping numCheck)
    (ops : List ProbeOp) (shuffled : List ℕ) :
    let p := (run cfg fl leaveFd e before).step cfg fl .reset
    Transitions.Along (step cfg fl) (fun p op => ¬p.Wraps op) p ops →
    (Transitions.run (step cfg fl) p ops).Wraps (.check shuffled) →
    ∀ r ∈ p.process.member.table.nodes,
      let examined := Transitions.tally (step cfg fl) (examines r) p ops
      1 ≤ examined ∧
      (Transitions.Along (step cfg fl) (fun p op => p.places cfg op = none) p ops → examined = 1) ∧
      Transitions.tally (step cfg fl) (probes cfg r) p ops =
        Transitions.tally (step cfg fl) (examinesEligible cfg r) p ops := by
  intro p hround hend r hr examined
  have hp : p = ⟨(run cfg fl leaveFd e before).process.act fun m => { m with probeIndex := 0 },
      .searching (numCheck + 1)⟩ := by
    simp only [p,step,hwrapping]
  have hsound : p.process.member.Sound cfg :=
    step_sound fl (Transitions.run_invariant (P := fun p : Prober =>
      p.process.member.Sound cfg) (Process.start_sound cfg leaveFd e)
      (fun _ op h => step_sound fl h op) before) .reset
  have hbegin : p.sweep.ahead = p.process.member.table.nodes := by
    simp only [hp]
    rfl
  obtain ⟨hd,hlen,numCheck',-,hstage⟩ := hend
  have hdone : (Transitions.run (step cfg fl) p ops).sweep.ahead = [] := by
    simp only [Sweep.ahead,sweep,hstage]
    exact List.drop_eq_nil_iff.mpr hlen
  obtain ⟨hrun,htally⟩ := hround.simulates Sweep.step sweep (fun p op => p.moves cfg op)
    (I := InRound cfg)
    ⟨hsound,by rw [hp]; exact fun _ => ProbeStage.noConfusion⟩
    (fun _ _ hop h => (step_sweep h hop).2) (fun _ _ hop h => (step_sweep h hop).1)
  have hexamined := htally (Sweep.visits r) (examines r) fun p op _ _ => tally_moves p r op
  refine ⟨?_,fun hquiet => ?_,?_⟩
  · have h := Sweep.visited_or_ahead (x := r) (by rw [hbegin]; exact hr)
      (Transitions.trace (step cfg fl) (fun p op => p.moves cfg op) p ops)
    rw [hrun,hdone,hexamined] at h
    exact h.resolve_right List.not_mem_nil
  · have hmoves (k a : ℕ) :
        .place k a ∉ Transitions.trace (step cfg fl) (fun p op => p.moves cfg op) p ops := fun h =>
      hquiet.not_happens (fun p op hop => not_place_mem_moves hop k a) (Transitions.mem_trace h)
    have h := Sweep.tally_visits (x := r) (s := p.sweep) hmoves
    rw [hrun,hdone,hexamined,hbegin,
      List.count_eq_one_of_mem p.process.member.table.nodup hr] at h
    exact h
  · have h := hround.tally_balance (examinesEligible cfg r) (probes cfg r) (pending cfg r)
      fun p op _ => step_pending cfg fl r p op
    have hp₀ : p.pending cfg r = 0 := by rw [hp]; rfl
    have hp₁ : (Transitions.run (step cfg fl) p ops).pending cfg r = 0 := by
      simp only [pending,hstage]
    rwa [hp₀,hp₁] at h

/-- The local node, alone when the round begins, is moved by a newcomer after it has been
read, and is read again. -/
theorem round_covers_moved :
    let node := defaultLANConfig "node"
    let e : Env := ⟨0,0,0,0,[],[]⟩
    let join : ProbeOp := .other (.alive (genAliveBroadcast ⟨1,"b","10.0.0.2",6666⟩) (-1) e)
    let before : List ProbeOp := [.call,.check [],.advance,.check [],.call,.check []]
    1 ≤ Transitions.tally (step node .small) (examines 0)
      ((run node .small 3 e before).step node .small .reset)
      [.check [],.call,.check [],join,.advance,.check [],.advance,.check [],.call] := by
  intro node e join before
  have hwrapping : (run node .small 3 e before).stage = .wrapping 0 := by decide +kernel
  exact (round_covers node .small 3 e before hwrapping _ [] (by decide +kernel) (by decide +kernel)
    0 (by decide +kernel)).1

end Prober

end GossipMemberlist
