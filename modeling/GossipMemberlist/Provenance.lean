import GossipMemberlist.Cluster
import GossipMemberlist.Threads

/-!
# Where numbers come from

In a cluster every number about a member goes back to that member: nothing that
anybody records, queues or sends about it is ahead of its own record, and alive
messages carry its own address. A record of its departure means that its own
record says so, and a record of its death that some member's timer ran out on it.
-/

namespace GossipMemberlist
namespace Roster

variable {ι : Type*} (R : Roster ι)

def ownInc (c : Cluster ι) (i : ι) : ℕ := (R.own c i).elim 0 (·.incarnation)

/-- The number `k` about the name `n` is not ahead of the record of its owner. -/
def Below (c : Cluster ι) (n : String) (k : ℕ) : Prop := ∀ i, R.name i = n → k ≤ R.ownInc c i

def Gone (c : Cluster ι) (n : String) (k : ℕ) : Prop :=
  ∀ i, R.name i = n → ∃ s, R.own c i = some s ∧ s.state = .stateLeft ∧ s.incarnation = k

def Genuine (n : Node) : Prop := ∀ i, R.name i = n.name → n = (R.config i).advertised

structure GoodAlive (c : Cluster ι) (a : Alive) : Prop where
  below : R.Below c a.node a.incarnation
  pos : 0 < a.incarnation
  address : ∀ i, R.name i = a.node →
    a.addr = (R.config i).advertiseAddr ∧ a.port = (R.config i).advertisePort.toNat

structure GoodSuspect (c : Cluster ι) (s : Suspect) : Prop where
  below : R.Below c s.node s.incarnation

variable (V W : String → ℕ → Prop)

/-- `V` says which names have been declared dead under which numbers. -/
structure GoodDead (c : Cluster ι) (d : Dead) : Prop where
  below : R.Below c d.node d.incarnation
  left : d.node = d.from_ → R.Gone c d.node d.incarnation
  dead : d.node ≠ d.from_ → V d.node d.incarnation

structure GoodState (c : Cluster ι) (s : NodeState) : Prop where
  below : R.Below c s.n.name s.incarnation
  pos : 0 < s.incarnation
  genuine : R.Genuine s.n
  left : s.state = .stateLeft → R.Gone c s.n.name s.incarnation
  dead : s.state = .stateDead → V s.n.name s.incarnation

inductive GoodMsg (c : Cluster ι) : Broadcast → Prop
  | alive {a} : R.GoodAlive c a → GoodMsg c (genAliveBroadcast a)
  | suspect {s} : R.GoodSuspect c s → GoodMsg c (genSuspectBroadcast s)
  | dead {d} : R.GoodDead V c d → GoodMsg c (genDeadBroadcast d)

structure GoodCell (c : Cluster ι) (k : Cell) : Prop where
  record : ∀ s, k.record = some s → R.GoodState V c s
  rumours : ∀ b ∈ k.rumours, R.GoodMsg V c b

/-- What member `i` records, queues and has under way; `W` says whom its suspicion
callbacks have convicted. -/
structure GoodNode (c : Cluster ι) (i : ι) (p : Process) : Prop where
  cells : ∀ n, R.GoodCell V c (p.member.cell n)
  probing : ∀ node ∈ p.probing, R.GoodState V c node
  verdicts : ∀ b ∈ p.verdicts, ∃ d, b = genDeadBroadcast d ∧ R.GoodDead W c d
  farewells : ∀ b ∈ p.farewells,
    ∃ k ≤ R.ownInc c i, b = genDeadBroadcast ⟨k,R.name i,R.name i⟩

inductive GoodPacket (c : Cluster ι) : Packet → Prop
  | broadcast {b} : R.GoodMsg V c b → GoodPacket c (.broadcast b)
  | pushPull {pp} : (∀ st ∈ pp.states, ∃ s, st = Member.pushNodeState s ∧ R.GoodState V c s) →
      GoodPacket c (.pushPull pp)

/-- What a handler of member `i` may be given: something good, or one of the member's
own calls. -/
def GoodHeard (c : Cluster ι) (i : ι) : Heard → Prop
  | .alive a _ => a.node = R.name i ∨ R.GoodAlive c a
  | .suspect s _ => R.GoodSuspect c s
  | .dead d _ => R.GoodDead V c d ∨
      d.node = R.name i ∧ d.from_ = R.name i ∧ d.incarnation ≤ R.ownInc c i
  | .nothing => True

structure Grows (c c' : Cluster ι) : Prop where
  inc : ∀ i, R.ownInc c i ≤ R.ownInc c' i
  left : ∀ i s, R.own c i = some s → s.state = .stateLeft → R.own c' i = some s

variable {R V W} {c c' : Cluster ι} {V' W' : String → ℕ → Prop}

theorem Grows.refl (c : Cluster ι) : R.Grows c c := ⟨fun _ => le_refl _,fun _ _ h _ => h⟩

theorem Below.mono {n : String} {k : ℕ} (h : R.Below c n k) (hc : R.Grows c c') :
    R.Below c' n k := fun i hi => (h i hi).trans (hc.inc i)

theorem Gone.mono {n : String} {k : ℕ} (h : R.Gone c n k) (hc : R.Grows c c') : R.Gone c' n k := by
  intro i hi
  obtain ⟨s,hs,hleft,hk⟩ := h i hi
  exact ⟨s,hc.left i s hs hleft,hleft,hk⟩

theorem GoodAlive.mono {a : Alive} (h : R.GoodAlive c a) (hc : R.Grows c c') : R.GoodAlive c' a :=
  ⟨h.below.mono hc,h.pos,h.address⟩

theorem GoodDead.mono {d : Dead} (h : R.GoodDead V c d) (hc : R.Grows c c')
    (hV : ∀ n k, V n k → V' n k) : R.GoodDead V' c' d :=
  ⟨h.below.mono hc,fun hl => (h.left hl).mono hc,fun hd => hV _ _ (h.dead hd)⟩

theorem GoodState.mono {s : NodeState} (h : R.GoodState V c s) (hc : R.Grows c c')
    (hV : ∀ n k, V n k → V' n k) : R.GoodState V' c' s :=
  ⟨h.below.mono hc,h.pos,h.genuine,fun hl => (h.left hl).mono hc,fun hd => hV _ _ (h.dead hd)⟩

theorem GoodMsg.mono {b : Broadcast} (h : R.GoodMsg V c b) (hc : R.Grows c c')
    (hV : ∀ n k, V n k → V' n k) : R.GoodMsg V' c' b := by
  cases h with
  | alive h => exact .alive (h.mono hc)
  | suspect h => exact .suspect ⟨h.below.mono hc⟩
  | dead h => exact .dead (h.mono hc hV)

theorem GoodCell.mono {k : Cell} (h : R.GoodCell V c k) (hc : R.Grows c c')
    (hV : ∀ n k, V n k → V' n k) : R.GoodCell V' c' k :=
  ⟨fun s hs => (h.record s hs).mono hc hV,fun b hb => (h.rumours b hb).mono hc hV⟩

theorem GoodNode.mono {i : ι} {p : Process} (h : R.GoodNode V W c i p) (hc : R.Grows c c')
    (hV : ∀ n k, V n k → V' n k) (hW : ∀ n k, W n k → W' n k) : R.GoodNode V' W' c' i p where
  cells n := (h.cells n).mono hc hV
  probing node hnode := (h.probing node hnode).mono hc hV
  verdicts b hb := by
    obtain ⟨d,rfl,hdead⟩ := h.verdicts b hb
    exact ⟨d,rfl,hdead.mono hc hW⟩
  farewells b hb := by
    obtain ⟨k,hk,rfl⟩ := h.farewells b hb
    exact ⟨k,hk.trans (hc.inc i),rfl⟩

theorem GoodPacket.mono {pkt : Packet} (h : R.GoodPacket V c pkt) (hc : R.Grows c c')
    (hV : ∀ n k, V n k → V' n k) : R.GoodPacket V' c' pkt := by
  cases h with
  | broadcast h => exact .broadcast (h.mono hc hV)
  | pushPull h =>
    refine .pushPull fun st hst => ?_
    obtain ⟨s,rfl,hs⟩ := h st hst
    exact ⟨s,rfl,hs.mono hc hV⟩

theorem GoodCell.fresh {k : Cell} {s : NodeState} {timer : Option Suspicion} {b : Broadcast}
    (h : k.Becomes (some s) timer {b}) (hs : R.GoodState V c s) (hb : R.GoodMsg V c b) :
    R.GoodCell V c k where
  record s' hs' := by
    rw [h.record_eq] at hs'
    cases hs'
    exact hs
  rumours b' hb' := by
    rw [h.rumours_sub hb']
    exact hb

theorem GoodCell.same {k k' : Cell} {timer : Option Suspicion} {B : Set Broadcast}
    (h : k'.Becomes k.record timer B) (hk : R.GoodCell V c k) (hB : ∀ b ∈ B, R.GoodMsg V c b) :
    R.GoodCell V c k' where
  record s hs := hk.record s (h.record_eq ▸ hs)
  rumours b hb := hB b (h.rumours_sub hb)

theorem GoodState.aliveRecord {a : Alive} {s : NodeState} (ha : R.GoodAlive c a)
    (hs : s.n.name = a.node) (now : ℤ) : R.GoodState V c (Member.aliveRecord a now s) where
  below := hs ▸ ha.below
  pos := ha.pos
  genuine i hi := by
    obtain ⟨h₁,h₂⟩ := ha.address i (hi.trans hs)
    have hname : s.n.name = (R.config i).name := hi.symm
    simp [Member.aliveRecord,Config.advertised,h₁,h₂,hname]
  left := nofun
  dead := nofun

theorem GoodState.deadRecord {d : Dead} {s : NodeState} (hd : R.GoodDead V c d)
    (hs : R.GoodState V c s) (hname : s.n.name = d.node) (hinc : s.incarnation ≤ d.incarnation)
    (now : ℤ) : R.GoodState V c (Member.deadRecord d now s) where
  below := hname ▸ hd.below
  pos := hs.pos.trans_le hinc
  genuine := hs.genuine
  left h := by
    simp only [Member.deadRecord] at h
    split at h
    · rename_i hleft
      exact hname ▸ hd.left hleft
    · cases h
  dead h := by
    simp only [Member.deadRecord] at h
    split at h
    · cases h
    · rename_i hdead
      exact hname ▸ hd.dead hdead

theorem GoodState.heard {i : ι} {s : NodeState} (h : R.GoodState V c s) (e : Env) :
    R.GoodHeard V c i ((Member.pushNodeState s).heard (R.config i) e) := by
  cases hs : s.state with
  | stateAlive =>
    simp only [Member.pushNodeState,PushNodeState.heard,hs]
    refine Or.inr ⟨h.below,h.pos,fun j hj => ?_⟩
    have hn := h.genuine j hj
    rw [hn]
    exact ⟨rfl,rfl⟩
  | stateSuspect | stateDead =>
    simp only [Member.pushNodeState,PushNodeState.heard,hs]
    exact ⟨h.below⟩
  | stateLeft =>
    simp only [Member.pushNodeState,PushNodeState.heard,hs]
    exact Or.inl ⟨h.below,fun _ => h.left hs,fun hne => absurd rfl hne⟩

theorem below_own {i : ι} {s : NodeState} (h : R.own c i = some s) :
    R.Below c (R.name i) s.incarnation := by
  intro j hj
  cases R.distinct hj
  simp [ownInc,h]

theorem gone_own {i : ι} {s : NodeState} (h : R.own c i = some s) (hs : s.state = .stateLeft) :
    R.Gone c (R.name i) s.incarnation := by
  intro j hj
  cases R.distinct hj
  exact ⟨s,h,hs,rfl⟩

/-- What one step does to the cell of the name `n` at member `i`. -/
structure CellMove (R : Roster ι) (c c' : Cluster ι) (i : ι) (n : String) (leave : Bool)
    (lo hi : ℕ) (l : Heard) (k k' : Cell) : Prop where
  step : CellStep (R.config i) R.floats n leave lo hi k k' l
  named : ∀ s, k.record = some s → s.n.name = n
  noWrap : hi < 2 ^ 32
  le : R.ownInc c i ≤ lo
  localCell : n = R.name i → k.Local (R.config i) leave lo
  old : n = R.name i → R.own c i = k.record
  new : n = R.name i → R.own c' i = k'.record

theorem GoodCell.refuted {k k' : Cell} {i : ι} {s : NodeState} {inc : ℕ}
    (hk : R.GoodCell V c k) (hs : k.record = some s) (hname : s.n.name = R.name i)
    (halive : s.state = .stateAlive) (hinc : s.incarnation ≤ inc)
    (hnew : R.own c' i = some { s with incarnation := inc })
    (h : k'.Becomes (some { s with incarnation := inc }) none
      {genAliveBroadcast ⟨inc,R.name i,s.n.addr,s.n.port.toNat⟩}) : R.GoodCell V' c' k' := by
  have hgood := hk.record s hs
  have hbelow : R.Below c' (R.name i) inc := below_own hnew
  refine .fresh h ⟨hname ▸ hbelow,hgood.pos.trans_le hinc,hgood.genuine,?_,?_⟩
    (.alive ⟨hbelow,hgood.pos.trans_le hinc,fun j hj => ?_⟩)
  · intro hl
    rw [halive] at hl
    cases hl
  · intro hd
    rw [halive] at hd
    cases hd
  · have hn := hgood.genuine j (hj.trans hname.symm)
    rw [hn]
    exact ⟨rfl,rfl⟩

theorem CellMove.good {i : ι} {n : String} {leave : Bool} {lo hi : ℕ} {l : Heard} {k k' : Cell}
    (h : CellMove R c c' i n leave lo hi l k k') (hl : R.GoodHeard V c i l)
    (hk : R.GoodCell V c k) (hc : R.Grows c c') : R.GoodCell V c' k' := by
  have hk' : R.GoodCell V c' k := hk.mono hc fun _ _ => id
  have hother {a e} (hl : R.GoodHeard V c i (.alive a e)) (ha : a.node = n)
      (hn : n ≠ (R.config i).name) : R.GoodAlive c a :=
    hl.resolve_left fun h => hn (ha.symm.trans h)
  cases h.step with
  | kept hb => exact .same hb hk' hk'.rumours
  | disarmed _ _ hb => exact .same hb hk' hk'.rumours
  | ended _ hb => exact .same hb hk' hk'.rumours
  | confirmed _ _ _ _ hb =>
    rcases hb with hb | ⟨-,hb⟩
    · exact .same hb hk' hk'.rumours
    · refine .same hb hk' fun b hb => ?_
      rw [hb]
      exact .suspect ⟨hl.below.mono hc⟩
  | created _ ha hn hinc => exact absurd hinc (hother hl ha hn).pos.ne'
  | joined _ ha hn _ hb =>
    have ha := (hother hl ha hn).mono hc
    exact .fresh hb (.aliveRecord ha rfl _) (.alive ha)
  | accepted hs ha hn _ _ hb =>
    have hgood := (hother hl ha hn).mono hc
    exact .fresh hb (.aliveRecord hgood ((h.named _ hs).trans ha.symm) _) (.alive hgood)
  | replaced hs ha hn _ _ hb =>
    have hgood := (hother hl ha hn).mono hc
    exact .fresh hb (.aliveRecord hgood ((h.named _ hs).trans ha.symm) _) (.alive hgood)
  | @refuted _ s _ inc hs hn _ hleave _ hlo _ hb =>
    have halive := (h.localCell hn).alive hs hleave
    have hinc : s.incarnation ≤ inc := by
      have hle := h.le
      simp only [ownInc,h.old hn,hs,Option.elim] at hle
      exact hle.trans (hlo h.noWrap)
    subst hn
    exact hk.refuted hs (h.named s hs) halive hinc ((h.new rfl).trans hb.record_eq) hb
  | @suspected s e r _ hs hn _ hinc _ _ hb =>
    have hgood := hk'.record r hs
    have hsuspect : R.GoodSuspect c' s := ⟨hl.below.mono hc⟩
    have hname : r.n.name = s.node := (h.named r hs).trans hn.symm
    exact .fresh hb ⟨hname ▸ hsuspect.below,hgood.pos.trans_le hinc,hgood.genuine,nofun,nofun⟩
      (.suspect hsuspect)
  | @buried d e r hs hn hinc _ _ hb =>
    have hgood := hk'.record r hs
    have hname : r.n.name = d.node := (h.named r hs).trans hn.symm
    rcases hl with hl | ⟨hnode,hfrom,-⟩
    · have hdead := hl.mono hc fun _ _ => id
      exact .fresh hb (.deadRecord hdead hgood hname hinc _) (.dead hdead)
    · -- the member's own farewell
      have hnew := (h.new (hn.symm.trans hnode)).trans hb.record_eq
      have hleft : (Member.deadRecord d e.now r).state = .stateLeft := by
        simp [Member.deadRecord,hnode,hfrom]
      have hdead : R.GoodDead V c' d :=
        ⟨hnode ▸ below_own hnew,fun _ => hnode ▸ gone_own hnew hleft,
          fun h => absurd (hnode.trans hfrom.symm) h⟩
      exact .fresh hb (.deadRecord hdead hgood hname hinc _) (.dead hdead)

/-- What a step makes of the member's own record. -/
theorem CellMove.own {i : ι} {leave : Bool} {lo hi : ℕ} {l : Heard} {k k' : Cell}
    (h : CellMove R c c' i (R.name i) leave lo hi l k k') (hl : R.GoodHeard V c i l)
    (hle : lo ≤ hi) : ∃ s s', R.own c i = some s ∧ R.own c' i = some s' ∧
      s.incarnation ≤ s'.incarnation ∧ s'.incarnation ≤ hi ∧
      (s.state = .stateLeft → s' = s) := by
  obtain ⟨-,s,hs,-⟩ := h.localCell rfl
  have hown := (h.old rfl).trans hs
  have hlo : s.incarnation ≤ lo := by
    have hle := h.le
    rwa [ownInc,hown] at hle
  obtain ⟨s',hs',hstep⟩ := h.step.recordStep hs
  refine ⟨s,s',hown,(h.new rfl).trans hs',?_⟩
  cases hstep with
  | kept => exact ⟨le_refl _,hlo.trans hle,fun _ => rfl⟩
  | accepted _ hn => exact absurd rfl hn
  | replaced _ hn => exact absurd rfl hn
  | suspected _ hn => exact absurd rfl hn
  | refuted _ _ hleave hinc hhi =>
    have halive := (h.localCell rfl).alive hs hleave
    refine ⟨hlo.trans (hinc h.noWrap),hhi,fun hleft => ?_⟩
    rw [halive] at hleft
    cases hleft
  | @buried d _ hd hinc hdead _ =>
    have hbelow : d.incarnation ≤ R.ownInc c i :=
      hl.elim (fun hl => hl.below i hd.symm) fun hl => hl.2.2
    refine ⟨hinc,hbelow.trans (h.le.trans hle),fun hleft => ?_⟩
    simp [NodeState.deadOrLeft,hleft] at hdead

theorem GoodNode.sends {i : ι} {op : Op} {p : Process} (h : R.GoodNode V W c i p)
    (hp : p.member.Sound (R.config i)) {pkt : Packet}
    (hpkt : pkt ∈ (p.step (R.config i) R.floats op).2) : R.GoodPacket V c pkt := by
  rcases Process.step_sends R.floats hp hpkt with ⟨node,hnode,rfl⟩ | ⟨n,b,hb,rfl⟩ | ⟨join,rfl⟩
  · exact .broadcast (.suspect ⟨(h.probing node hnode).below⟩)
  · exact .broadcast ((h.cells n).rumours b hb)
  · refine .pushPull fun st hst => ?_
    obtain ⟨n,s,hs,rfl⟩ := Member.sendLocalState_states hst
    exact ⟨s,rfl,(h.cells n).record s hs⟩

structure Provenance (R : Roster ι) (V : String → ℕ → Prop) (W : ι → String → ℕ → Prop)
    (c : Cluster ι) : Prop where
  own : ∀ i, R.ownInc c i ≤ total c i
  nodes : ∀ i, R.GoodNode V (W i) c i (c.node i)
  sent : ∀ pkt ∈ c.sent, R.GoodPacket V c pkt

theorem Provenance.mono {W W' : ι → String → ℕ → Prop} (h : R.Provenance V W c)
    (hV : ∀ n k, V n k → V' n k) (hW : ∀ j n k, W j n k → W' j n k) : R.Provenance V' W' c :=
  ⟨h.own,fun j => (h.nodes j).mono (.refl c) hV (hW j),fun p hp => (h.sent p hp).mono (.refl c) hV⟩

theorem own_start (i : ι) :
    R.own R.start i = some (Process.firstRecord (R.config i) (R.env i)) :=
  (Process.start_cell (R.config i) (R.leaveFd i) (R.env i)).1.record_eq

/-- At first every member knows itself and nobody else. -/
theorem start_cells (i : ι) (n : String) :
    R.GoodCell V R.start ((R.start.node i).member.cell n) := by
  obtain ⟨hself,hothers⟩ := Process.start_cell (R.config i) (R.leaveFd i) (R.env i)
  by_cases hn : n = R.name i
  · subst hn
    have hbelow : R.Below R.start (R.name i) 1 := below_own (own_start i)
    have hrecord : R.GoodState V R.start (Process.firstRecord (R.config i) (R.env i)) := by
      refine ⟨hbelow,Nat.one_pos,fun j hj => ?_,fun h => ?_,fun h => ?_⟩
      · cases R.distinct hj
        rfl
      · cases h
      · cases h
    refine .fresh hself hrecord (.alive ⟨hbelow,Nat.one_pos,fun j hj => ?_⟩)
    cases R.distinct hj
    exact ⟨rfl,rfl⟩
  · have h := hothers n hn
    refine ⟨fun s hs => ?_,fun b hb => absurd (h.rumours_sub hb) (Set.notMem_empty b)⟩
    rw [start,h.record_eq] at hs
    cases hs

theorem start_provenance (R : Roster ι) (V : String → ℕ → Prop) (W : ι → String → ℕ → Prop) :
    R.Provenance V W R.start where
  own i := by
    obtain ⟨-,htotal,-⟩ := Process.start_locals (R.config i) (R.leaveFd i) (R.env i)
    rw [ownInc,own_start,total,start,htotal]
    exact le_refl 1
  nodes i := ⟨start_cells i,fun _ h => absurd h List.not_mem_nil,
    fun _ h => absurd h List.not_mem_nil,fun _ h => absurd h List.not_mem_nil⟩
  sent _ h := absurd h List.not_mem_nil

end Roster
end GossipMemberlist
