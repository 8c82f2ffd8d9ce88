import GossipMemberlist.Timers
import Mathlib.Data.Prod.Lex

/-!
# Which message wins

The records of other nodes only move up in the order of incarnations, and within
one incarnation from alive over suspect to dead or left. The exception is a name
that is taken over at another address, and that takes a record that is over.
-/

namespace GossipMemberlist

variable {cfg : Config} {fl : Floats}

def NodeStateType.rank : NodeStateType → ℕ
  | .stateAlive => 0
  | .stateSuspect => 1
  | .stateDead | .stateLeft => 2

def NodeState.precedence (s : NodeState) : ℕ ×ₗ ℕ := toLex (s.incarnation,s.state.rank)

/-- No smaller in precedence, and larger if incarnation or state changed. -/
structure NodeState.Advances (s s' : NodeState) : Prop where
  le : s.precedence ≤ s'.precedence
  lt : s'.incarnation ≠ s.incarnation ∨ s'.state ≠ s.state → s.precedence < s'.precedence

namespace NodeState

theorem Advances.refl (s : NodeState) : s.Advances s := ⟨le_refl _,fun h => by simp at h⟩

theorem Advances.of_lt {s s' : NodeState} (h : s.precedence < s'.precedence) : s.Advances s' :=
  ⟨h.le,fun _ => h⟩

theorem Advances.incarnation {s s' : NodeState} (h : s.Advances s') :
    s.incarnation ≤ s'.incarnation := by
  rcases (Prod.Lex.le_iff ..).mp h.le with h | h
  · exact Nat.le_of_lt h
  · exact Nat.le_of_eq h.1

theorem precedence_lt {s s' : NodeState} (hinc : s.incarnation ≤ s'.incarnation)
    (hrank : s.state.rank < s'.state.rank) : s.precedence < s'.precedence := by
  rcases hinc.lt_or_eq with h | h
  · exact (Prod.Lex.lt_iff ..).mpr (Or.inl h)
  · exact (Prod.Lex.lt_iff ..).mpr (Or.inr ⟨h,hrank⟩)

theorem rank_of_not_deadOrLeft {s : NodeState} (h : s.deadOrLeft = false) : s.state.rank < 2 := by
  cases hs : s.state <;> simp_all [deadOrLeft,NodeStateType.rank]

end NodeState

/-- What one transition does to the record of another node: nothing, a step up at the
recorded address, or a change of address. -/
theorem CellStep.advances {x : String} {leave : Bool} {lo hi : ℕ} {c c' : Cell} {l : Heard}
    (h : CellStep cfg fl x leave lo hi c c' l) (hx : x ≠ cfg.name) {r : NodeState}
    (hr : c.record = some r) : ∃ r', c'.record = some r' ∧ (r' = r ∨
      r.Advances r' ∧ r'.n = r.n ∧
        (∀ a e, l = .alive a e → Member.addressDiffers a r = false ∧
          r.incarnation < a.incarnation ∧ r'.incarnation = a.incarnation) ∨
      ∃ a e, l = .alive a e ∧ a.node = x ∧ Member.addressDiffers a r = true ∧
        Member.canReplace cfg e.now r = true ∧ r' = Member.aliveRecord a e.later r) := by
  obtain ⟨r',hr',h⟩ := h.recordStep hr
  refine ⟨r',hr',?_⟩
  cases h with
  | kept => exact Or.inl rfl
  | @accepted a e _ _ haddr hinc =>
    refine Or.inr (Or.inl ⟨.of_lt ?_,?_,?_⟩)
    · exact (Prod.Lex.lt_iff ..).mpr (Or.inl hinc)
    · obtain ⟨ha,hp⟩ : a.addr = r.n.addr ∧ a.port = r.n.port.toNat := by
        simpa [Member.addressDiffers] using haddr
      simp [Member.aliveRecord,ha,hp]
    · rintro _ _ ⟨⟩
      exact ⟨haddr,hinc,rfl⟩
  | @replaced a e ha _ haddr hrep => exact Or.inr (Or.inr ⟨a,e,rfl,ha,haddr,hrep,rfl⟩)
  | refuted hl => exact absurd hl hx
  | suspected _ _ hinc halive =>
    refine Or.inr (Or.inl ⟨.of_lt (NodeState.precedence_lt hinc ?_),rfl,?_⟩)
    · simp [halive,Member.suspectRecord,NodeStateType.rank]
    · rintro _ _ ⟨⟩
  | @buried d e _ hinc hdead =>
    refine Or.inr (Or.inl ⟨.of_lt (NodeState.precedence_lt hinc ?_),rfl,?_⟩)
    · have hrank : (Member.deadRecord d e.now r).state.rank = 2 := by
        simp only [Member.deadRecord]
        split <;> rfl
      rw [hrank]
      exact NodeState.rank_of_not_deadOrLeft hdead
    · rintro _ _ ⟨⟩

/-- A record appears only with an alive message, and with what that says. -/
theorem CellStep.appears {x : String} {leave : Bool} {lo hi : ℕ} {c c' : Cell} {l : Heard}
    (h : CellStep cfg fl x leave lo hi c c' l) (hnone : c.record = none) {r : NodeState}
    (hr : c'.record = some r) : x ≠ cfg.name ∧ ∃ a e, l = .alive a e ∧ a.node = x ∧
      r.n = ⟨a.node,a.addr,.ofNat a.port⟩ ∧ r.incarnation = a.incarnation ∧
      (r.state = .stateAlive ∨ a.incarnation = 0 ∧ r.state = .stateDead) := by
  cases h with
  | kept h => rw [h.record_eq,hnone] at hr; cases hr
  | disarmed hs => rw [hnone] at hs; cases hs
  | ended _ h => rw [h.record_eq,hnone] at hr; cases hr
  | confirmed hs => rw [hnone] at hs; cases hs
  | @created a e _ ha hx hinc h =>
    rw [h.record_eq] at hr
    cases hr
    exact ⟨hx,a,e,rfl,ha,rfl,hinc.symm,Or.inr ⟨hinc,rfl⟩⟩
  | @joined a e _ ha hx _ h =>
    rw [h.record_eq] at hr
    cases hr
    exact ⟨hx,a,e,rfl,ha,rfl,rfl,Or.inl rfl⟩
  | accepted hs => rw [hnone] at hs; cases hs
  | replaced hs => rw [hnone] at hs; cases hs
  | refuted hs => rw [hnone] at hs; cases hs
  | suspected hs => rw [hnone] at hs; cases hs
  | buried hs => rw [hnone] at hs; cases hs

theorem CellStep.incarnation_le {x : String} {leave : Bool} {lo hi : ℕ} {c c' : Cell} {l : Heard}
    (h : CellStep cfg fl x leave lo hi c c' l) (hx : x ≠ cfg.name) {r : NodeState}
    (hr : c.record = some r)
    (hsame : ∀ a e, l = .alive a e → a.node = x → Member.addressDiffers a r = false) :
    ∃ r', c'.record = some r' ∧ r.incarnation ≤ r'.incarnation ∧ r'.n = r.n := by
  obtain ⟨r',hr',rfl | ⟨h,hn,-⟩ | ⟨a,e,hl,ha,haddr,-⟩⟩ := h.advances hx hr
  · exact ⟨r',hr',le_refl _,rfl⟩
  · exact ⟨r',hr',h.incarnation,hn⟩
  · rw [hsame a e hl ha] at haddr
    cases haddr

namespace Process

/-- No message rolls a record back; only an alive message from another address can
change a record otherwise, and only one that is over. -/
theorem record_advances (cfg : Config) (fl : Floats) (leaveFd : ℤ) (e : Env) (ops : List Op)
    (op : Op) {x : String} (hx : x ≠ cfg.name) {r : NodeState}
    (hr : (run cfg fl leaveFd e ops).member.find x = some r) :
    let p := run cfg fl leaveFd e ops
    ∃ r', (p.next cfg fl op).member.find x = some r' ∧
      (r.Advances r' ∨ ∃ a env, p.heard cfg op = .alive a env ∧ a.node = x ∧
        Member.addressDiffers a r = true) ∧
      (∀ a env, p.heard cfg op = .alive a env → Member.addressDiffers a r = true → r' ≠ r →
        r.state = .stateLeft ∨ r.state = .stateDead ∧ 0 < cfg.deadNodeReclaimTime ∧
          cfg.deadNodeReclaimTime ≤ env.now - r.stateChange) ∧
      (r.state = .stateAlive ∨ r.state = .stateSuspect → r.Advances r' ∧ r'.n = r.n) := by
  intro p
  have hsound : p.member.Sound cfg := run_sound cfg fl leaveFd e ops
  obtain ⟨hcell,-⟩ := next_cellStep fl hsound op x
  obtain ⟨r',hr',rfl | ⟨hadv,hn,haddr⟩ | ⟨a,env,hl,ha,haddr,hrep,-⟩⟩ := hcell.advances hx hr
  · exact ⟨r',hr',Or.inl (.refl _),fun _ _ _ _ h => absurd rfl h,fun _ => ⟨.refl _,rfl⟩⟩
  · refine ⟨r',hr',Or.inl hadv,fun a env hl h => ?_,fun _ => ⟨hadv,hn⟩⟩
    rw [(haddr a env hl).1] at h
    cases h
  · have hover : r.state = .stateLeft ∨ r.state = .stateDead ∧ 0 < cfg.deadNodeReclaimTime ∧
        cfg.deadNodeReclaimTime ≤ env.now - r.stateChange := by
      simpa [Member.canReplace] using hrep
    refine ⟨r',hr',Or.inr ⟨a,env,hl,ha,haddr⟩,fun a' env' hl' _ _ => ?_,fun h => ?_⟩
    · rw [hl] at hl'
      cases hl'
      exact hover
    · rcases h with h | h <;> simp [h] at hover

/-- A dead message about a suspect that somebody else reported. -/
theorem record_advances_buried :
    let cfg := defaultLANConfig "node"
    let ops : List Op := [.alive (genAliveBroadcast ⟨1,"b","10.0.0.2",6666⟩) (-1) ⟨0,0,1,2,[],[]⟩]
    let op : Op := .dead (genDeadBroadcast ⟨1,"b","c"⟩) ⟨0,0,3,4,[],[]⟩
    let p := run cfg .small 3 ⟨0,0,0,0,[],[]⟩ ops
    let r : NodeState := ⟨⟨"b","10.0.0.2",6666⟩,1,.stateAlive,2⟩
    ∃ r', (p.next cfg .small op).member.find "b" = some r' ∧
      (r.Advances r' ∨ ∃ a env, p.heard cfg op = .alive a env ∧ a.node = "b" ∧
        Member.addressDiffers a r = true) ∧
      (∀ a env, p.heard cfg op = .alive a env → Member.addressDiffers a r = true → r' ≠ r →
        r.state = .stateLeft ∨ r.state = .stateDead ∧ 0 < cfg.deadNodeReclaimTime ∧
          cfg.deadNodeReclaimTime ≤ env.now - r.stateChange) ∧
      (r.state = .stateAlive ∨ r.state = .stateSuspect → r.Advances r' ∧ r'.n = r.n) :=
  record_advances _ _ _ _ _ _ (by decide) (by decide)

/-- The alive messages about `x` that a step hears carry this address and port. -/
def SameAddress (cfg : Config) (x addr : String) (port : ℕ) (p : Process) (op : Op) : Prop :=
  ∀ a e, p.heard cfg op = .alive a e → a.node = x → a.addr = addr ∧ a.port = port

/-- A run that has heard of `x` at one address only. -/
structure Settled (cfg : Config) (x addr : String) (port : ℕ) (p : Process) : Prop where
  sound : p.member.Sound cfg
  timed : (p.member.cell x).Timed cfg x
  address : ∀ r, p.member.find x = some r → r.n.addr = addr ∧ r.n.port.toNat = port

theorem Settled.same {x addr : String} {port : ℕ} {p : Process} {op : Op} {r : NodeState}
    (hp : p.Settled cfg x addr port) (hop : SameAddress cfg x addr port p op)
    (hr : p.member.find x = some r) (a : Alive) (e : Env) (hl : p.heard cfg op = .alive a e)
    (ha : a.node = x) : Member.addressDiffers a r = false := by
  obtain ⟨h₁,h₂⟩ := hop a e hl ha
  obtain ⟨h₃,h₄⟩ := hp.address r hr
  simp [Member.addressDiffers,h₁,h₂,h₃,h₄]

theorem Settled.next {x addr : String} {port : ℕ} {p : Process} {op : Op} (hx : x ≠ cfg.name)
    (hport : port < 2 ^ 16) (hp : p.Settled cfg x addr port)
    (hop : SameAddress cfg x addr port p op) : (p.next cfg fl op).Settled cfg x addr port := by
  obtain ⟨hcell,-⟩ := next_cellStep fl hp.sound op x
  refine ⟨next_sound hp.sound op,hcell.timed hp.timed,fun r' hr' => ?_⟩
  cases hr : p.member.find x with
  | some r =>
    obtain ⟨r'',hr'',-,hn⟩ := hcell.incarnation_le hx hr (hp.same hop hr)
    cases hr'.symm.trans hr''
    rw [hn]
    exact hp.address r hr
  | none =>
    obtain ⟨-,a,e,hl,ha,hn,-⟩ := hcell.appears hr hr'
    obtain ⟨haddr,hp⟩ := hop a e hl ha
    rw [hn]
    exact ⟨haddr,by simpa [hp] using Nat.mod_eq_of_lt hport⟩

theorem start_settled {x : String} (hx : x ≠ cfg.name) (leaveFd : ℤ) (e : Env) (addr : String)
    (port : ℕ) : (start cfg leaveFd e).Settled cfg x addr port := by
  refine ⟨start_sound cfg leaveFd e,run_timed cfg .small leaveFd e [] x,fun r hr => ?_⟩
  have hnone : (start cfg leaveFd e).member.find x = none :=
    ((start_cell cfg leaveFd e).2 x hx).record_eq
  rw [hnone] at hr
  cases hr

/-- The record of `x` has reached the number `i`, or the member is stuck for good. -/
def Reached (x : String) (i : ℕ) (p : Process) : Prop :=
  p.member.deadlocked = true ∨ ∃ r, p.member.find x = some r ∧ i ≤ r.incarnation

theorem Reached.next {x addr : String} {port i : ℕ} {p : Process} {op : Op} (hx : x ≠ cfg.name)
    (hp : p.Settled cfg x addr port) (hop : SameAddress cfg x addr port p op)
    (h : p.Reached x i) : (p.next cfg fl op).Reached x i := by
  rcases h with h | ⟨r,hr,hi⟩
  · obtain ⟨u,-,henters⟩ := p.enters_eq op
    exact Or.inl ((step_effect hp.sound op).deadlocked (by rw [henters]; exact h))
  · obtain ⟨hcell,-⟩ := next_cellStep fl hp.sound op x
    obtain ⟨r',hr',hle,-⟩ := hcell.incarnation_le hx hr (hp.same hop hr)
    exact Or.inr ⟨r',hr',hi.trans hle⟩

/-- A step delivers a suspect or a dead message about `x` with the number `i` to its
handler, and the handler does not find a record that makes it drop the number. -/
def Lands (cfg : Config) (x : String) (i : ℕ) (r : NodeState) (p : Process) (op : Op) : Prop :=
  (∃ s e, p.heard cfg op = .suspect s e ∧ s.node = x ∧ s.incarnation = i ∧
    (r.state = .stateAlive ∨ i ≤ r.incarnation)) ∨
  ∃ d e, p.heard cfg op = .dead d e ∧ d.node = x ∧ d.incarnation = i ∧
    (r.deadOrLeft = false ∨ i ≤ r.incarnation)

theorem Lands.reached {x addr : String} {port i : ℕ} {p : Process} {op : Op} {r : NodeState}
    (hx : x ≠ cfg.name) (hp : p.Settled cfg x addr port)
    (hop : SameAddress cfg x addr port p op) (hr : p.member.find x = some r)
    (h : Lands cfg x i r p op) : (p.next cfg fl op).Reached x i := by
  by_cases hfree : p.member.deadlocked = true
  · exact Reached.next hx hp hop (Or.inl hfree)
  by_cases hle : i ≤ r.incarnation
  · exact Reached.next hx hp hop (Or.inr ⟨r,hr,hle⟩)
  have hfree : p.member.deadlocked = false := by simpa using hfree
  have hr' := hr
  obtain ⟨me,hme,rfl⟩ := Option.map_eq_some_iff.mp hr
  refine Or.inr ?_
  rcases h with ⟨s,e,hl,rfl,rfl,halive | h⟩ | ⟨d,e,hl,rfl,rfl,hdead | h⟩
  · have ht : p.member.nodeTimers s.node = none := by
      cases ht : p.member.nodeTimers s.node with
      | none => rfl
      | some t =>
        obtain ⟨-,r,hr,hs,-⟩ := hp.timed.episode t ht
        cases hr'.symm.trans hr
        rw [halive] at hs
        cases hs
    rw [next_suspect fl hl,suspectNode_accepts (b := genSuspectBroadcast s) hfree hme hx
      (Nat.le_of_not_le hle) ht halive]
    obtain ⟨hy,-⟩ := write_cell (n := p.member.startSuspicion cfg fl e s me)
      (f := Member.suspectRecord s e.now) hp.sound.queue hme (fun _ => rfl) rfl rfl rfl
    exact ⟨_,hy.record_eq,le_refl _⟩
  · exact absurd h hle
  · rw [next_dead fl hl,deadNode_accepts (b := genDeadBroadcast d) hfree hme hx
      (Nat.le_of_not_le hle) hdead]
    obtain ⟨hy,-⟩ := write_cell (n := (p.member.setTimer d.node none).acceptDead e d (-1) me)
      (f := Member.deadRecord d e.now) hp.sound.queue hme (fun _ => rfl) rfl rfl rfl
    exact ⟨_,hy.record_eq,le_refl _⟩
  · exact absurd h hle

/-- A suspicion or a death that landed is not undone by an alive message that is no newer. -/
theorem override {cfg : Config} {fl : Floats} {leaveFd : ℤ} {e : Env} {x addr : String}
    {port i : ℕ} (hx : x ≠ cfg.name) (hport : port < 2 ^ 16) (pre : List Op) (op : Op)
    (mid : List Op) (last : Op)
    (hsame : Transitions.Along (next cfg fl) (SameAddress cfg x addr port) (start cfg leaveFd e)
      (pre ++ op::mid ++ [last]))
    {r : NodeState} (hr : (run cfg fl leaveFd e pre).member.find x = some r)
    (hop : Lands cfg x i r (run cfg fl leaveFd e pre) op) {a : Alive} {env : Env}
    (hlast : (run cfg fl leaveFd e (pre ++ op::mid)).heard cfg last = .alive a env)
    (hinc : a.incarnation ≤ i) :
    ∀ r', (run cfg fl leaveFd e (pre ++ op::mid ++ [last])).member.find x = some r' →
      r'.state = .stateAlive → ∃ s, (run cfg fl leaveFd e (pre ++ op::mid)).member.find x = some s ∧
        s.state = .stateAlive := by
  obtain ⟨hbefore,hsameLast,-⟩ := Transitions.along_append.mp hsame
  obtain ⟨hpre,hsameOp,hmid⟩ := Transitions.along_append.mp hbefore
  have hstep : ∀ p o, SameAddress cfg x addr port p o → p.Settled cfg x addr port ∧ p.Reached x i →
      (p.next cfg fl o).Settled cfg x addr port ∧ (p.next cfg fl o).Reached x i :=
    fun p o ho h => ⟨h.1.next hx hport ho,h.2.next hx h.1 ho⟩
  have h₁ : (run cfg fl leaveFd e pre).Settled cfg x addr port :=
    hpre.invariant (P := Settled cfg x addr port) (start_settled hx leaveFd e addr port)
      fun _ _ ho h => h.next hx hport ho
  have h₂ : (run cfg fl leaveFd e (pre ++ op::mid)).Settled cfg x addr port ∧
      (run cfg fl leaveFd e (pre ++ op::mid)).Reached x i := by
    rw [run,Transitions.run_append]
    exact hmid.invariant ⟨h₁.next hx hport hsameOp,hop.reached hx h₁ hsameOp hr⟩ hstep
  obtain ⟨hsettled,hreached⟩ := h₂
  intro r' hr' halive
  rw [run,Transitions.run_snoc] at hr'
  rcases hreached with hstuck | ⟨s,hs,hi⟩
  · rw [← next_stuck hlast hstuck]
    exact ⟨r',hr',halive⟩
  · refine ⟨s,hs,?_⟩
    obtain ⟨hcell,-⟩ := next_cellStep fl hsettled.sound last x
    obtain ⟨r'',hr'',rfl | ⟨-,-,h⟩ | ⟨a',e',hl,ha',haddr,-⟩⟩ := hcell.advances hx hs
    · cases hr'.symm.trans hr''
      exact halive
    · exact absurd (h a env hlast).2.1 (Nat.not_lt.mpr (hinc.trans hi))
    · rw [hsettled.same hsameLast hs a' e' hl ha'] at haddr
      cases haddr

theorem override_suspect :
    let cfg := defaultLANConfig "node"
    let e : Env := ⟨0,0,0,0,[],[]⟩
    let alive (inc : ℕ) : Op := .alive (genAliveBroadcast ⟨inc,"b","10.0.0.2",6666⟩) (-1) e
    let ops : List Op := [alive 1,.suspect (genSuspectBroadcast ⟨5,"b","c"⟩) e]
    ∀ r', (run cfg .small 3 e (ops ++ [alive 5])).member.find "b" = some r' →
      r'.state = .stateAlive → ∃ s, (run cfg .small 3 e ops).member.find "b" = some s ∧
        s.state = .stateAlive := by
  intro cfg e alive ops
  have hsame : Transitions.Along (next cfg .small) (SameAddress cfg "b" "10.0.0.2" 6666)
      (start cfg 3 e) (ops ++ [alive 5]) := by
    refine ⟨?_,?_,?_,trivial⟩ <;> rintro _ _ ⟨⟩ _
    · exact ⟨rfl,rfl⟩
    · exact ⟨rfl,rfl⟩
  exact override (by decide) (by decide) [alive 1]
    (.suspect (genSuspectBroadcast ⟨5,"b","c"⟩) e) [] (alive 5) hsame
    (r := ⟨⟨"b","10.0.0.2",6666⟩,1,.stateAlive,0⟩) (by decide)
    (Or.inl ⟨_,_,rfl,rfl,rfl,Or.inl rfl⟩) rfl (le_refl 5)

/-- What does not land can be undone: a suspicion that only confirms a running timer,
messages about a dead node, and any message when the port does not fit its field. -/
theorem override_fails :
    let e : Env := ⟨0,0,0,0,[],[]⟩
    let state (ops : List Op) : Option NodeStateType :=
      ((run (defaultLANConfig "node") .small 3 e ops).member.find "b").map (·.state)
    let alive (inc : ℕ) (name : String) (port : ℕ) : Op :=
      .alive (genAliveBroadcast ⟨inc,name,"10.0.0.2",port⟩) (-1) e
    let suspect (inc : ℕ) (from_ : String) : Op := .suspect (genSuspectBroadcast ⟨inc,"b",from_⟩) e
    let dead (inc : ℕ) (from_ : String) : Op := .dead (genDeadBroadcast ⟨inc,"b",from_⟩) e
    let known := [alive 1 "b" 6666,alive 1 "c" 6666,alive 1 "d" 6666]
    (state (known ++ [suspect 1 "c",suspect 5 "d"]) = some .stateSuspect ∧
      state (known ++ [suspect 1 "c",suspect 5 "d",alive 3 "b" 6666]) = some .stateAlive) ∧
    (state (known ++ [dead 1 "c",suspect 5 "d"]) = some .stateDead ∧
      state (known ++ [dead 1 "c",suspect 5 "d",alive 3 "b" 6666]) = some .stateAlive) ∧
    (state (known ++ [dead 1 "c",dead 5 "d"]) = some .stateDead ∧
      state (known ++ [dead 1 "c",dead 5 "d",alive 3 "b" 6666]) = some .stateAlive) ∧
    state [alive 1 "b" 70000,dead 5 "b"] = some .stateLeft ∧
      state [alive 1 "b" 70000,dead 5 "b",alive 3 "b" 70000] = some .stateAlive := by
  decide +kernel

end Process

end GossipMemberlist
