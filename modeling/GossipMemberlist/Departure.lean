import GossipMemberlist.LocalRecord

/-!
# Leaving

A call of `Leave` sets the flag, looks up the local record, reads its number and
hands its own dead message to `deadNode`, one step after the other, and other
threads run in between. The message does its work unless one of them gets there
first: somebody else's dead message is no longer refuted once the flag is set,
and a refutation puts the record ahead of the number that was read.
-/

namespace GossipMemberlist

inductive LeaveStage
  | called | entered | flagged
  | found (me : ℕ)
  | parting (b : Broadcast)
  | parted | returned

/-- A call of `Leave` and everything else that the process does. -/
structure Departure where
  process : Process
  stage : LeaveStage

inductive LeaveOp
  | test | set | lookUp | read
  | dead (e : Env)
  | other (op : Op)

variable {cfg : Config} {fl : Floats}

namespace Departure

/-- The record is read without the lock. -/
def step (cfg : Config) (fl : Floats) (d : Departure) : LeaveOp → Departure
  | .test =>
    match d.stage with
    | .called => { d with stage := if d.process.member.leave then .returned else .entered }
    | _ => d
  | .set =>
    match d.stage with
    | .entered => ⟨d.process.act fun m => { m with leave := true },.flagged⟩
    | _ => d
  | .lookUp =>
    match d.stage, d.process.member.deadlocked with
    | .flagged, false =>
      match d.process.member.table.nodeMap cfg.name with
      | none => { d with stage := .returned }
      | some me => { d with stage := .found me }
    | _, _ => d
  | .read =>
    match d.stage with
    | .found me =>
      let state := d.process.member.table.heap me
      { d with stage := .parting (genDeadBroadcast ⟨state.incarnation,state.n.name,state.n.name⟩) }
    | _ => d
  | .dead e =>
    match d.stage, d.process.member.deadlocked with
    | .parting b, false => ⟨d.process.act (·.deadNode cfg e b),.parted⟩
    | _, _ => d
  | .other op => { d with process := d.process.next cfg fl op }

def run (cfg : Config) (fl : Floats) (p : Process) (ops : List LeaveOp) : Departure :=
  Transitions.run (step cfg fl) ⟨p,.called⟩ ops

/-- The step queues the member's own dead message, to be reported on `leaveFd`. -/
def Announces (cfg : Config) (leaveFd : ℤ) (d d' : Departure) : Prop :=
  ∃ inc, d'.process.member.queue = d.process.member.queue.queueBroadcast
    ⟨cfg.name,genDeadBroadcast ⟨inc,cfg.name,cfg.name⟩,leaveFd⟩ 0

def Announced (cfg : Config) (fl : Floats) (leaveFd : ℤ) (p : Process) (ops : List LeaveOp) :
    Prop :=
  Transitions.Happens (step cfg fl) (fun d op => Announces cfg leaveFd d (d.step cfg fl op))
    ⟨p,.called⟩ ops

/-- Once its `deadNode` has returned, the member has left in its own eyes, and said so. -/
def Leaves (cfg : Config) (fl : Floats) (leaveFd : ℤ) (p : Process) (ops : List LeaveOp) : Prop :=
  let d := run cfg fl p ops
  d.stage = .parted → (∃ s, d.process.member.find cfg.name = some s ∧ s.state = .stateLeft) ∧
    Announced cfg fl leaveFd p ops

end Departure

namespace Member

def Accused (cfg : Config) (accusedInc : ℕ) (m : Member) : Prop :=
  m.deadlocked = false ∧
    ∃ s, m.find cfg.name = some s ∧ s.state = .stateAlive ∧ s.incarnation ≤ accusedInc

/-- The number that a refutation draws: the counter's, or one past the accusation and
the numbers that `UpdateNode` draws meanwhile, in 32 bits. -/
def answer (accusedInc : ℕ) (e : Env) (m : Member) : ℕ :=
  if accusedInc < m.incarnation.load then m.incarnation.load
  else (accusedInc + (raises e.before + 1 + raises e.between)) % 2 ^ 32

theorem refuteInc_answer (cfg : Config) (e : Env) (accusedInc : ℕ) (m : Member) :
    (m.refuteInc cfg e accusedInc).2 = m.answer accusedInc e := by
  have h := refuteInc_total cfg e accusedInc m
  dsimp only at h
  unfold answer
  split_ifs at h ⊢ with hlt
  · exact h.2
  · obtain ⟨ht,hinc⟩ := h
    rw [hinc,WrapCounter.load,ht]
    simp only [WrapCounter.load] at hlt ⊢
    omega

end Member

/-- The step gets ahead of the call: with the flag set it takes in a dead message from
somebody else, or after the record was read it refutes a suspicion with a higher number. -/
def Departure.Overtakes (cfg : Config) (d : Departure) : LeaveOp → Prop
  | .other op =>
    match d.process.heard cfg op with
    | .dead a _ => a.node = cfg.name ∧ a.from_ ≠ cfg.name ∧ d.process.member.leave = true ∧
        d.process.member.Accused cfg a.incarnation
    | .suspect s e => s.node = cfg.name ∧ d.process.member.Accused cfg s.incarnation ∧
        ∃ b, d.stage = .parting b ∧
          b.dead.incarnation < d.process.member.answer s.incarnation e
    | _ => False
  | _ => False

theorem Effect.leaveFd {m m' : Member} {l : Heard} (h : Effect cfg fl m l m') :
    m'.leaveFd = m.leaveFd := by
  cases h with
  | refuted e hr =>
    obtain ⟨i,a,b,t,q,h⟩ := Member.refute_frame cfg e _ (m := m.setTimer cfg.name none) hr
    rw [h]
    rfl
  | confirmed =>
    obtain ⟨q,d,h,-⟩ := Member.confirmTimer_frame fl _ _ _ m
    rw [h]
  | updating u =>
    obtain ⟨i,a,b,h⟩ := Member.updateStep_frame cfg m u
    rw [h]
  | _ => rfl

theorem Process.next_leaveFd (fl : Floats) {p : Process} (hp : p.member.Sound cfg) (op : Op) :
    (p.next cfg fl op).member.leaveFd = p.member.leaveFd := by
  have heffect : Effect cfg fl _ _ _ := step_effect hp op
  obtain ⟨u,-,henters⟩ := p.enters_eq op
  refine heffect.leaveFd.trans ?_
  rw [henters]

/-- The local record is what a process step finds, or has a new number, or is buried. After
the flag has been set, only suspicions are still answered with a number. -/
inductive LocalExit (cfg : Config) (s : NodeState) (m m' : Member) : Heard → Prop
  | same {l} : m'.find cfg.name = some s → LocalExit cfg s m m' l
  | renumbered {l inc} : m.leave = false → m'.find cfg.name = some { s with incarnation := inc } →
      LocalExit cfg s m m' l
  | answered {a e} : a.node = cfg.name → m.Accused cfg a.incarnation →
      m'.find cfg.name = some { s with incarnation := m.answer a.incarnation e } →
      LocalExit cfg s m m' (.suspect a e)
  | buried {d e} : d.node = cfg.name → m.leave = true → m.Accused cfg d.incarnation →
      m'.find cfg.name = some (Member.deadRecord d e.now s) →
      m'.queue = m.queue.queueBroadcast ⟨cfg.name,genDeadBroadcast d,m.leaveFd⟩ 0 →
      LocalExit cfg s m m' (.dead d e)

namespace Member

theorem suspectNode_local {m : Member} {s : NodeState} (hs : m.find cfg.name = some s)
    (htimer : m.nodeTimers cfg.name = none) {b : Broadcast} (hb : b.suspect.node = cfg.name)
    (e : Env) : LocalExit cfg s m (m.suspectNode cfg fl e b) (.suspect b.suspect e) := by
  have h : SuspectExit cfg fl e b.suspect m _ := suspectNode_exit m e b
  generalize m.suspectNode cfg fl e b = m' at h ⊢
  cases h with
  | confirmed _ _ _ ht =>
    rw [hb,htimer] at ht
    cases ht
  | @refuted r hd hr _ hinc _ halive =>
    rw [hb] at hr
    cases hs.symm.trans (Table.find_eq hr)
    refine .answered hb ⟨hd,_,hs,halive,hinc⟩ ?_
    rw [refute_eq cfg e _ hr,← refuteInc_answer cfg]
    simp only [find,Table.find_modify hr,if_true]
  | suspected _ _ hne => exact absurd hb hne
  | _ => exact .same hs

theorem deadNode_local {m : Member} {s : NodeState} (hs : m.find cfg.name = some s)
    (hstate : s.state ≠ .stateSuspect) (hm : m.queue.Consistent) (hleave : m.leave = true)
    {b : Broadcast} (hb : b.dead.node = cfg.name) (e : Env) :
    LocalExit cfg s m (m.deadNode cfg e b) (.dead b.dead e) := by
  have h : DeadExit cfg e b.dead m _ := deadNode_exit m e b
  generalize m.deadNode cfg e b = m' at h ⊢
  cases h with
  | refuted _ _ _ _ _ h =>
    rw [hleave] at h
    cases h
  | @buried r hd hr hinc hdead =>
    rw [hb] at hr
    cases hs.symm.trans (Table.find_eq hr)
    have halive : (m.table.heap r).state = .stateAlive := by
      cases h : (m.table.heap r).state <;> simp_all [NodeState.deadOrLeft]
    obtain ⟨hcell,-⟩ := acceptDead_cell hm (show m.table.nodeMap b.dead.node = some r from hb ▸ hr)
      e m.leaveFd
    rw [if_pos hb]
    refine .buried hb hleave ⟨hd,_,hs,halive,hinc⟩ (hb ▸ hcell.record_eq) ?_
    rw [← hb]
    rfl
  | _ => exact .same hs

end Member

/-- Only messages about the local node change its record, and before the flag is set they
change no more than its number. -/
theorem CellStep.record_cases {leave : Bool} {lo hi : ℕ} {c c' : Cell} {l : Heard}
    (h : CellStep cfg fl cfg.name leave lo hi c c' l) {s : NodeState} (hs : c.record = some s) :
    c'.record = some s ∨ (∃ accusedInc, l.about = some (cfg.name,accusedInc)) ∧
      (leave = true ∨ ∃ inc, c'.record = some { s with incarnation := inc }) := by
  obtain ⟨s',hs',h⟩ := h.recordStep hs
  cases h with
  | kept => exact Or.inl hs'
  | accepted _ hne => exact absurd rfl hne
  | replaced _ hne => exact absurd rfl hne
  | suspected _ hne => exact absurd rfl hne
  | refuted _ hab => exact Or.inr ⟨⟨_,hab⟩,Or.inr ⟨_,hs'⟩⟩
  | @buried d _ hd _ _ hleave =>
    exact Or.inr ⟨⟨d.incarnation,by rw [← hd]; rfl⟩,Or.inl (hleave rfl)⟩

/-- What a step of any thread does to the local record. -/
theorem Process.next_localExit (fl : Floats) {p : Process} (hp : p.member.Sound cfg)
    (htimer : p.member.nodeTimers cfg.name = none) {s : NodeState}
    (hs : p.member.find cfg.name = some s) (hstate : s.state ≠ .stateSuspect) (op : Op) :
    LocalExit cfg s p.member (p.next cfg fl op).member (p.heard cfg op) := by
  obtain ⟨hcell,-⟩ := next_cellStep fl hp op cfg.name
  rcases hcell.record_cases hs with hsame | ⟨⟨accusedInc,hab⟩,hchange⟩
  · exact .same hsame
  cases hflag : p.member.leave with
  | false =>
    rw [hflag] at hchange
    obtain ⟨inc,hinc⟩ := hchange.resolve_left Bool.false_ne_true
    exact .renumbered hflag hinc
  | true =>
    cases hl : p.heard cfg op with
    | alive a e =>
      have ha : a.node = cfg.name := by
        rw [hl] at hab
        exact congrArg Prod.fst (Option.some.inj hab)
      obtain ⟨notifyFd,hnext⟩ := next_alive fl hl
      obtain ⟨u,-,henters⟩ := p.enters_eq op
      refine .same ?_
      rw [hnext,henters]
      simpa [Member.aliveNode,hflag,ha,Member.find] using hs
    | suspect a e =>
      have ha : a.node = cfg.name := by
        rw [hl] at hab
        exact congrArg Prod.fst (Option.some.inj hab)
      rw [next_suspect fl hl]
      exact Member.suspectNode_local hs htimer (b := genSuspectBroadcast a) ha e
    | dead d e =>
      have hd : d.node = cfg.name := by
        rw [hl] at hab
        exact congrArg Prod.fst (Option.some.inj hab)
      rw [next_dead fl hl]
      exact Member.deadNode_local hs hstate hp.queue hflag (b := genDeadBroadcast d) hd e
    | nothing =>
      rw [hl] at hab
      cases hab

/-- The local record is alive and within `P`, or has left, and that has been `said`. -/
def Member.Goes (cfg : Config) (said : Prop) (P : NodeState → Prop) (m : Member) : Prop :=
  ∃ s, m.find cfg.name = some s ∧ (s.state = .stateAlive ∧ P s ∨ s.state = .stateLeft ∧ said)

inductive LeaveStage.Fits (cfg : Config) (said : Prop) (m : Member) : LeaveStage → Prop
  | called : Fits cfg said m .called
  | entered : m.Goes cfg said (fun _ => True) → Fits cfg said m .entered
  | flagged : m.leave = true → m.Goes cfg said (fun _ => True) → Fits cfg said m .flagged
  | found {me} : m.leave = true → m.table.nodeMap cfg.name = some me →
      m.Goes cfg said (fun _ => True) → Fits cfg said m (.found me)
  | parting {inc} : m.leave = true → m.Goes cfg said (·.incarnation ≤ inc) →
      Fits cfg said m (.parting (genDeadBroadcast ⟨inc,cfg.name,cfg.name⟩))
  | parted : m.leave = true → m.Goes cfg said (fun _ => False) → Fits cfg said m .parted
  | returned : Fits cfg said m .returned

namespace Departure

structure Sound (cfg : Config) (leaveFd : ℤ) (said : Prop) (d : Departure) : Prop where
  sound : d.process.member.Sound cfg
  localCell : (d.process.member.cell cfg.name).Local cfg d.process.member.leave
    d.process.member.incarnation.total
  leaveFd_eq : d.process.member.leaveFd = leaveFd
  fits : d.stage.Fits cfg said d.process.member

end Departure

theorem Member.Goes.mono {said said' : Prop} {P : NodeState → Prop} {m : Member}
    (h : m.Goes cfg said P) (hsaid : said → said') : m.Goes cfg said' P := by
  obtain ⟨s,hs,h⟩ := h
  exact ⟨s,hs,h.imp_right (And.imp_right hsaid)⟩

theorem LeaveStage.Fits.mono {said said' : Prop} {m : Member} {stage : LeaveStage}
    (h : stage.Fits cfg said m) (hsaid : said → said') : stage.Fits cfg said' m := by
  cases h with
  | called => exact .called
  | entered h => exact .entered (h.mono hsaid)
  | flagged hl h => exact .flagged hl (h.mono hsaid)
  | found hl hme h => exact .found hl hme (h.mono hsaid)
  | parting hl h => exact .parting hl (h.mono hsaid)
  | parted hl h => exact .parted hl (h.mono hsaid)
  | returned => exact .returned

/-- A step that does not get ahead of the call leaves its way open. -/
theorem LocalExit.goes {m m' : Member} {l : Heard} {s : NodeState} (h : LocalExit cfg s m m' l)
    (hs : m.find cfg.name = some s) {said : Prop} {P : NodeState → Prop}
    (hgoes : s.state = .stateAlive ∧ P s ∨ s.state = .stateLeft ∧ said)
    (hleft : m.leave = false → s.state = .stateAlive)
    (hnumber : ∀ inc, m.leave = false → P { s with incarnation := inc })
    (hanswer : ∀ a e, l = .suspect a e → a.node = cfg.name → m.Accused cfg a.incarnation → P s →
      P { s with incarnation := m.answer a.incarnation e })
    (hdead : ∀ d e, l = .dead d e → d.node = cfg.name → m.leave = true →
      m.Accused cfg d.incarnation → d.from_ = cfg.name) :
    m'.Goes cfg (said ∨ ∃ inc, m'.queue = m.queue.queueBroadcast
      ⟨cfg.name,genDeadBroadcast ⟨inc,cfg.name,cfg.name⟩,m.leaveFd⟩ 0) P := by
  have halive {inc : ℕ} (h : m.Accused cfg inc) : s.state = .stateAlive := by
    obtain ⟨-,t,ht,halive,-⟩ := h
    cases hs.symm.trans ht
    exact halive
  cases h with
  | same hs' => exact ⟨s,hs',hgoes.imp_right (And.imp_right Or.inl)⟩
  | renumbered hl hs' => exact ⟨_,hs',Or.inl ⟨hleft hl,hnumber _ hl⟩⟩
  | answered ha hacc hs' =>
    rcases hgoes with ⟨-,hP⟩ | ⟨hleft,-⟩
    · exact ⟨_,hs',Or.inl ⟨halive hacc,hanswer _ _ rfl ha hacc hP⟩⟩
    · rw [halive hacc] at hleft
      cases hleft
  | @buried d e hd hl hacc hs' hq =>
    have hfrom := hdead d e rfl hd hl hacc
    refine ⟨_,hs',Or.inr ⟨by rw [Member.deadRecord,hd,hfrom,if_pos rfl],Or.inr ?_⟩⟩
    refine ⟨d.incarnation,?_⟩
    rw [hq]
    obtain ⟨inc,node,from_⟩ := d
    cases hd
    cases hfrom
    rfl

namespace Departure

theorem Sound.effect (fl : Floats) {leaveFd : ℤ} {said : Prop} {d : Departure}
    (hd : d.Sound cfg leaveFd said)
    {m' : Member} {l : Heard} (h : Effect cfg fl d.process.member l m') :
    m'.Sound cfg ∧ (m'.cell cfg.name).Local cfg m'.leave m'.incarnation.total ∧
      m'.leaveFd = leaveFd :=
  ⟨h.sound hd.sound,(h.cellStep hd.sound.queue cfg.name).local
    (h.leave.imp_right fun h => congrArg Member.leave h.2) h.incarnation hd.localCell,
    h.leaveFd.trans hd.leaveFd_eq⟩

theorem Sound.goes (fl : Floats) {leaveFd : ℤ} {said : Prop} {d : Departure}
    (hd : d.Sound cfg leaveFd said) {op : Op} (hop : ¬d.Overtakes cfg (.other op))
    {P : NodeState → Prop} (h : d.process.member.Goes cfg said P)
    (hnumber : ∀ (s : NodeState) inc, d.process.member.leave = false →
      P { s with incarnation := inc })
    (hanswer : ∀ (s : NodeState) a e, d.process.heard cfg op = .suspect a e → a.node = cfg.name →
      d.process.member.Accused cfg a.incarnation → P s →
      P { s with incarnation := d.process.member.answer a.incarnation e }) :
    let d' := d.step cfg fl (.other op)
    d'.process.member.Goes cfg (said ∨ Announces cfg leaveFd d d') P := by
  intro d'
  obtain ⟨s,hs,h⟩ := h
  have hstate : s.state ≠ .stateSuspect := by rcases h with ⟨h,-⟩ | ⟨h,-⟩ <;> simp [h]
  have hexit := Process.next_localExit fl hd.sound hd.localCell.timer hs hstate op
  rw [Announces,← hd.leaveFd_eq]
  refine hexit.goes hs h (fun hl => ?_) (fun inc hl => hnumber s inc hl)
    (fun a e ha hnode hacc hP => hanswer s a e ha hnode hacc hP) (fun a e ha hnode hl hacc => ?_)
  · obtain ⟨-,t,ht,-,halive⟩ := hd.localCell
    cases hs.symm.trans ht
    exact (halive hl).1
  · by_contra hfrom
    refine hop ?_
    rw [Overtakes,ha]
    exact ⟨hnode,hfrom,hl,hacc⟩

/-- Another thread's step keeps the call on its way. -/
theorem Sound.other (fl : Floats) {leaveFd : ℤ} {said : Prop} {d : Departure}
    (hd : d.Sound cfg leaveFd said) {op : Op} (hop : ¬d.Overtakes cfg (.other op)) :
    let d' := d.step cfg fl (.other op)
    d.stage.Fits cfg (said ∨ Announces cfg leaveFd d d') d'.process.member := by
  intro d'
  let m := d.process.member
  obtain ⟨-,hflag,-⟩ := Process.next_cellStep fl hd.sound op cfg.name
  have hleave (h : m.leave = true) : d'.process.member.leave = true :=
    hflag.elim (fun h' => h'.trans h) id
  have hset {P : Prop} (hl : m.leave = true) (h : m.leave = false) : P := by
    rw [hl] at h
    cases h
  have hopen (h : m.Goes cfg said fun _ => True) := hd.goes fl hop h (fun _ _ _ => trivial)
    fun _ _ _ _ _ _ _ => trivial
  have hfits := hd.fits
  cases hstage : d.stage with
  | called => exact .called
  | returned => exact .returned
  | entered =>
    rw [hstage] at hfits
    cases hfits with
    | entered h => exact .entered (hopen h)
  | flagged =>
    rw [hstage] at hfits
    cases hfits with
    | flagged hl h => exact .flagged (hleave hl) (hopen h)
  | found me =>
    rw [hstage] at hfits
    cases hfits with
    | found hl hme h =>
      have heffect : Effect cfg fl _ _ _ := step_effect hd.sound op
      obtain ⟨u,-,henters⟩ := d.process.enters_eq op
      refine .found (hleave hl) (heffect.nodeMap ?_) (hopen h)
      rwa [henters]
  | parting b =>
    rw [hstage] at hfits
    cases hfits with
    | parting hl h =>
      refine .parting (hleave hl) (hd.goes fl hop h (fun _ _ => hset hl) ?_)
      intro s a e ha hnode hacc _
      by_contra hlt
      refine hop ?_
      rw [Overtakes,ha]
      exact ⟨hnode,hacc,_,hstage,not_le.mp hlt⟩
  | parted =>
    rw [hstage] at hfits
    cases hfits with
    | parted hl h =>
      exact .parted (hleave hl) (hd.goes fl hop h (fun _ _ => hset hl) fun _ _ _ _ _ _ => id)

theorem Sound.dead {leaveFd : ℤ} {said : Prop} {d : Departure} (hd : d.Sound cfg leaveFd said)
    (hfree : d.process.member.deadlocked = false) {b : Broadcast} (hstage : d.stage = .parting b)
    (e : Env) :
    let m' := d.process.member.deadNode cfg e b
    LeaveStage.parted.Fits cfg (said ∨ ∃ inc, m'.queue = d.process.member.queue.queueBroadcast
      ⟨cfg.name,genDeadBroadcast ⟨inc,cfg.name,cfg.name⟩,leaveFd⟩ 0) m' := by
  intro m'
  have hfits := hd.fits
  rw [hstage] at hfits
  cases hfits with
  | @parting inc hl h =>
    obtain ⟨s,hs,hgoes⟩ := h
    have hstate : s.state ≠ .stateSuspect := by rcases hgoes with ⟨h,-⟩ | ⟨h,-⟩ <;> simp [h]
    have hleave : m'.leave = true := by
      have heffect : Effect cfg .small d.process.member _ m' := deadNode_effect _ e _
      rcases heffect.leave with h | ⟨-,h⟩
      · exact h.trans hl
      · rw [h]
    refine .parted hleave ?_
    rcases hgoes with ⟨halive,hle⟩ | ⟨hleft,hsaid⟩
    · obtain ⟨r,hr,rfl⟩ := Option.map_eq_some_iff.mp hs
      have hname := d.process.member.table.named hr
      have hm' : m' = (d.process.member.setTimer cfg.name none).acceptDead e ⟨inc,cfg.name,cfg.name⟩
          d.process.member.leaveFd r := by
        simp [m',Member.deadNode,hfree,hr,hname,hl,Nat.not_lt.mpr hle,NodeState.deadOrLeft,halive,
          Member.setTimer]
      obtain ⟨hcell,-⟩ := acceptDead_cell (d := ⟨inc,cfg.name,cfg.name⟩) hd.sound.queue hr e
        d.process.member.leaveFd
      refine ⟨_,(congrArg (Member.find cfg.name) hm').trans hcell.record_eq,Or.inr ⟨?_,Or.inr ?_⟩⟩
      · rw [Member.deadRecord,if_pos rfl]
      · rw [hm',← hd.leaveFd_eq]
        exact ⟨inc,rfl⟩
    · have hexit := Member.deadNode_local hs hstate hd.sound.queue hl
        (b := genDeadBroadcast ⟨inc,cfg.name,cfg.name⟩) rfl e
      rw [← hd.leaveFd_eq]
      refine hexit.goes hs (Or.inr ⟨hleft,hsaid⟩) (fun h => ?_) (fun _ h => ?_)
        (fun _ _ h => by cases h) fun _ _ h _ _ _ => by cases h; rfl
      all_goals
        rw [hl] at h
        cases h

theorem Sound.stay {leaveFd : ℤ} {said : Prop} {d : Departure} (hd : d.Sound cfg leaveFd said)
    (q : Prop) : d.Sound cfg leaveFd (said ∨ q) :=
  ⟨hd.sound,hd.localCell,hd.leaveFd_eq,hd.fits.mono Or.inl⟩

theorem Sound.test (fl : Floats) {leaveFd : ℤ} {said : Prop} {d : Departure}
    (hd : d.Sound cfg leaveFd said) : (d.step cfg fl .test).Sound cfg leaveFd said := by
  simp only [Departure.step]
  split
  · refine ⟨hd.sound,hd.localCell,hd.leaveFd_eq,?_⟩
    split
    · exact .returned
    · rename_i hleave
      obtain ⟨-,s,hs,-,halive⟩ := hd.localCell
      exact .entered ⟨s,hs,Or.inl ⟨(halive (by simpa using hleave)).1,trivial⟩⟩
  · exact hd

theorem Sound.set (fl : Floats) {leaveFd : ℤ} {said : Prop} {d : Departure}
    (hd : d.Sound cfg leaveFd said) : (d.step cfg fl .set).Sound cfg leaveFd said := by
  simp only [Departure.step]
  split
  · rename_i hstage
    have hfits := hd.fits
    rw [hstage] at hfits
    obtain ⟨hsound,hlocal,hfd⟩ := hd.effect fl .leaving
    cases hfits with
    | entered h => exact ⟨hsound,hlocal,hfd,.flagged rfl h⟩
  · exact hd

theorem Sound.lookUp (fl : Floats) {leaveFd : ℤ} {said : Prop} {d : Departure}
    (hd : d.Sound cfg leaveFd said) : (d.step cfg fl .lookUp).Sound cfg leaveFd said := by
  simp only [Departure.step]
  split
  · rename_i hstage _
    have hfits := hd.fits
    rw [hstage] at hfits
    cases hfits with
    | flagged hl h =>
      split
      · exact ⟨hd.sound,hd.localCell,hd.leaveFd_eq,.returned⟩
      · rename_i me hme
        exact ⟨hd.sound,hd.localCell,hd.leaveFd_eq,.found hl hme h⟩
  · exact hd

theorem Sound.read (fl : Floats) {leaveFd : ℤ} {said : Prop} {d : Departure}
    (hd : d.Sound cfg leaveFd said) : (d.step cfg fl .read).Sound cfg leaveFd said := by
  simp only [Departure.step]
  split
  · rename_i me hstage
    have hfits := hd.fits
    rw [hstage] at hfits
    cases hfits with
    | found hl hme h =>
      obtain ⟨s,hs,hgoes⟩ := h
      cases hs.symm.trans (Table.find_eq hme)
      rw [d.process.member.table.named hme]
      refine ⟨hd.sound,hd.localCell,hd.leaveFd_eq,.parting hl ⟨_,hs,?_⟩⟩
      exact hgoes.imp_left fun h => ⟨h.1,le_refl _⟩
  · exact hd

theorem Sound.step {leaveFd : ℤ} {said : Prop} {d : Departure} (hd : d.Sound cfg leaveFd said)
    {op : LeaveOp} (hop : ¬d.Overtakes cfg op) :
    (d.step cfg fl op).Sound cfg leaveFd
      (said ∨ Announces cfg leaveFd d (d.step cfg fl op)) := by
  cases op with
  | test => exact (hd.test fl).stay _
  | set => exact (hd.set fl).stay _
  | lookUp => exact (hd.lookUp fl).stay _
  | read => exact (hd.read fl).stay _
  | dead e =>
    simp only [Departure.step]
    split
    · rename_i b hstage hfree
      obtain ⟨hsound,hlocal,hfd⟩ := hd.effect fl (deadNode_effect _ e b)
      exact ⟨hsound,hlocal,hfd,hd.dead hfree hstage e⟩
    · exact hd.stay _
  | other op =>
    obtain ⟨hcell,hleave,htotal⟩ := Process.next_cellStep fl hd.sound op cfg.name
    exact ⟨Process.next_sound hd.sound op,hcell.local hleave htotal hd.localCell,
      (Process.next_leaveFd fl hd.sound op).trans hd.leaveFd_eq,hd.other fl hop⟩

theorem start_sound (cfg : Config) (fl : Floats) (leaveFd : ℤ) (e : Env) (ops : List Op)
    (said : Prop) : Sound cfg leaveFd said ⟨Process.run cfg fl leaveFd e ops,.called⟩ := by
  refine ⟨Process.run_sound cfg fl leaveFd e ops,Process.run_local cfg fl leaveFd e ops,?_,.called⟩
  refine (Transitions.run_invariant (P := fun p : Process => p.member.Sound cfg ∧
    p.member.leaveFd = leaveFd) ⟨Process.start_sound cfg leaveFd e,?_⟩
    (fun p op hp => ⟨Process.next_sound hp.1 op,?_⟩) ops).2
  · rw [Process.start_member]
    rfl
  · exact (Process.next_leaveFd fl hp.1 op).trans hp.2

/-- A member that is not overtaken leaves. -/
theorem leave_departs (cfg : Config) (fl : Floats) (leaveFd : ℤ) (e : Env) (ops : List Op)
    {calls : List LeaveOp} (hcalls : Transitions.Along (step cfg fl)
      (fun d op => ¬d.Overtakes cfg op) ⟨Process.run cfg fl leaveFd e ops,.called⟩ calls) :
    Leaves cfg fl leaveFd (Process.run cfg fl leaveFd e ops) calls := by
  intro hparted
  let d := run cfg fl (Process.run cfg fl leaveFd e ops) calls
  have hsound : d.Sound cfg leaveFd
      (Announced cfg fl leaveFd (Process.run cfg fl leaveFd e ops) calls) := by
    refine hcalls.history (P := fun calls d => d.Sound cfg leaveFd
      (Announced cfg fl leaveFd (Process.run cfg fl leaveFd e ops) calls))
      (start_sound cfg fl leaveFd e ops _) fun calls op hop hd => ?_
    rw [Announced,Transitions.happens_snoc]
    exact hd.step hop
  have hfits := hsound.fits
  rw [show d.stage = .parted from hparted] at hfits
  cases hfits with
  | parted _ h =>
    obtain ⟨s,hs,⟨-,⟨⟩⟩ | ⟨hleft,hsaid⟩⟩ := h
    exact ⟨⟨s,hs,hleft⟩,hsaid⟩

/-- A suspicion that comes before the record is read does no harm. -/
theorem leave_departs_suspected :
    let node := defaultLANConfig "node"
    let e : Env := ⟨0,0,0,0,[],[]⟩
    let suspect : LeaveOp := .other (.suspect (genSuspectBroadcast ⟨1,"node","c"⟩) e)
    Leaves node .small 3 (Process.run node .small 3 e [])
      [.test,.set,.lookUp,suspect,.read,.dead e] := by
  intro node e suspect
  refine leave_departs node .small 3 e [] ⟨id,id,id,?_,id,id,trivial⟩
  rintro ⟨-,-,b,hb,-⟩
  cases hb

/-- Another member's dead message after the flag has been set, and a suspicion between the
reading of the record and the call of `deadNode`. -/
theorem leave_overtaken :
    let node := defaultLANConfig "node"
    let e : Env := ⟨0,0,0,0,[],[]⟩
    let p := Process.run node .small 3 e []
    let buried : List LeaveOp :=
      [.test,.set,.other (.dead (genDeadBroadcast ⟨1,"node","c"⟩) e),.lookUp,.read,.dead e]
    let refuted : List LeaveOp :=
      [.test,.set,.lookUp,.read,.other (.suspect (genSuspectBroadcast ⟨1,"node","c"⟩) e),.dead e]
    ¬Leaves node .small 3 p buried ∧ ¬Leaves node .small 3 p refuted ∧
      (run node .small p buried).process.member.find "node" =
        some ⟨⟨"node","",6666⟩,1,.stateDead,0⟩ ∧
      (run node .small p refuted).process.member.find "node" =
        some ⟨⟨"node","",6666⟩,2,.stateAlive,0⟩ := by
  intro node e p buried refuted
  have hburied : (run node .small p buried).process.member.find "node" =
      some ⟨⟨"node","",6666⟩,1,.stateDead,0⟩ := by decide +kernel
  have hrefuted : (run node .small p refuted).process.member.find "node" =
      some ⟨⟨"node","",6666⟩,2,.stateAlive,0⟩ := by decide +kernel
  refine ⟨fun h => ?_,fun h => ?_,hburied,hrefuted⟩
  · obtain ⟨⟨s,hs,hleft⟩,-⟩ := h rfl
    cases hs.symm.trans hburied
    cases hleft
  · obtain ⟨⟨s,hs,hleft⟩,-⟩ := h rfl
    cases hs.symm.trans hrefuted
    cases hleft

end Departure

end GossipMemberlist
