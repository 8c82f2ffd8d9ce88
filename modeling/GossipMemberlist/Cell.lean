import GossipMemberlist.Effects
import Mathlib.Data.Set.Basic

/-!
# What a member knows about one name

The abstract view of a member: for every name the record, the running timer and
the rumours that wait to be gossiped. A step of the member moves each name's cell
by one of the transitions below, and these say all that a later proof about
records, timers or queued rumours needs.
-/

namespace GossipMemberlist

structure Cell where
  record : Option NodeState
  timer : Option Suspicion
  rumours : Set Broadcast

def Member.cell (x : String) (m : Member) : Cell :=
  ⟨m.find x,m.nodeTimers x,{b | ∃ e ∈ m.queue.tq, e.b.node = x ∧ e.b.msg = b}⟩

/-- The queue may drop a rumour at any time, so only an upper bound is known. -/
structure Cell.Becomes (c : Cell) (record : Option NodeState) (timer : Option Suspicion)
    (rumours : Set Broadcast) : Prop where
  record_eq : c.record = record
  timer_eq : c.timer = timer
  rumours_sub : c.rumours ⊆ rumours

abbrev Cell.Keeps (c c' : Cell) : Prop := c'.Becomes c.record c.timer c.rumours

/-- The transitions of the cell of `x`; `leave` is the flag before the step, `lo` and
`hi` the totals of the counter before and after it. -/
inductive CellStep (cfg : Config) (fl : Floats) (x : String) (leave : Bool) (lo hi : ℕ)
    (c c' : Cell) : Heard → Prop
  | kept {l} : c.Keeps c' → CellStep cfg fl x leave lo hi c c' l
  | disarmed {l s} : c.record = some s → x = cfg.name ∨ s.deadOrLeft = true →
      c'.Becomes c.record none c.rumours → CellStep cfg fl x leave lo hi c c' l
  | ended {l t} : c.timer = some t →
      c'.Becomes c.record (some { t with running := false }) c.rumours →
      CellStep cfg fl x leave lo hi c c' l
  | created {a e} : c.record = none → a.node = x → x ≠ cfg.name → a.incarnation = 0 →
      c'.Becomes (some (Member.newNodeState e a)) c.timer c.rumours →
      CellStep cfg fl x leave lo hi c c' (.alive a e)
  | joined {a e} : c.record = none → a.node = x → x ≠ cfg.name → 0 < a.incarnation →
      c'.Becomes (some (Member.aliveRecord a e.later (Member.newNodeState e a))) none
        {genAliveBroadcast a} → CellStep cfg fl x leave lo hi c c' (.alive a e)
  | accepted {a e s} : c.record = some s → a.node = x → x ≠ cfg.name →
      Member.addressDiffers a s = false → s.incarnation < a.incarnation →
      c'.Becomes (some (Member.aliveRecord a e.later s)) none {genAliveBroadcast a} →
      CellStep cfg fl x leave lo hi c c' (.alive a e)
  | replaced {a e s} : c.record = some s → a.node = x → x ≠ cfg.name →
      Member.addressDiffers a s = true → Member.canReplace cfg e.now s = true →
      c'.Becomes (some (Member.aliveRecord a e.later s)) none {genAliveBroadcast a} →
      CellStep cfg fl x leave lo hi c c' (.alive a e)
  | refuted {l s accusedInc inc} : c.record = some s → x = cfg.name →
      l.about = some (x,accusedInc) → leave = false ∨ s.state = .stateAlive →
      s.incarnation ≤ accusedInc → (hi < 2 ^ 32 → lo ≤ inc) → inc ≤ hi →
      c'.Becomes (some { s with incarnation := inc }) none
        {genAliveBroadcast ⟨inc,x,s.n.addr,s.n.port.toNat⟩} →
      CellStep cfg fl x leave lo hi c c' l
  | confirmed {s e r t} : c.record = some r → s.node = x → r.incarnation ≤ s.incarnation →
      c.timer = some t →
      c'.Becomes c.record (some (t.confirm fl e.now s.from_).1) c.rumours ∨
        (t.confirm fl e.now s.from_).2 = .counted ∧
        c'.Becomes c.record (some (t.confirm fl e.now s.from_).1) {genSuspectBroadcast s} →
      CellStep cfg fl x leave lo hi c c' (.suspect s e)
  | suspected {s e r n} : c.record = some r → s.node = x → x ≠ cfg.name →
      r.incarnation ≤ s.incarnation → c.timer = none → r.state = .stateAlive →
      c'.Becomes (some (Member.suspectRecord s e.now r))
        (some (Member.newSuspicion cfg fl e s n)) {genSuspectBroadcast s} →
      CellStep cfg fl x leave lo hi c c' (.suspect s e)
  | buried {d e r} : c.record = some r → d.node = x → r.incarnation ≤ d.incarnation →
      r.deadOrLeft = false → (x = cfg.name → leave = true) →
      c'.Becomes (some (Member.deadRecord d e.now r)) none {genDeadBroadcast d} →
      CellStep cfg fl x leave lo hi c c' (.dead d e)

/-- The same transitions, seen on a record that is there: kept as it is or written anew. -/
inductive RecordStep (cfg : Config) (x : String) (leave : Bool) (lo hi : ℕ) (s : NodeState) :
    Heard → NodeState → Prop
  | kept {l} : RecordStep cfg x leave lo hi s l s
  | accepted {a e} : a.node = x → x ≠ cfg.name → Member.addressDiffers a s = false →
      s.incarnation < a.incarnation →
      RecordStep cfg x leave lo hi s (.alive a e) (Member.aliveRecord a e.later s)
  | replaced {a e} : a.node = x → x ≠ cfg.name → Member.addressDiffers a s = true →
      Member.canReplace cfg e.now s = true →
      RecordStep cfg x leave lo hi s (.alive a e) (Member.aliveRecord a e.later s)
  | refuted {l accusedInc inc} : x = cfg.name → l.about = some (x,accusedInc) →
      leave = false ∨ s.state = .stateAlive → (hi < 2 ^ 32 → lo ≤ inc) → inc ≤ hi →
      RecordStep cfg x leave lo hi s l { s with incarnation := inc }
  | suspected {a e} : a.node = x → x ≠ cfg.name → s.incarnation ≤ a.incarnation →
      s.state = .stateAlive →
      RecordStep cfg x leave lo hi s (.suspect a e) (Member.suspectRecord a e.now s)
  | buried {d e} : d.node = x → s.incarnation ≤ d.incarnation → s.deadOrLeft = false →
      (x = cfg.name → leave = true) →
      RecordStep cfg x leave lo hi s (.dead d e) (Member.deadRecord d e.now s)

variable {cfg : Config} {fl : Floats}

theorem CellStep.recordStep {x : String} {leave : Bool} {lo hi : ℕ} {c c' : Cell} {l : Heard}
    (h : CellStep cfg fl x leave lo hi c c' l) {s : NodeState} (hs : c.record = some s) :
    ∃ s', c'.record = some s' ∧ RecordStep cfg x leave lo hi s l s' := by
  cases h with
  | kept h => exact ⟨s,h.record_eq.trans hs,.kept⟩
  | disarmed _ _ h => exact ⟨s,h.record_eq.trans hs,.kept⟩
  | ended _ h => exact ⟨s,h.record_eq.trans hs,.kept⟩
  | confirmed _ _ _ _ h => exact ⟨s,(h.elim (·.record_eq) (·.2.record_eq)).trans hs,.kept⟩
  | created hnone => rw [hs] at hnone; cases hnone
  | joined hnone => rw [hs] at hnone; cases hnone
  | accepted hr ha hx haddr hinc h =>
    cases hs.symm.trans hr
    exact ⟨_,h.record_eq,.accepted ha hx haddr hinc⟩
  | replaced hr ha hx haddr hrep h =>
    cases hs.symm.trans hr
    exact ⟨_,h.record_eq,.replaced ha hx haddr hrep⟩
  | refuted hr hx hl hleave _ hlo hhi h =>
    cases hs.symm.trans hr
    exact ⟨_,h.record_eq,.refuted hx hl hleave hlo hhi⟩
  | suspected hr ha hx hinc _ halive h =>
    cases hs.symm.trans hr
    exact ⟨_,h.record_eq,.suspected ha hx hinc halive⟩
  | buried hr hd hinc hdead hleave h =>
    cases hs.symm.trans hr
    exact ⟨_,h.record_eq,.buried hd hinc hdead hleave⟩

theorem Cell.Keeps.refl (c : Cell) : c.Keeps c := ⟨rfl,rfl,subset_rfl⟩

theorem cell_record {m : Member} {x : String} {r : ℕ} (h : m.table.nodeMap x = some r) :
    (m.cell x).record = some (m.table.heap r) := Table.find_eq h

theorem cell_record_none {m : Member} {x : String} (h : m.table.nodeMap x = none) :
    (m.cell x).record = none := Table.find_eq_none.mpr h

/-- Queueing under one name leaves the new rumour there and adds none elsewhere. -/
theorem queueBroadcast_rumours {m n : Member} {b : MemberlistBroadcast}
    (hm : m.queue.Consistent) (h : n.queue = m.queue.queueBroadcast b 0) :
    (n.cell b.node).rumours ⊆ {b.msg} ∧
      ∀ x ≠ b.node, (n.cell x).rumours ⊆ (m.cell x).rumours := by
  simp only [Member.cell,h]
  constructor
  · rintro _ ⟨e,he,hn,rfl⟩
    rcases BroadcastQueue.mem_queueBroadcast hm he with h | ⟨-,h⟩
    · rw [h]; rfl
    · exact absurd hn h
  · rintro x hx _ ⟨e,he,hn,rfl⟩
    rcases BroadcastQueue.mem_queueBroadcast hm he with h | ⟨h,-⟩
    · exact absurd (h ▸ hn).symm hx
    · exact ⟨e,h,hn,rfl⟩

theorem write_cell {m n : Member} {y : String} {r : ℕ} {f : NodeState → NodeState}
    {t : Option Suspicion} {b : Broadcast} {notifyFd : ℤ}
    (hm : m.queue.Consistent) (hr : m.table.nodeMap y = some r)
    (hf : ∀ s, (f s).n.name = s.n.name) (htable : n.table = m.table.modify r f hf)
    (htimer : n.nodeTimers = Function.update m.nodeTimers y t)
    (hqueue : n.queue = m.queue.queueBroadcast ⟨y,b,notifyFd⟩ 0) :
    (n.cell y).Becomes (some (f (m.table.heap r))) t {b} ∧
      ∀ x ≠ y, (m.cell x).Keeps (n.cell x) := by
  obtain ⟨h₁,h₂⟩ := queueBroadcast_rumours (n := n) hm hqueue
  have hfind (x) : n.find x = if x = y then some (f (m.table.heap r)) else m.find x := by
    simp only [Member.find,htable,Table.find_modify hr]
  refine ⟨⟨by simp [Member.cell,hfind],by simp [Member.cell,htimer],h₁⟩,fun x hx => ?_⟩
  exact ⟨by simp [Member.cell,hfind,hx],by simp [Member.cell,htimer,hx],h₂ x hx⟩

theorem acceptAlive_cell {m : Member} (hm : m.queue.Consistent) {a : Alive} {r : ℕ}
    (hr : m.table.nodeMap a.node = some r) (e : Env) (notifyFd : ℤ) :
    let n := (m.setTimer a.node none).acceptAlive e a notifyFd r
    (n.cell a.node).Becomes (some (Member.aliveRecord a e.later (m.table.heap r))) none
        {genAliveBroadcast a} ∧ ∀ x ≠ a.node, (m.cell x).Keeps (n.cell x) :=
  write_cell (f := Member.aliveRecord a e.later) hm hr (fun _ => rfl) rfl rfl rfl

theorem startSuspicion_cell (cfg : Config) (fl : Floats) {m : Member} (hm : m.queue.Consistent)
    {s : Suspect} {r : ℕ} (hr : m.table.nodeMap s.node = some r) (e : Env) :
    let n := m.startSuspicion cfg fl e s r
    (n.cell s.node).Becomes (some (Member.suspectRecord s e.now (m.table.heap r)))
        (some (Member.newSuspicion cfg fl e s m.table.numNodes.load)) {genSuspectBroadcast s} ∧
      ∀ x ≠ s.node, (m.cell x).Keeps (n.cell x) :=
  write_cell (f := Member.suspectRecord s e.now) hm hr (fun _ => rfl) rfl rfl rfl

theorem acceptDead_cell {m : Member} (hm : m.queue.Consistent) {d : Dead} {r : ℕ}
    (hr : m.table.nodeMap d.node = some r) (e : Env) (notifyFd : ℤ) :
    let n := (m.setTimer d.node none).acceptDead e d notifyFd r
    (n.cell d.node).Becomes (some (Member.deadRecord d e.now (m.table.heap r))) none
        {genDeadBroadcast d} ∧ ∀ x ≠ d.node, (m.cell x).Keeps (n.cell x) :=
  write_cell (f := Member.deadRecord d e.now) hm hr (fun _ => rfl) rfl rfl rfl

theorem addNode_cell {m : Member} {e : Env} {a : Alive} (h : m.table.nodeMap a.node = none)
    (x : String) : (m.addNode e a).cell x =
      if x = a.node then { m.cell x with record := some (Member.newNodeState e a) }
      else m.cell x := by
  have hfind := Table.find_insert (s := Member.newNodeState e a) h e.rand x
  have hn : (Member.newNodeState e a).n.name = a.node := rfl
  simp only [Member.cell,Member.find,Member.addNode,hfind,hn]
  split <;> rfl

theorem join_cell {m : Member} {e : Env} {a : Alive} (hm : m.queue.Consistent)
    (hnone : m.table.nodeMap a.node = none) (notifyFd : ℤ) :
    let n := ((m.addNode e a).setTimer a.node none).acceptAlive e a notifyFd m.table.next
    (n.cell a.node).Becomes (some (Member.aliveRecord a e.later (Member.newNodeState e a))) none
        {genAliveBroadcast a} ∧ ∀ x ≠ a.node, (m.cell x).Keeps (n.cell x) := by
  intro n
  have hmap : (m.addNode e a).table.nodeMap a.node = some m.table.next := by
    rw [Member.addNode,Table.nodeMap_insert (by exact hnone)]
    exact Function.update_self ..
  have hheap : (m.addNode e a).table.heap m.table.next = Member.newNodeState e a :=
    Table.heap_insert (s := Member.newNodeState e a) hnone _
  obtain ⟨hy,hothers⟩ := write_cell (m := m.addNode e a) (n := n)
    (f := Member.aliveRecord a e.later) hm hmap (fun _ => rfl) rfl rfl rfl
  refine ⟨hheap ▸ hy,fun x hx => ?_⟩
  have h := hothers x hx
  rwa [addNode_cell hnone,if_neg hx] at h

/-- The faithful member refines the abstract view, name by name. -/
theorem Effect.cellStep {m m' : Member} {l : Heard} (h : Effect cfg fl m l m')
    (hm : m.queue.Consistent) (x : String) :
    CellStep cfg fl x m.leave m.incarnation.total m'.incarnation.total (m.cell x) (m'.cell x)
      l := by
  cases h with
  | ignored | shuffled | advanced | leaving =>
    exact .kept ⟨by simp [Member.cell,Member.find],rfl,subset_rfl⟩
  | updating u =>
    obtain ⟨i,a,b,h⟩ := Member.updateStep_frame cfg m u
    exact .kept (by rw [h]; exact Cell.Keeps.refl _)
  | queued hq hold =>
    refine .kept ⟨rfl,rfl,?_⟩
    rintro _ ⟨e,he,hn,rfl⟩
    obtain ⟨e₀,he₀,hb⟩ := hold e he
    exact ⟨e₀,he₀,hb ▸ hn,by rw [hb]⟩
  | @disarmed _ y r hr hy =>
    by_cases hx : x = y
    · subst hx
      exact .disarmed (cell_record hr) hy ⟨rfl,by simp [Member.cell,Member.setTimer],subset_rfl⟩
    · exact .kept ⟨rfl,by simp [Member.cell,Member.setTimer,hx],subset_rfl⟩
  | @ended _ y t ht =>
    by_cases hx : x = y
    · subst hx
      exact .ended ht ⟨rfl,by simp [Member.cell,Member.setTimer],subset_rfl⟩
    · exact .kept ⟨rfl,by simp [Member.cell,Member.setTimer,hx],subset_rfl⟩
  | @created a e hr hne hinc =>
    rw [addNode_cell hr]
    split
    · rename_i hx
      exact .created (hx ▸ cell_record_none hr) hx.symm (hx ▸ hne) hinc ⟨rfl,rfl,subset_rfl⟩
    · exact .kept (Cell.Keeps.refl _)
  | @joined a e notifyFd hr hne hinc =>
    obtain ⟨hy,hothers⟩ := join_cell (e := e) hm hr notifyFd
    by_cases hx : x = a.node
    · subst hx
      exact .joined (cell_record_none hr) rfl hne hinc hy
    · exact .kept (hothers x hx)
  | @accepted a e notifyFd r hr hne haddr hinc =>
    obtain ⟨hy,hothers⟩ := acceptAlive_cell hm hr e notifyFd
    by_cases hx : x = a.node
    · subst hx
      exact .accepted (cell_record hr) rfl hne haddr hinc hy
    · exact .kept (hothers x hx)
  | @replaced a e notifyFd r hr hne haddr hrep =>
    obtain ⟨hy,hothers⟩ := acceptAlive_cell hm hr e notifyFd
    by_cases hx : x = a.node
    · subst hx
      exact .replaced (cell_record hr) rfl hne haddr hrep hy
    · exact .kept (hothers x hx)
  | @refuted _ r accusedInc e hr hl hleave hinc =>
    obtain ⟨i,a,b,hframe⟩ := Member.refuteInc_frame cfg e accusedInc (m.setTimer cfg.name none)
    obtain ⟨-,hle,hge⟩ := Member.refuteInc_spec cfg e accusedInc (m.setTimer cfg.name none)
    have heq := Member.refute_eq cfg e accusedInc (m := m.setTimer cfg.name none) hr
    obtain ⟨hy,hothers⟩ := write_cell (n := (m.setTimer cfg.name none).refute cfg e r accusedInc)
      (f := fun s =>
        { s with incarnation := ((m.setTimer cfg.name none).refuteInc cfg e accusedInc).2 })
      hm hr (fun _ => rfl) (by rw [heq]; rfl) (by simp only [heq,hframe]; rfl) (by rw [heq]; rfl)
    have htotal : ((m.setTimer cfg.name none).refute cfg e r accusedInc).incarnation =
        ((m.setTimer cfg.name none).refuteInc cfg e accusedInc).1.incarnation := by rw [heq]
    rw [htotal]
    by_cases hx : x = cfg.name
    · subst hx
      exact .refuted (cell_record hr) rfl hl hleave hinc hge hle hy
    · exact .kept (hothers x hx)
  | @confirmed s e r t hr hinc ht =>
    obtain ⟨q,d,h,hq⟩ := Member.confirmTimer_frame fl e s t m
    rw [h]
    by_cases hx : x = s.node
    · subst hx
      refine .confirmed (cell_record hr) rfl hinc ht ?_
      rcases hq with rfl | ⟨hc,hq⟩
      · exact Or.inl ⟨rfl,Function.update_self ..,subset_rfl⟩
      · refine Or.inr ⟨hc,rfl,Function.update_self ..,?_⟩
        exact (queueBroadcast_rumours (b := ⟨s.node,genSuspectBroadcast s,-1⟩) hm hq).1
    · refine .kept ⟨rfl,Function.update_of_ne hx ..,?_⟩
      rcases hq with rfl | ⟨-,hq⟩
      · exact subset_rfl
      · exact (queueBroadcast_rumours hm hq).2 x hx
  | @suspected s e r hr hne hinc ht halive =>
    obtain ⟨hy,hothers⟩ := startSuspicion_cell cfg fl hm hr e
    by_cases hx : x = s.node
    · subst hx
      exact .suspected (cell_record hr) rfl hne hinc ht halive hy
    · exact .kept (hothers x hx)
  | @buried d e notifyFd r hr hinc hdead hleave =>
    obtain ⟨hy,hothers⟩ := acceptDead_cell hm hr e notifyFd
    by_cases hx : x = d.node
    · subst hx
      exact .buried (cell_record hr) rfl hinc hdead hleave hy
    · exact .kept (hothers x hx)

namespace Process

/-- The message that `setAlive` hands to `aliveNode`. -/
def firstAlive (cfg : Config) : Alive :=
  ⟨1,cfg.name,cfg.advertiseAddr,cfg.advertisePort.toNat⟩

def firstRecord (cfg : Config) (e : Env) : NodeState :=
  ⟨⟨cfg.name,cfg.advertiseAddr,cfg.advertisePort⟩,1,.stateAlive,e.later⟩

theorem start_member (cfg : Config) (leaveFd : ℤ) (e : Env) :
    (start cfg leaveFd e).member =
      let m := { Member.newmemberlist cfg leaveFd with incarnation := ⟨1⟩ }
      ((m.addNode e (firstAlive cfg)).setTimer cfg.name none).acceptAlive e (firstAlive cfg)
        (-1) 0 :=
  aliveNode_new (m := { Member.newmemberlist cfg leaveFd with incarnation := ⟨1⟩ })
    (b := genAliveBroadcast (firstAlive cfg)) rfl rfl rfl Nat.one_pos
    (fun h : true = false => by cases h) e (-1)

theorem start_cell (cfg : Config) (leaveFd : ℤ) (e : Env) :
    ((start cfg leaveFd e).member.cell cfg.name).Becomes (some (firstRecord cfg e)) none
        {genAliveBroadcast (firstAlive cfg)} ∧
      ∀ x ≠ cfg.name, ((start cfg leaveFd e).member.cell x).Becomes none none ∅ := by
  rw [start_member]
  let m : Member := { Member.newmemberlist cfg leaveFd with incarnation := ⟨1⟩ }
  have hqueue : m.queue.Consistent := BroadcastQueue.new_consistent _
  obtain ⟨hy,hothers⟩ := join_cell (m := m) (e := e) (a := firstAlive cfg) hqueue rfl (-1)
  have hrecord : Member.aliveRecord (firstAlive cfg) e.later
      (Member.newNodeState e (firstAlive cfg)) = firstRecord cfg e := by
    simp [Member.aliveRecord,Member.newNodeState,firstAlive,firstRecord]
  constructor
  · exact hrecord ▸ hy
  · intro x hx
    have h := hothers x hx
    have hempty : (m.cell x).rumours = ∅ := by
      simp [m,Member.cell,Member.newmemberlist,BroadcastQueue.new]
    exact ⟨h.record_eq,h.timer_eq,hempty ▸ h.rumours_sub⟩

theorem start_locals (cfg : Config) (leaveFd : ℤ) (e : Env) :
    let m := (start cfg leaveFd e).member
    m.leave = false ∧ m.incarnation.total = 1 ∧ m.adding = 0 ∧ m.updates = [] ∧
      m.deadlocked = false := by
  rw [start_member]
  exact ⟨rfl,rfl,rfl,rfl,rfl⟩

theorem start_sound (cfg : Config) (leaveFd : ℤ) (e : Env) :
    (start cfg leaveFd e).member.Sound cfg := by
  constructor
  · obtain ⟨r,hr,-⟩ := Option.map_eq_some_iff.mp (start_cell cfg leaveFd e).1.record_eq
    exact ⟨r,hr⟩
  · rw [start_member]
    exact BroadcastQueue.queueBroadcast_consistent (BroadcastQueue.new_consistent _) _ 0

theorem next_sound {p : Process} (hp : p.member.Sound cfg) (op : Op) :
    (p.next cfg fl op).member.Sound cfg :=
  (step_effect hp op).sound (p.enters_sound hp op)

theorem run_sound (cfg : Config) (fl : Floats) (leaveFd : ℤ) (e : Env) (ops : List Op) :
    (run cfg fl leaveFd e ops).member.Sound cfg :=
  Transitions.run_invariant (P := fun p : Process => p.member.Sound cfg) (start_sound cfg leaveFd e)
    (fun _ op hp => next_sound hp op) ops

/-- One step of the process is one transition of the cell, and the flag is only ever set. -/
theorem next_cellStep (fl : Floats) {p : Process} (hp : p.member.Sound cfg) (op : Op) (x : String) :
    CellStep cfg fl x p.member.leave p.member.incarnation.total
      (p.next cfg fl op).member.incarnation.total (p.member.cell x)
      ((p.next cfg fl op).member.cell x) (p.heard cfg op) ∧
    ((p.next cfg fl op).member.leave = p.member.leave ∨ (p.next cfg fl op).member.leave = true) ∧
    p.member.incarnation.total ≤ (p.next cfg fl op).member.incarnation.total := by
  have heffect : Effect cfg fl _ _ _ := step_effect hp op
  have hcell := heffect.cellStep (p.enters_sound hp op).queue x
  have hleave := heffect.leave.imp_right fun h => congrArg Member.leave h.2
  have htotal := heffect.incarnation
  obtain ⟨u,-,h⟩ := p.enters_eq op
  rw [h] at hcell hleave htotal
  exact ⟨hcell,hleave,htotal⟩

theorem run_cell {P : Bool → ℕ → Cell → Prop} {x : String} {leaveFd : ℤ} {e : Env}
    (h₀ : P false 1 ((start cfg leaveFd e).member.cell x))
    (hstep : ∀ leave leave' lo hi c c' l, CellStep cfg fl x leave lo hi c c' l →
      leave' = leave ∨ leave' = true → lo ≤ hi → P leave lo c → P leave' hi c') (ops : List Op) :
    let m := (run cfg fl leaveFd e ops).member
    P m.leave m.incarnation.total (m.cell x) := by
  refine (Transitions.run_invariant (P := fun p : Process => p.member.Sound cfg ∧
    P p.member.leave p.member.incarnation.total (p.member.cell x)) ⟨start_sound cfg leaveFd e,?_⟩
    (fun p op hp => ⟨next_sound hp.1 op,?_⟩) ops).2
  · obtain ⟨hleave,htotal,-⟩ := start_locals cfg leaveFd e
    rwa [hleave,htotal]
  · obtain ⟨hcell,hleave,htotal⟩ := next_cellStep fl hp.1 op x
    exact hstep _ _ _ _ _ _ _ hcell hleave htotal hp.2

end Process

end GossipMemberlist
