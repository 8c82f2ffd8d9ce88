import GossipMemberlist.Timers

/-!
# The member's own record

Until the member leaves, whatever it hears about itself is refuted: its record
stays alive at the advertised address, and its incarnation is the number on the
counter, or one that a pending `UpdateNode` call is about to announce.
-/

namespace GossipMemberlist

variable {cfg : Config} {fl : Floats}

def Config.advertised (cfg : Config) : Node := ⟨cfg.name,cfg.advertiseAddr,cfg.advertisePort⟩

structure Cell.Local (cfg : Config) (leave : Bool) (total : ℕ) (c : Cell) : Prop where
  timer : c.timer = none
  record : ∃ s, c.record = some s ∧ s.n = cfg.advertised ∧
    (leave = false → s.state = .stateAlive ∧ s.incarnation ≤ total)

theorem Cell.Local.alive {leave : Bool} {total : ℕ} {c : Cell} {s : NodeState}
    (h : c.Local cfg leave total) (hs : c.record = some s)
    (hleave : leave = false ∨ s.state = .stateAlive) : s.state = .stateAlive := by
  obtain ⟨-,t,ht,-,halive⟩ := h
  cases hs.symm.trans ht
  exact hleave.elim (fun hf => (halive hf).1) id

theorem CellStep.local {leave leave' : Bool} {lo hi : ℕ} {c c' : Cell} {l : Heard}
    (h : CellStep cfg fl cfg.name leave lo hi c c' l) (hleave : leave' = leave ∨ leave' = true)
    (hle : lo ≤ hi) (hc : c.Local cfg leave lo) : c'.Local cfg leave' hi := by
  obtain ⟨ht,s,hs,hn,halive⟩ := hc
  have hback : leave' = false → leave = false := fun h => by
    rcases hleave with h' | h'
    · exact h' ▸ h
    · rw [h] at h'; cases h'
  have hkeep : c'.timer = none → c'.record = c.record → c'.Local cfg leave' hi := fun ht' hr' =>
    ⟨ht',s,hr'.trans hs,hn,fun h => ⟨(halive (hback h)).1,(halive (hback h)).2.trans hle⟩⟩
  cases h with
  | kept h => exact hkeep (h.timer_eq.trans ht) h.record_eq
  | disarmed _ _ h => exact hkeep h.timer_eq h.record_eq
  | ended ht' => rw [ht] at ht'; cases ht'
  | confirmed _ _ _ ht' => rw [ht] at ht'; cases ht'
  | created hnone => rw [hs] at hnone; cases hnone
  | joined hnone => rw [hs] at hnone; cases hnone
  | accepted _ _ hne => exact absurd rfl hne
  | replaced _ _ hne => exact absurd rfl hne
  | suspected _ _ hne => exact absurd rfl hne
  | refuted hr _ _ _ _ _ hinc h =>
    rw [hs] at hr
    cases hr
    exact ⟨h.timer_eq,_,h.record_eq,hn,fun hl => ⟨(halive (hback hl)).1,hinc⟩⟩
  | buried hr _ _ _ hl h =>
    rw [hs] at hr
    cases hr
    refine ⟨h.timer_eq,_,h.record_eq,hn,fun h => ?_⟩
    rw [hback h] at hl
    exact absurd (hl rfl) Bool.false_ne_true

namespace Process

theorem run_local (cfg : Config) (fl : Floats) (leaveFd : ℤ) (e : Env) (ops : List Op) :
    let m := (run cfg fl leaveFd e ops).member
    (m.cell cfg.name).Local cfg m.leave m.incarnation.total := by
  refine run_cell (P := fun leave total c => c.Local cfg leave total) ?_
    (fun _ _ _ _ _ _ _ h hleave hle => h.local hleave hle) ops
  obtain ⟨h,-⟩ := start_cell cfg leaveFd e
  exact ⟨h.timer_eq,_,h.record_eq,rfl,fun _ => ⟨rfl,le_refl 1⟩⟩

end Process

namespace Member

/-- Every pending `UpdateNode` call announces the advertised address under a number
that the counter has reached. -/
def Announces (cfg : Config) (m : Member) : Prop :=
  ∀ b ∈ m.updates, ∃ inc ≤ m.incarnation.total, b = genAliveBroadcast
    ⟨inc,cfg.name,cfg.advertiseAddr,cfg.advertisePort.toNat⟩

/-- `v` is on the counter, or a pending `UpdateNode` call has yet to announce what is. -/
def Covers (v : ℕ) (m : Member) : Prop :=
  v = m.incarnation.load ∨ 0 < m.adding ∨ ∃ b ∈ m.updates, b.alive.incarnation = m.incarnation.load

theorem updateStep_covers {v : ℕ} {m : Member} (h : m.Covers v) (u : UpdateStep) :
    (m.updateStep cfg u).Covers v := by
  cases u with
  | add => exact Or.inr (Or.inl (Nat.succ_pos _))
  | load =>
    simp only [updateStep]
    split
    · exact Or.inr (Or.inr ⟨_,List.mem_cons_self,rfl⟩)
    · exact h

theorem updateSteps_covers {v : ℕ} {m : Member} (h : m.Covers v) (us : List UpdateStep) :
    (m.updateSteps cfg us).Covers v :=
  Transitions.run_invariant (P := Covers v) h (fun _ u h => updateStep_covers h u) us

theorem refuteInc_covers (cfg : Config) (e : Env) (accusedInc : ℕ) (m : Member) :
    (m.refuteInc cfg e accusedInc).1.Covers (m.refuteInc cfg e accusedInc).2 := by
  unfold refuteInc
  dsimp only
  split
  · exact Or.inl rfl
  · exact updateSteps_covers (Or.inl rfl) e.before

theorem updateStep_announces {m : Member} {s : NodeState} (hs : m.find cfg.name = some s)
    (hn : s.n = cfg.advertised) (h : m.Announces cfg) (u : UpdateStep) :
    (m.updateStep cfg u).Announces cfg := by
  cases u with
  | add =>
    intro b hb
    obtain ⟨inc,hinc,rfl⟩ := h b hb
    exact ⟨inc,hinc.trans (m.incarnation.total_le_fetchAdd 1),rfl⟩
  | load =>
    simp only [updateStep,hs]
    split
    · rename_i hstate
      cases hstate
      intro b hb
      rcases List.mem_cons.mp hb with rfl | hb
      · exact ⟨_,Nat.mod_le _ _,by rw [hn]; rfl⟩
      · exact h b hb
    · exact h

theorem updateSteps_announces {m : Member} {s : NodeState} (hs : m.find cfg.name = some s)
    (hn : s.n = cfg.advertised) (h : m.Announces cfg) (us : List UpdateStep) :
    (m.updateSteps cfg us).Announces cfg := by
  refine (Transitions.run_invariant (P := fun m : Member =>
    m.find cfg.name = some s ∧ m.Announces cfg) ⟨hs,h⟩ (fun m u hm => ⟨?_,?_⟩) us).2
  · obtain ⟨i,a,b,heq⟩ := updateStep_frame cfg m u
    rw [heq]
    exact hm.1
  · exact updateStep_announces hm.1 hn hm.2 u

theorem refuteInc_announces {m : Member} {s : NodeState} (hs : m.find cfg.name = some s)
    (hn : s.n = cfg.advertised) (h : m.Announces cfg) (e : Env) (accusedInc : ℕ) :
    (m.refuteInc cfg e accusedInc).1.Announces cfg := by
  have h₁ := updateSteps_announces hs hn h e.before
  unfold refuteInc
  dsimp only
  split
  · refine updateSteps_announces (s := s) ?_ hn (fun b hb => ?_) e.between
    · obtain ⟨i,a,b,heq⟩ := updateSteps_frame cfg e.before m
      rw [heq]
      exact hs
    · obtain ⟨inc,hinc,hb⟩ := h₁ b hb
      exact ⟨inc,hinc.trans (WrapCounter.total_le_fetchAdd _ _),hb⟩
  · exact h₁

end Member

theorem Effect.announces {m m' : Member} {l : Heard} (h : Effect cfg fl m l m') {s : NodeState}
    (hs : m.find cfg.name = some s) (hn : s.n = cfg.advertised) (ha : m.Announces cfg) :
    m'.Announces cfg := by
  cases h with
  | @refuted _ r accusedInc e hr =>
    rw [Member.refute_eq cfg e _ (by exact hr)]
    exact Member.refuteInc_announces (m := m.setTimer cfg.name none) hs hn ha e accusedInc
  | updating u => exact Member.updateStep_announces hs hn ha u
  | confirmed =>
    obtain ⟨q,d,h,-⟩ := Member.confirmTimer_frame fl _ _ _ m
    rw [h]
    exact ha
  | _ => exact ha

theorem Effect.local_cases {m m' : Member} {l : Heard} (h : Effect cfg fl m l m')
    (hleave : m.leave = false) :
    (∃ r accusedInc e, m.table.nodeMap cfg.name = some r ∧
        m' = (m.setTimer cfg.name none).refute cfg e r accusedInc) ∨
      m'.find cfg.name = m.find cfg.name ∧
        (m'.incarnation = m.incarnation ∧ m'.adding = m.adding ∧ m'.updates = m.updates ∨
          ∃ u, m' = m.updateStep cfg u) := by
  have hmodify {t : Table} {y : String} {r : ℕ} {f : NodeState → NodeState}
      (hr : t.nodeMap y = some r) (hy : y ≠ cfg.name) (hf : ∀ s, (f s).n.name = s.n.name) :
      (t.modify r f hf).find cfg.name = t.find cfg.name := by
    rw [Table.find_modify hr,if_neg hy.symm]
  have hinsert {e a} (ha : m.table.nodeMap a.node = none) (hy : a.node ≠ cfg.name) :
      (m.addNode e a).find cfg.name = m.find cfg.name := by
    have hn : (Member.newNodeState e a).n.name = a.node := rfl
    simp only [Member.find,Member.addNode,
      Table.find_insert (s := Member.newNodeState e a) ha e.rand,hn,if_neg hy.symm]
  cases h with
  | @refuted _ r accusedInc e hr => exact Or.inl ⟨r,accusedInc,e,hr,rfl⟩
  | updating u =>
    refine Or.inr ⟨?_,Or.inr ⟨u,rfl⟩⟩
    obtain ⟨i,a,b,heq⟩ := Member.updateStep_frame cfg m u
    rw [heq]
    rfl
  | created ha hy => exact Or.inr ⟨hinsert ha hy,Or.inl ⟨rfl,rfl,rfl⟩⟩
  | @joined a e notifyFd ha hy =>
    have hmap : (m.addNode e a).table.nodeMap a.node = some m.table.next := by
      rw [Member.addNode,Table.nodeMap_insert (by exact ha)]
      exact Function.update_self ..
    have hfind : (((m.addNode e a).setTimer a.node none).acceptAlive e a notifyFd
        m.table.next).find cfg.name = (m.addNode e a).find cfg.name :=
      hmodify hmap hy (by exact fun _ => rfl)
    exact Or.inr ⟨hfind.trans (hinsert ha hy),Or.inl ⟨rfl,rfl,rfl⟩⟩
  | accepted hr hy => exact Or.inr ⟨hmodify hr hy (by exact fun _ => rfl),Or.inl ⟨rfl,rfl,rfl⟩⟩
  | replaced hr hy => exact Or.inr ⟨hmodify hr hy (by exact fun _ => rfl),Or.inl ⟨rfl,rfl,rfl⟩⟩
  | suspected hr hy => exact Or.inr ⟨hmodify hr hy (by exact fun _ => rfl),Or.inl ⟨rfl,rfl,rfl⟩⟩
  | buried hr _ _ hl =>
    refine Or.inr ⟨hmodify hr (fun hy => ?_) (by exact fun _ => rfl),Or.inl ⟨rfl,rfl,rfl⟩⟩
    rw [hl hy] at hleave
    cases hleave
  | confirmed =>
    obtain ⟨q,d,h,-⟩ := Member.confirmTimer_frame fl _ _ _ m
    rw [h]
    exact Or.inr ⟨rfl,Or.inl ⟨rfl,rfl,rfl⟩⟩
  | shuffled => exact Or.inr ⟨by simp [Member.find],Or.inl ⟨rfl,rfl,rfl⟩⟩
  | _ => exact Or.inr ⟨rfl,Or.inl ⟨rfl,rfl,rfl⟩⟩

/-- The number on record is the latest one but for pending calls. -/
def Member.Current (cfg : Config) (m : Member) : Prop :=
  ∃ s, m.find cfg.name = some s ∧ m.Covers s.incarnation

theorem Member.refute_current {m : Member} {r : ℕ} (hr : m.table.nodeMap cfg.name = some r)
    (e : Env) (accusedInc : ℕ) : (m.refute cfg e r accusedInc).Current cfg := by
  have hcovers := refuteInc_covers cfg e accusedInc m
  rw [refute_eq cfg e accusedInc hr]
  refine ⟨{ m.table.heap r with incarnation := (m.refuteInc cfg e accusedInc).2 },?_,hcovers⟩
  simp only [find,Table.find_modify hr,if_true]

theorem Effect.current {m m' : Member} {l : Heard} (h : Effect cfg fl m l m')
    (hleave : m.leave = false) (hc : m.Current cfg) : m'.Current cfg := by
  obtain ⟨s,hs,hv⟩ := hc
  rcases h.local_cases hleave with ⟨r,k,e,hr,rfl⟩ | ⟨hfind,⟨hi,ha,hu⟩ | ⟨u,rfl⟩⟩
  · exact Member.refute_current (m := m.setTimer cfg.name none) hr e k
  · refine ⟨s,hfind.trans hs,?_⟩
    rwa [Member.Covers,hi,ha,hu]
  · exact ⟨s,hfind.trans hs,Member.updateStep_covers hv u⟩

namespace Process

structure Steady (cfg : Config) (p : Process) : Prop where
  sound : p.member.Sound cfg
  record : (p.member.cell cfg.name).Local cfg p.member.leave p.member.incarnation.total
  announces : p.member.Announces cfg
  current : p.member.leave = false → p.member.incarnation.total < 2 ^ 32 → p.member.Current cfg

/-- The pending call that would cover the record is itself answered by a refutation
unless the record already has its number. -/
theorem updateAlive_current {p : Process} (hp : p.Steady cfg) {b : Broadcast}
    (hb : b ∈ p.member.updates) (hfree : p.member.deadlocked = false)
    (hleave : p.member.leave = false) (htotal : p.member.incarnation.total < 2 ^ 32)
    (hinc : b.alive.incarnation = p.member.incarnation.load) (notifyFd : ℤ) (e : Env) :
    ((p.member.takeUpdate b).aliveNode cfg e b false notifyFd).Current cfg := by
  obtain ⟨s,hs,hn,halive⟩ := hp.record.record
  obtain ⟨-,hle⟩ := halive hleave
  obtain ⟨r,hr,rfl⟩ := Option.map_eq_some_iff.mp hs
  obtain ⟨inc,-,rfl⟩ := hp.announces b hb
  have haddr : Member.addressDiffers
      ⟨inc,cfg.name,cfg.advertiseAddr,cfg.advertisePort.toNat⟩ (p.member.table.heap r) = false := by
    simp [Member.addressDiffers,hn,Config.advertised]
  rw [WrapCounter.load_eq htotal] at hinc
  rw [aliveNode_local (m := p.member.takeUpdate _) (b := genAliveBroadcast ⟨inc,_,_,_⟩)
    hfree hleave hr rfl haddr (hinc ▸ hle)]
  split
  · rename_i hsame
    refine ⟨_,hs,Or.inl (hsame.symm.trans (hinc.trans ?_))⟩
    exact (WrapCounter.load_eq htotal).symm
  · exact Member.refute_current (m := (p.member.takeUpdate _).setTimer _ none) hr e _

theorem Steady.next {p : Process} (hp : p.Steady cfg) (op : Op) :
    (p.next cfg fl op).Steady cfg := by
  have heffect : Effect cfg fl _ _ _ := step_effect hp.sound op
  obtain ⟨hcell,hleave,htotal⟩ := next_cellStep fl hp.sound op cfg.name
  obtain ⟨u,hu,henters⟩ := p.enters_eq op
  refine ⟨next_sound hp.sound op,hcell.local hleave htotal hp.record,?_,fun hl ht => ?_⟩
  · obtain ⟨s,hs,hn,-⟩ := hp.record.record
    refine heffect.announces (s := s) ?_ hn ?_
    · rw [henters]
      exact hs
    · rw [henters]
      exact fun b hb => hp.announces b (hu hb)
  · have hl₀ : p.member.leave = false := by
      rcases hleave with h | h
      · rw [← h,hl]
      · rw [hl] at h; cases h
    have ht₀ := htotal.trans_lt ht
    obtain ⟨s,hs,hv⟩ := hp.current hl₀ ht₀
    by_cases hop : ∃ b notifyFd e, op = .updateAlive b notifyFd e ∧ b ∈ p.member.updates ∧
        p.member.deadlocked = false ∧ b.alive.incarnation = p.member.incarnation.load
    · obtain ⟨b,notifyFd,e,rfl,hb,hfree,hinc⟩ := hop
      have h := updateAlive_current hp hb hfree hl₀ ht₀ hinc notifyFd e
      simpa [Process.next,Process.step,hb,hfree,act] using h
    · -- any other call leaves the covering call where it is
      refine heffect.current (by rw [henters]; exact hl₀) ⟨s,by rw [henters]; exact hs,?_⟩
      rcases hv with hv | hv | ⟨b,hb,hinc⟩
      · exact Or.inl (by rw [henters]; exact hv)
      · exact Or.inr (Or.inl (by rw [henters]; exact hv))
      · refine Or.inr (Or.inr ⟨b,?_,by rw [henters]; exact hinc⟩)
        unfold enters
        split
        · rename_i b' notifyFd' e'
          split
          · rename_i hb'
            have hne : b ≠ b' := fun h => hop ⟨b',notifyFd',e',rfl,hb'.1,hb'.2,h ▸ hinc⟩
            exact (List.mem_erase_of_ne hne).mpr hb
          · exact hb
        · exact hb

theorem start_steady (cfg : Config) (leaveFd : ℤ) (e : Env) : (start cfg leaveFd e).Steady cfg := by
  obtain ⟨hleave,htotal,-,hupdates,-⟩ := start_locals cfg leaveFd e
  refine ⟨start_sound cfg leaveFd e,run_local cfg .small leaveFd e [],fun b hb => ?_,fun _ _ => ?_⟩
  · rw [hupdates] at hb
    cases hb
  · refine ⟨_,(start_cell cfg leaveFd e).1.record_eq,Or.inl ?_⟩
    rw [WrapCounter.load,htotal]
    rfl

theorem run_steady (cfg : Config) (fl : Floats) (leaveFd : ℤ) (e : Env) (ops : List Op) :
    (run cfg fl leaveFd e ops).Steady cfg :=
  Transitions.run_invariant (P := Steady cfg) (start_steady cfg leaveFd e)
    (fun _ op h => h.next op) ops

/-- Until it leaves, a member is alive in its own eyes, whatever it is told. -/
theorem local_record (cfg : Config) (fl : Floats) (leaveFd : ℤ) (e : Env) (ops : List Op)
    (hleave : (run cfg fl leaveFd e ops).member.leave = false) :
    let m := (run cfg fl leaveFd e ops).member
    ∃ s, m.find cfg.name = some s ∧ s.state = .stateAlive ∧ s.n = cfg.advertised ∧
      m.nodeTimers cfg.name = none ∧
      (m.incarnation.total < 2 ^ 32 → m.adding = 0 → m.updates = [] →
        s.incarnation = m.incarnation.load) := by
  intro m
  have h := run_steady cfg fl leaveFd e ops
  obtain ⟨s,hs,hn,halive⟩ := h.record.record
  refine ⟨s,hs,(halive hleave).1,hn,h.record.timer,fun ht hadding hupdates => ?_⟩
  obtain ⟨s',hs',hv⟩ := h.current hleave ht
  cases hs.symm.trans hs'
  rcases hv with hv | hv | ⟨b,hb,-⟩
  · exact hv
  · exact absurd hadding (Nat.ne_of_gt hv)
  · rw [show (run cfg fl leaveFd e ops).member.updates = [] from hupdates] at hb
    cases hb

theorem local_record_accused :
    let cfg := defaultLANConfig "node"
    let m := (run cfg .small 3 ⟨0,0,0,0,[],[]⟩
      [.suspect (genSuspectBroadcast ⟨4,"node","b"⟩) ⟨0,0,1,1,[],[]⟩]).member
    ∃ s, m.find cfg.name = some s ∧ s.state = .stateAlive ∧ s.n = cfg.advertised ∧
      m.nodeTimers cfg.name = none ∧
      (m.incarnation.total < 2 ^ 32 → m.adding = 0 → m.updates = [] →
        s.incarnation = m.incarnation.load) :=
  local_record _ _ _ _ _ (by decide)

end Process

end GossipMemberlist
