import GossipMemberlist.LocalRecord

/-!
# What the member gossips

The transmit queue never holds a rumour that the member's own table has
superseded: a broadcast about a node is of the kind that the node's state calls
for and carries the recorded incarnation. Only a confirmation of a suspicion may
carry a newer one, since the timer counts it without touching the record.
-/

namespace GossipMemberlist

variable {cfg : Config} {fl : Floats}

/-- The broadcast says about `x` what the record says. -/
def NodeState.Matches (x : String) (timer : Option Suspicion) (s : NodeState) (b : Broadcast) :
    Prop :=
  match s.state with
  | .stateAlive => ∃ a : Alive, b = genAliveBroadcast a ∧ a.node = x ∧
      a.incarnation = s.incarnation
  | .stateSuspect => ∃ q : Suspect, b = genSuspectBroadcast q ∧ q.node = x ∧
      (q.incarnation = s.incarnation ∨ s.incarnation < q.incarnation ∧
        ∃ t, timer = some t ∧ q.from_ ∈ t.confirmations ∧ q.from_ ≠ t.f.s.from_)
  | .stateDead | .stateLeft => ∃ d : Dead, b = genDeadBroadcast d ∧ d.node = x ∧
      d.incarnation = s.incarnation

/-- Every rumour of a cell is current, and its timer has heard the first accuser. -/
structure Cell.Gossips (x : String) (c : Cell) : Prop where
  rumours : ∀ b ∈ c.rumours, ∃ s, c.record = some s ∧ s.Matches x c.timer b
  accuser : ∀ t, c.timer = some t → t.f.s.from_ ∈ t.confirmations

theorem NodeState.Matches.mono {x : String} {t t' : Suspicion} {s : NodeState} {b : Broadcast}
    (h : s.Matches x (some t) b) (hf : t'.f = t.f) (hc : t.confirmations ⊆ t'.confirmations) :
    s.Matches x (some t') b := by
  unfold Matches at h ⊢
  split at h
  · exact h
  · obtain ⟨q,hb,hq,hinc | ⟨hinc,u,hu,hmem,hne⟩⟩ := h
    · exact ⟨q,hb,hq,Or.inl hinc⟩
    · cases hu
      exact ⟨q,hb,hq,Or.inr ⟨hinc,t',rfl,hc hmem,by rwa [hf]⟩⟩
  · exact h
  · exact h

theorem NodeState.Matches.timer {x : String} {timer timer' : Option Suspicion} {s : NodeState}
    {b : Broadcast} (h : s.Matches x timer b) (hs : s.state ≠ .stateSuspect) :
    s.Matches x timer' b := by
  unfold Matches at h ⊢
  split at h
  · exact h
  · exact absurd ‹_› hs
  · exact h
  · exact h

theorem Cell.Gossips.fresh {x : String} {c : Cell} {s : NodeState} {timer : Option Suspicion}
    {b : Broadcast} (h : c.Becomes (some s) timer {b}) (hb : s.Matches x timer b)
    (ht : ∀ t, timer = some t → t.f.s.from_ ∈ t.confirmations) : c.Gossips x where
  rumours b' hb' := by
    rw [h.rumours_sub hb',h.timer_eq]
    exact ⟨s,h.record_eq,hb⟩
  accuser t hu := ht t (h.timer_eq ▸ hu)

theorem Cell.Gossips.quiet {x : String} {c : Cell} {s : NodeState} {b : Broadcast}
    (h : c.Becomes (some s) none {b}) (hb : s.Matches x none b) : c.Gossips x :=
  .fresh h hb fun t ht => by cases ht

theorem Member.aliveRecord_matches {x : String} {a : Alive} (ha : a.node = x) (now : ℤ)
    (s : NodeState) : (Member.aliveRecord a now s).Matches x none (genAliveBroadcast a) :=
  ⟨a,rfl,ha,rfl⟩

theorem Member.deadRecord_matches {x : String} {d : Dead} (hd : d.node = x) (now : ℤ)
    (s : NodeState) : (Member.deadRecord d now s).Matches x none (genDeadBroadcast d) := by
  by_cases hleft : d.node = d.from_
  · have hstate : (Member.deadRecord d now s).state = .stateLeft := by
      simp [Member.deadRecord,hleft]
    simp only [NodeState.Matches,hstate]
    exact ⟨d,rfl,hd,rfl⟩
  · have hstate : (Member.deadRecord d now s).state = .stateDead := by
      simp [Member.deadRecord,hleft]
    simp only [NodeState.Matches,hstate]
    exact ⟨d,rfl,hd,rfl⟩

theorem CellStep.gossips {x : String} {leave : Bool} {lo hi : ℕ} {c c' : Cell} {l : Heard}
    (h : CellStep cfg fl x leave lo hi c c' l) (hc : c.Gossips x) (ht : c.Timed cfg x)
    (hlocal : x = cfg.name → c.Local cfg leave lo) : c'.Gossips x := by
  have hrearm : ∀ {t t' : Suspicion}, c.timer = some t →
      c'.Becomes c.record (some t') c.rumours → t'.f = t.f →
      t.confirmations ⊆ t'.confirmations → c'.Gossips x := fun ht h hf hsub =>
    { rumours := fun b hb => by
        obtain ⟨s,hs,hm⟩ := hc.rumours b (h.rumours_sub hb)
        rw [h.record_eq,h.timer_eq]
        exact ⟨s,hs,(ht ▸ hm).mono hf hsub⟩
      accuser := fun u hu => by
        rw [h.timer_eq] at hu
        cases hu
        rw [hf]
        exact hsub (hc.accuser _ ht) }
  cases h with
  | kept h =>
    refine ⟨fun b hb => ?_,fun t hu => hc.accuser t (h.timer_eq ▸ hu)⟩
    rw [h.record_eq,h.timer_eq]
    exact hc.rumours b (h.rumours_sub hb)
  | @disarmed _ s hr hgone h =>
    refine ⟨fun b hb => ?_,fun t hu => by rw [h.timer_eq] at hu; cases hu⟩
    obtain ⟨s',hs',hm⟩ := hc.rumours b (h.rumours_sub hb)
    cases hr.symm.trans hs'
    have hstate : s.state ≠ .stateSuspect := fun hs => by
      obtain ⟨t,hu⟩ := ht.watched s hr hs
      rcases hgone with hl | hdead
      · exact (ht.episode t hu).1 hl
      · simp [NodeState.deadOrLeft,hs] at hdead
    exact ⟨s,h.record_eq.trans hr,h.timer_eq ▸ hm.timer hstate⟩
  | ended hu h => exact hrearm hu h rfl (List.Subset.refl _)
  | @confirmed q e r t hr hq hinc hu h =>
    obtain ⟨hf,hsub⟩ := t.confirm_keeps fl e.now q.from_
    rcases h with h | ⟨hcount,h⟩
    · exact hrearm hu h hf hsub
    · obtain ⟨hnew,hmem⟩ := Suspicion.confirm_counted hcount
      obtain ⟨-,s,hs,hstate,-⟩ := ht.episode t hu
      cases hr.symm.trans hs
      refine .fresh (hr ▸ h) ?_ fun u hu' => ?_
      · have hne : q.from_ ≠ t.f.s.from_ := fun he => hnew (he ▸ hc.accuser t hu)
        simp only [NodeState.Matches,hstate]
        refine ⟨q,rfl,hq,?_⟩
        rcases hinc.eq_or_lt with h | h
        · exact Or.inl h.symm
        · exact Or.inr ⟨h,_,rfl,hmem,hf ▸ hne⟩
      · cases hu'
        rw [hf]
        exact hsub (hc.accuser t hu)
  | created hnone _ _ _ h =>
    refine ⟨fun b hb => ?_,fun t hu => hc.accuser t (h.timer_eq ▸ hu)⟩
    obtain ⟨s,hs,-⟩ := hc.rumours b (h.rumours_sub hb)
    rw [hnone] at hs
    cases hs
  | joined _ ha _ _ h => exact .quiet h (Member.aliveRecord_matches ha _ _)
  | accepted _ ha _ _ _ h => exact .quiet h (Member.aliveRecord_matches ha _ _)
  | replaced _ ha _ _ _ h => exact .quiet h (Member.aliveRecord_matches ha _ _)
  | @refuted _ s _ _ hr hl _ hleave _ _ _ h =>
    have halive := (hlocal hl).alive hr hleave
    refine .quiet h ?_
    simp only [NodeState.Matches,halive]
    exact ⟨_,rfl,rfl,rfl⟩
  | @suspected q e r n _ hq _ _ _ _ h =>
    refine .fresh h ⟨q,rfl,hq,Or.inl rfl⟩ fun t hu => ?_
    cases hu
    exact List.mem_singleton.mpr rfl
  | buried _ hd _ _ _ h => exact .quiet h (Member.deadRecord_matches hd _ _)

namespace Process

theorem run_gossips (cfg : Config) (fl : Floats) (leaveFd : ℤ) (e : Env) (ops : List Op)
    (x : String) : ((run cfg fl leaveFd e ops).member.cell x).Gossips x := by
  refine (Transitions.run_invariant (P := fun p : Process => p.Steady cfg ∧
    (p.member.cell x).Timed cfg x ∧ (p.member.cell x).Gossips x)
    ⟨start_steady cfg leaveFd e,run_timed cfg fl leaveFd e [] x,?_⟩ (fun p op hp => ?_) ops).2.2
  · obtain ⟨hlocal,hothers⟩ := start_cell cfg leaveFd e
    by_cases hx : x = cfg.name
    · subst hx
      exact .quiet hlocal ⟨_,rfl,rfl,rfl⟩
    · have h := hothers x hx
      exact ⟨fun b hb => absurd (h.rumours_sub hb) (Set.notMem_empty b),
        fun t ht => by rw [h.timer_eq] at ht; cases ht⟩
  · obtain ⟨hsteady,htimed,hgossips⟩ := hp
    obtain ⟨hcell,-⟩ := next_cellStep fl hsteady.sound op x
    exact ⟨hsteady.next op,hcell.timed htimed,
      hcell.gossips hgossips htimed fun hx => by subst hx; exact hsteady.record⟩

/-- Every queued broadcast is about a known node and says what the table says. -/
theorem queue_current (cfg : Config) (fl : Floats) (leaveFd : ℤ) (e : Env) (ops : List Op) :
    let m := (run cfg fl leaveFd e ops).member
    ∀ lb ∈ m.queue.tq, ∃ s, m.find lb.b.node = some s ∧
      s.Matches lb.b.node (m.nodeTimers lb.b.node) lb.b.msg :=
  fun lb hlb => (run_gossips cfg fl leaveFd e ops lb.b.node).rumours _ ⟨lb,hlb,rfl,rfl⟩

end Process

end GossipMemberlist
