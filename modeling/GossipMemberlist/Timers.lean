import GossipMemberlist.Cell

/-!
# Timers and suspicions

A name has a timer exactly as long as its record is suspect, and the timer is the
one of the episode on record: when it fires, its callback finds what it looks for.
-/

namespace GossipMemberlist

variable {cfg : Config} {fl : Floats}

/-- The timer of a cell belongs to the episode that its record is in. -/
structure Cell.Timed (cfg : Config) (x : String) (c : Cell) : Prop where
  episode : ∀ t, c.timer = some t → x ≠ cfg.name ∧ ∃ s, c.record = some s ∧
    s.state = .stateSuspect ∧ t.f.s.node = x ∧ t.f.now = s.stateChange
  watched : ∀ s, c.record = some s → s.state = .stateSuspect → ∃ t, c.timer = some t

theorem Cell.Timed.of_no_timer {x : String} {c : Cell} {s : NodeState} (ht : c.timer = none)
    (hr : c.record = some s) (hs : s.state ≠ .stateSuspect) : c.Timed cfg x where
  episode t h := by rw [ht] at h; cases h
  watched s' h hs' := by
    rw [hr] at h
    cases h
    exact absurd hs' hs

theorem Cell.Timed.no_timer {x : String} {c : Cell} (h : c.Timed cfg x) {s : NodeState}
    (hr : c.record = some s) (hs : s.state ≠ .stateSuspect) : c.timer = none := by
  cases ht : c.timer with
  | none => rfl
  | some t =>
    obtain ⟨-,s',hs',hsuspect,-⟩ := h.episode t ht
    cases hr.symm.trans hs'
    exact absurd hsuspect hs

theorem Cell.Timed.rearm {x : String} {c c' : Cell} {t t' : Suspicion} {R : Set Broadcast}
    (h : c.Timed cfg x) (ht : c.timer = some t) (hc : c'.Becomes c.record (some t') R)
    (hf : t'.f = t.f) : c'.Timed cfg x where
  episode u hu := by
    rw [hc.timer_eq] at hu
    cases hu
    rw [hc.record_eq,hf]
    exact h.episode t ht
  watched _ _ _ := ⟨t',hc.timer_eq⟩

theorem CellStep.timed {x : String} {leave : Bool} {lo hi : ℕ} {c c' : Cell} {l : Heard}
    (h : CellStep cfg fl x leave lo hi c c' l) (hc : c.Timed cfg x) : c'.Timed cfg x := by
  cases h with
  | kept h =>
    refine ⟨fun t ht => ?_,fun s hs hstate => ?_⟩
    · rw [h.record_eq]
      exact hc.episode t (h.timer_eq ▸ ht)
    · rw [h.timer_eq]
      exact hc.watched s (h.record_eq ▸ hs) hstate
  | disarmed hr hgone h =>
    refine .of_no_timer h.timer_eq (h.record_eq.trans hr) fun hs => ?_
    obtain ⟨t,ht⟩ := hc.watched _ hr hs
    rcases hgone with hl | hdead
    · exact (hc.episode t ht).1 hl
    · simp [NodeState.deadOrLeft,hs] at hdead
  | ended ht h => exact hc.rearm ht h rfl
  | @confirmed s e _ t _ _ _ ht h =>
    have hf := (t.confirm_keeps fl e.now s.from_).1
    rcases h with h | ⟨-,h⟩
    · exact hc.rearm ht h hf
    · exact hc.rearm ht h hf
  | created hnone _ _ _ h =>
    have ht : c.timer = none := by
      cases ht : c.timer with
      | none => rfl
      | some t =>
        obtain ⟨-,s,hs,-⟩ := hc.episode t ht
        rw [hnone] at hs
        cases hs
    exact .of_no_timer (h.timer_eq.trans ht) h.record_eq nofun
  | joined _ _ _ _ h => exact .of_no_timer h.timer_eq h.record_eq nofun
  | accepted _ _ _ _ _ h => exact .of_no_timer h.timer_eq h.record_eq nofun
  | replaced _ _ _ _ _ h => exact .of_no_timer h.timer_eq h.record_eq nofun
  | @refuted _ s _ _ hr hl _ _ _ _ _ h =>
    refine .of_no_timer h.timer_eq h.record_eq fun hs => ?_
    obtain ⟨t,ht⟩ := hc.watched s hr hs
    exact (hc.episode t ht).1 hl
  | suspected _ hx hne _ _ _ h =>
    refine ⟨fun t ht => ⟨hne,_,h.record_eq,rfl,?_⟩,fun _ _ _ => ⟨_,h.timer_eq⟩⟩
    rw [h.timer_eq] at ht
    cases ht
    exact ⟨hx,rfl⟩
  | @buried d _ _ _ _ _ _ _ h =>
    refine .of_no_timer h.timer_eq h.record_eq ?_
    simp only [Member.deadRecord]
    split <;> simp

namespace Process

theorem run_timed (cfg : Config) (fl : Floats) (leaveFd : ℤ) (e : Env) (ops : List Op)
    (x : String) : ((run cfg fl leaveFd e ops).member.cell x).Timed cfg x := by
  refine run_cell (P := fun _ _ c => c.Timed cfg x) ?_ (fun _ _ _ _ _ _ _ h _ _ => h.timed) ops
  obtain ⟨hlocal,hothers⟩ := start_cell cfg leaveFd e
  by_cases hx : x = cfg.name
  · subst hx
    exact .of_no_timer hlocal.timer_eq hlocal.record_eq nofun
  · have h := hothers x hx
    refine ⟨fun t ht => ?_,fun s hs _ => ?_⟩
    · rw [h.timer_eq] at ht
      cases ht
    · rw [h.record_eq] at hs
      cases hs

/-- A timer runs for a name exactly when the name is suspect, and it can still kill it:
its callback passes its check, and the dead message it then sends is accepted. -/
theorem timer_iff_suspect (cfg : Config) (fl : Floats) (leaveFd : ℤ) (e : Env) (ops : List Op)
    (x : String) :
    let m := (run cfg fl leaveFd e ops).member
    ((∃ t, m.nodeTimers x = some t) ↔ ∃ s, m.find x = some s ∧ s.state = .stateSuspect) ∧
      ∀ t, m.nodeTimers x = some t → m.deadlocked = false → ∃ d, m.timeoutCheck cfg t.f = some d ∧
        ∀ e', (m.deadNode cfg e' d).nodeTimers x = none ∧
          ∃ s, (m.deadNode cfg e' d).find x = some s ∧ s.state = .stateDead := by
  intro m
  have h : (m.cell x).Timed cfg x := run_timed cfg fl leaveFd e ops x
  have hsound : m.Sound cfg := run_sound cfg fl leaveFd e ops
  refine ⟨⟨fun ⟨t,ht⟩ => ?_,fun ⟨s,hs,hstate⟩ => h.watched s hs hstate⟩,fun t ht hfree => ?_⟩
  · obtain ⟨-,s,hs,hstate,-⟩ := h.episode t ht
    exact ⟨s,hs,hstate⟩
  · obtain ⟨hne,s,hs,hstate,hnode,hnow⟩ := h.episode t ht
    obtain ⟨r,hr,rfl⟩ := Option.map_eq_some_iff.mp hs
    have hname := m.table.named hr
    have hfind : m.find t.f.s.node = some (m.table.heap r) := by rw [hnode]; exact hs
    let d : Dead := ⟨(m.table.heap r).incarnation,x,cfg.name⟩
    refine ⟨genDeadBroadcast d,?_,fun e' => ?_⟩
    · simp [Member.timeoutCheck,hfind,hstate,hnow,hname,d]
    · have hdead : (m.table.heap r).deadOrLeft = false := by simp [NodeState.deadOrLeft,hstate]
      rw [deadNode_accepts (b := genDeadBroadcast d) hfree hr hne (le_refl _) hdead e']
      obtain ⟨hy,-⟩ := acceptDead_cell (d := d) hsound.queue hr e' (-1)
      exact ⟨hy.timer_eq,_,hy.record_eq,by simp [Member.deadRecord,d,hne]⟩

end Process

end GossipMemberlist
