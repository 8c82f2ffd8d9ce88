import GossipMemberlist.Joins

/-!
# Every disorderly step can hang

The condition on joins leaves nothing out: from the state that follows a step which
does not meet it, some schedule leads into a join cycle.
-/

namespace GossipMemberlist

/-- Where the threads of each kind can be. -/
def Tid.Allows : Tid → Pc → Prop
  | .suspicion _, .free | .suspicion _, .io | .suspicion _, .deschedule _
  | .suspicion _, .relock => False
  | .suspicion _, .enter c | .suspicion _, .wait c | .suspicion _, .inside c =>
    match c with
    | .check | .deadNode _ => True
    | _ => False
  | .suspicion _, .join c _ =>
    match c with
    | .deadNode _ => True
    | _ => False
  | .suspicion _, _ => True
  | _, .verdict | _, .finish => False
  | _, _ => True

namespace Locking

open Transitions

def Placed (s : Locking) : Prop := ∀ t : Tid, t.Allows (s.pc t)

variable {enabled : Periodic → Bool} {s s' : Locking} {t u : Tid}

theorem Placed.initial (enabled : Periodic → Bool) : (initial enabled).Placed := by
  intro t
  cases t with
  | periodic p => cases hp : enabled p <;> simp [Locking.initial,hp,Tid.Allows]
  | _ => simp [Locking.initial,Tid.Allows]

theorem Placed.goto (hs : s.Placed) {pc : Pc} (h : t.Allows pc) : (s.goto t pc).Placed := by
  intro t'
  by_cases ht : t' = t
  · subst ht
    rwa [goto_pc_self]
  · rw [goto_pc_other ht]
    exact hs t'

theorem Placed.of_pc (hs : s.Placed) (h : s'.pc = s.pc) : s'.Placed := by
  intro t
  rw [h]
  exact hs t

theorem Placed.spawn (hs : s.Placed) (u : Tid) : (s.spawn u).Placed := by
  have hgoto : (s.goto u .sleep).Placed := hs.goto (by cases u <;> trivial)
  exact hgoto.of_pc rfl

theorem Placed.body (hs : s.Placed) {c : Section} {choice : Choice} (hpc : s.pc t = .inside c) :
    (s.body t c choice).Placed := by
  have hunlock : ∀ timeout, t.Allows (.unlock timeout) := by cases t <;> simp [Tid.Allows]
  have hstop : ∀ u, (s.stop u).Placed := fun u => hs.of_pc (halts_stop s u).pc
  have hat := hs t
  rw [hpc] at hat
  unfold Locking.body
  split
  · unfold eraseTimer
    split
    · exact hs.goto (hunlock _)
    · exact (hstop _).goto (by cases t <;> trivial)
  · unfold eraseTimer
    split
    · exact hs.goto (hunlock _)
    · exact (hstop _).goto (by cases t <;> trivial)
  · split
    · unfold confirm
      split
      · refine Placed.goto (Placed.of_pc (hstop _) rfl) ?_
        cases t <;> trivial
      · exact hs.goto (hunlock _)
    · exact Placed.goto (Placed.spawn (Placed.of_pc hs rfl) _) (hunlock _)
  · split
    · unfold confirmLate
      split
      · refine (hstop _).goto ?_
        cases t <;> trivial
      · exact hs.goto (hunlock _)
    · exact hs.goto (hunlock _)
  · exact hs.goto (hunlock _)
  · split
    · exact hs.goto (hunlock _)
    · refine Placed.goto (Placed.of_pc hs rfl) ?_
      cases t <;> trivial
  · exact hs.goto (hunlock _)

theorem Placed.joined (hs : s.Placed) {c : Section} {u : Tid} (hpc : s.pc t = .join c u) :
    (s.joined t c u).Placed := by
  have hunlock : t.Allows (.unlock false) := by cases t <;> trivial
  have hat := hs t
  rw [hpc] at hat
  unfold Locking.joined
  split
  · exact Placed.goto (Placed.of_pc hs rfl) hunlock
  · exact Placed.goto (Placed.of_pc hs rfl) hunlock
  · exact (hs.spawn u).goto hunlock
  · next x p hdead _ =>
    refine hs.goto ?_
    cases t with
    | suspicion i =>
      cases c with
      | deadNode y => exact absurd rfl (hdead y)
      | _ => cases hat
    | _ => trivial
  · exact hs.goto hunlock

theorem Placed.point (hs : s.Placed) {pc : Pc} (h : t.Allows pc) : (s.point t pc).Placed := by
  refine hs.goto ?_
  split
  · cases t <;> trivial
  · exact h

theorem Placed.step (hs : s.Placed) (m : Move) : (s.step enabled m).Placed := by
  obtain ⟨t,choice⟩ := m
  have hat := hs t
  unfold Locking.step
  cases hpc : s.pc t with
  | free =>
    rw [hpc] at hat
    simp only [hpc]
    split
    · split
      · refine hs.goto ?_
        cases t <;> trivial
      · exact hs
    · refine hs.goto ?_
      cases t <;> trivial
    · exact hs.goto trivial
    · exact hs
  | sleep =>
    simp only [hpc]
    split
    · exact hs.point trivial
    · next hnot =>
      refine hs.point ?_
      cases t with
      | suspicion i => exact absurd rfl (hnot i)
      | _ => trivial
  | io =>
    rw [hpc] at hat
    simp only [hpc]
    refine hs.point ?_
    cases t <;> trivial
  | enter c =>
    rw [hpc] at hat
    simp only [hpc]
    refine hs.goto ?_
    cases t <;> exact hat
  | wait c =>
    rw [hpc] at hat
    simp only [hpc]
    split
    · refine Placed.goto (Placed.of_pc hs rfl) ?_
      cases t <;> exact hat
    · exact hs
  | inside c =>
    simp only [hpc]
    exact hs.body hpc
  | join c u =>
    simp only [hpc]
    split
    · exact hs.joined hpc
    · exact hs
  | deschedule ps =>
    rw [hpc] at hat
    cases ps with
    | nil =>
      simp only [hpc]
      refine hs.goto ?_
      cases t <;> trivial
    | cons p ps =>
      simp only [hpc]
      split
      · refine Placed.goto (Placed.of_pc hs (halts_stop s (.periodic p)).pc) ?_
        cases t <;> trivial
      · refine hs.goto ?_
        cases t <;> trivial
  | relock =>
    simp only [hpc]
    exact hs
  | unlock timeout =>
    simp only [hpc]
    refine Placed.goto (Placed.of_pc hs rfl) ?_
    cases t <;> cases timeout <;> trivial
  | verdict =>
    rw [hpc] at hat
    simp only [hpc]
    split
    · exact hs.point hat
    · exact hs.goto trivial
    · exact hs
  | finish =>
    simp only [hpc]
    refine Placed.goto (Placed.of_pc hs rfl) ?_
    cases t <;> trivial
  | ended =>
    simp only [hpc]
    exact hs

theorem step_target {c : Section} {choice : Choice}
    (h : s.target enabled ⟨t,choice⟩ = some (c,u)) :
    (s.pc t).Holds ∧ u.IsTimer ∧ ∃ s₁, s.Halts u s₁ ∧
      s.step enabled ⟨t,choice⟩ = s₁.goto t (.join c u) := by
  have hstop : ∀ u, s.Halts u (s.stop u) := halts_stop s
  unfold target at h
  split at h
  · next x hpc hchoice =>
    obtain ⟨i,hi,heq⟩ := Option.map_eq_some_iff.mp h
    cases heq
    obtain rfl : choice = .act := hchoice
    refine ⟨by rw [hpc]; trivial,trivial,_,hstop _,?_⟩
    simp [Locking.step,hpc,Locking.body,Locking.eraseTimer,hi]
  · next x hpc hchoice =>
    obtain ⟨i,hi,heq⟩ := Option.map_eq_some_iff.mp h
    cases heq
    obtain rfl : choice = .act := hchoice
    refine ⟨by rw [hpc]; trivial,trivial,_,hstop _,?_⟩
    simp [Locking.step,hpc,Locking.body,Locking.eraseTimer,hi]
  · next x hpc hchoice =>
    obtain ⟨i,hi,heq⟩ := Option.map_eq_some_iff.mp h
    cases heq
    obtain ⟨hi,hrunning⟩ := Option.filter_eq_some_iff.mp hi
    obtain rfl : choice = .act := hchoice
    refine ⟨by rw [hpc]; trivial,trivial,_,(hstop _).flag,?_⟩
    simp [Locking.step,hpc,Locking.body,Locking.confirm,hi,hrunning]
  · next p ps _ hpc =>
    split at h
    · next hp =>
      cases h
      refine ⟨by rw [hpc]; trivial,trivial,_,hstop _,?_⟩
      simp [Locking.step,hpc,hp]
    · cases h
  · cases h

theorem target_restart {c : Section} {choice : Choice}
    (h : s.target enabled ⟨t,choice⟩ = some (c,u)) (hc : c.Restarts) :
    ∃ x i, s.pc t = .inside (.suspectNode x) ∧ c = .suspectNode x ∧ u = .suspicion i ∧
      s.nodeTimers x = some i := by
  unfold target at h
  split at h
  · obtain ⟨i,hi,heq⟩ := Option.map_eq_some_iff.mp h
    cases heq
    cases hc
  · obtain ⟨i,hi,heq⟩ := Option.map_eq_some_iff.mp h
    cases heq
    cases hc
  · next x hpc hchoice =>
    obtain ⟨i,hi,heq⟩ := Option.map_eq_some_iff.mp h
    cases heq
    exact ⟨x,i,hpc,rfl,rfl,(Option.filter_eq_some_iff.mp hi).1⟩
  · split at h
    · cases h
      cases hc
    · cases h
  · cases h

/-- The lock holder waits for the end of `u`, which is on its way to the lock. -/
theorem hang_of_enter {c c' : Section} (hm : s.nodeMutex = some t) (hjoin : s.pc t = .join c u)
    (hne : t ≠ u) (hu : s.pc u = .enter c') : CanReach (Locking.step enabled) JoinCycle s := by
  have hstep : s.step enabled ⟨u,.go⟩ = s.goto u (.wait c') := by simp [Locking.step,hu]
  refine .after ⟨u,.go⟩ (.here ⟨t,c,u,?_,Or.inr ⟨?_,?_⟩⟩)
  all_goals rw [hstep]
  · exact (goto_pc_other hne _).trans hjoin
  · exact hm
  · rw [goto_pc_self]
    trivial

theorem hang_of_step {c c' : Section} (choice : Choice) (hm : s.nodeMutex = some t)
    (hjoin : s.pc t = .join c u) (hne : t ≠ u)
    (hstep : s.step enabled ⟨u,choice⟩ = s.goto u (.enter c')) :
    CanReach (Locking.step enabled) JoinCycle s := by
  refine .after ⟨u,choice⟩ ?_
  rw [hstep]
  exact hang_of_enter hm ((goto_pc_other hne _).trans hjoin) hne (goto_pc_self _)

/-- The thread of a suspicion sleeps, and its timer takes it for stopped. -/
structure Stray (s : Locking) (x : String) (i : ℕ) : Prop where
  sleeps : s.pc (.suspicion i) = .sleep
  clear : s.running (.suspicion i) = false
  quiet : s.cancelled (.suspicion i) = false
  timer : s.nodeTimers x = some i

theorem Stray.goto {x : String} {i : ℕ} (h : s.Stray x i) (hne : .suspicion i ≠ t) (pc : Pc) :
    (s.goto t pc).Stray x i where
  sleeps := (goto_pc_other hne pc).trans h.sleeps
  clear := h.clear
  quiet := h.quiet
  timer := h.timer

theorem Stray.lock {x : String} {i : ℕ} (h : s.Stray x i) (o : Option Tid) :
    Stray { s with nodeMutex := o } x i := ⟨h.sleeps,h.clear,h.quiet,h.timer⟩

theorem Stray.hang_inside {x : String} {i : ℕ} (h : s.Stray x i) (hne : .suspicion i ≠ t)
    (hm : s.nodeMutex = some t) (hpc : s.pc t = .inside (.aliveNode x)) :
    CanReach (Locking.step enabled) JoinCycle s := by
  have hstep : s.step enabled ⟨t,.act⟩ = s.goto t (.join (.aliveNode x) (.suspicion i)) := by
    simp [Locking.step,hpc,Locking.body,Locking.eraseTimer,h.timer,stop,h.clear]
  have h' := h.goto hne (.join (.aliveNode x) (.suspicion i))
  have hwake : (s.goto t (.join (.aliveNode x) (.suspicion i))).step enabled ⟨.suspicion i,.go⟩ =
      (s.goto t (.join (.aliveNode x) (.suspicion i))).goto (.suspicion i) (.enter .check) := by
    simp [Locking.step,Locking.point,h'.sleeps,h'.quiet]
  refine .after ⟨t,.act⟩ ?_
  rw [hstep]
  exact hang_of_step .go hm (goto_pc_self _) hne.symm hwake

theorem Stray.hang_wait {x : String} {i : ℕ} (h : s.Stray x i) (hne : .suspicion i ≠ t)
    (hm : s.nodeMutex = none) (hpc : s.pc t = .wait (.aliveNode x)) :
    CanReach (Locking.step enabled) JoinCycle s := by
  have hstep : s.step enabled ⟨t,.go⟩ =
      Locking.goto t (.inside (.aliveNode x)) { s with nodeMutex := some t } := by
    simp [Locking.step,hpc,hm]
  refine .after ⟨t,.go⟩ ?_
  rw [hstep]
  exact ((h.lock (some t)).goto hne _).hang_inside hne rfl (goto_pc_self _)

theorem Stray.hang_free {x : String} {i : ℕ} (h : s.Stray x i)
    (hcalls : t.calls (.aliveNode x) = true) (hne : .suspicion i ≠ t) (hm : s.nodeMutex = none)
    (hpc : s.pc t = .free) : CanReach (Locking.step enabled) JoinCycle s := by
  have hcall : s.step enabled ⟨t,.call (.aliveNode x)⟩ = s.goto t (.enter (.aliveNode x)) := by
    simp [Locking.step,hpc,hcalls]
  have hwait : (s.goto t (.enter (.aliveNode x))).step enabled ⟨t,.go⟩ =
      (s.goto t (.enter (.aliveNode x))).goto t (.wait (.aliveNode x)) := by simp [Locking.step]
  refine .after ⟨t,.call (.aliveNode x)⟩ (.after ⟨t,.go⟩ ?_)
  rw [hcall,hwait]
  exact ((h.goto hne _).goto hne _).hang_wait hne hm (goto_pc_self _)

theorem hang_of_finish {x : String} {i : ℕ} (hcalls : t.calls (.aliveNode x) = true)
    (hjoin : s.pc t = .join (.suspectNode x) (.suspicion i))
    (hu : s.pc (.suspicion i) = .finish) (ht : s.nodeTimers x = some i) :
    CanReach (Locking.step enabled) JoinCycle s := by
  have hne : .suspicion i ≠ t := by
    rintro rfl
    cases hcalls
  have hfree : t.afterUnlock false = .free := by
    cases t with
    | suspicion j => cases hcalls
    | _ => rfl
  -- the old thread ends, the new one starts, and the lock is released
  let s₁ := Locking.goto (.suspicion i) .ended
    { s with running := Function.update s.running (.suspicion i) false }
  have h₁ : s.step enabled ⟨.suspicion i,.go⟩ = s₁ := by simp [Locking.step,hu,s₁]
  have hpc₁ : s₁.pc t = .join (.suspectNode x) (.suspicion i) :=
    (goto_pc_other hne.symm _).trans hjoin
  have hended : s₁.pc (.suspicion i) = .ended := goto_pc_self _
  have h₂ : s₁.step enabled ⟨t,.go⟩ = (s₁.spawn (.suspicion i)).goto t (.unlock false) := by
    simp [Locking.step,hpc₁,hended,Locking.joined]
  let s₃ := Locking.goto t .free
    { (s₁.spawn (.suspicion i)).goto t (.unlock false) with nodeMutex := none }
  have h₃ : ((s₁.spawn (.suspicion i)).goto t (.unlock false)).step enabled ⟨t,.go⟩ = s₃ := by
    simp [Locking.step,hfree,s₃]
  have hspawn : (s₁.spawn (.suspicion i)).Stray x i :=
    ⟨Function.update_self _ _ _,Function.update_self _ _ _,Function.update_self _ _ _,ht⟩
  have hstray : s₃.Stray x i := ((hspawn.goto hne (.unlock false)).lock none).goto hne .free
  refine .after ⟨.suspicion i,.go⟩ (.after ⟨t,.go⟩ (.after ⟨t,.go⟩ ?_))
  rw [h₁,h₂,h₃]
  exact hstray.hang_free hcalls hne rfl (goto_pc_self _)

/-- From the state after a step that is not orderly, a join cycle can be reached. -/
theorem disorder_hangs (hs : s.Sound) (hp : s.Placed) {m : Move} (h : ¬s.Orderly enabled m) :
    CanReach (Locking.step enabled) JoinCycle (s.step enabled m) := by
  obtain ⟨t,choice⟩ := m
  obtain ⟨c,u,htarget,hyields⟩ : ∃ c u, s.target enabled ⟨t,choice⟩ = some (c,u) ∧
      ¬(s.pc u).Yields c := by simpa [Orderly] using h
  obtain ⟨hholds,htimer,s₁,hhalts,hstep⟩ := step_target htarget
  have hm : (s₁.goto t (.join c u)).nodeMutex = some t :=
    hhalts.nodeMutex.trans (hs.holder t hholds)
  have hjoin : (s₁.goto t (.join c u)).pc t = .join c u := goto_pc_self _
  have htimers : (s₁.goto t (.join c u)).nodeTimers = s.nodeTimers := hhalts.nodeTimers
  rw [hstep]
  by_cases hut : t = u
  · subst hut
    exact .here ⟨t,c,t,hjoin,Or.inl rfl⟩
  have hu : (s₁.goto t (.join c u)).pc u = s.pc u := by
    rw [goto_pc_other (Ne.symm hut),hhalts.pc]
  generalize s₁.goto t (.join c u) = s₂ at hm hjoin htimers hu
  have hother : ¬(s.pc u).Holds := hs.sole (hs.holder t hholds) (Ne.symm hut)
  have hat := hp u
  cases hpc : s.pc u with
  | free =>
    rw [hpc] at hat hu
    have hcalls : u.calls .plain = true := by cases u <;> first | rfl | cases hat
    have hcall : s₂.step enabled ⟨u,.call .plain⟩ = s₂.goto u (.enter .plain) := by
      simp [Locking.step,hu,hcalls]
    exact hang_of_step (.call .plain) hm hjoin hut hcall
  | enter c' =>
    rw [hpc] at hu
    exact hang_of_enter hm hjoin hut hu
  | wait c' =>
    rw [hpc] at hu
    refine .here ⟨t,c,u,hjoin,Or.inr ⟨hm,?_⟩⟩
    rw [hu]
    trivial
  | verdict =>
    rw [hpc] at hat hu
    cases u with
    | suspicion i =>
      have hdead : s₂.step enabled ⟨.suspicion i,.go⟩ =
          s₂.goto (.suspicion i) (.enter (.deadNode (s₂.node i))) := by simp [Locking.step,hu]
      exact hang_of_step .go hm hjoin hut hdead
    | _ => cases hat
  | finish =>
    rw [hpc] at hyields hu
    obtain ⟨x,i,hinside,rfl,rfl,htimer'⟩ := target_restart htarget (not_not.mp hyields)
    have hcalls : t.calls (.aliveNode x) = true := by
      have hat := hp t
      rw [hinside] at hat
      cases t <;> first | rfl | cases hat
    exact hang_of_finish hcalls hjoin hu ((congrFun htimers x).trans htimer')
  | sleep | io | ended => exact absurd (by rw [hpc]; trivial) hyields
  | _ => exact absurd (by rw [hpc]; trivial) hother

/-- A run that has been orderly so far can be continued into a join cycle as soon as one step
is not. -/
theorem disorder_hangs_run (enabled : Periodic → Bool) {ms : List Move} {m : Move}
    (h : Along (Locking.step enabled) (Orderly enabled) (initial enabled) ms)
    (hm : ¬(run (Locking.step enabled) (initial enabled) ms).Orderly enabled m) :
    ∃ ms', (run (Locking.step enabled) (initial enabled) (ms ++ m::ms')).JoinCycle := by
  have hsound : (run (Locking.step enabled) (initial enabled) ms).Sound :=
    h.invariant (Sound.initial enabled) fun s m ho hs => hs.step m ho
  have hplaced : (run (Locking.step enabled) (initial enabled) ms).Placed :=
    run_invariant (Placed.initial enabled) (fun s m hp => hp.step m) ms
  obtain ⟨ms',hcycle⟩ := disorder_hangs hsound hplaced hm
  exact ⟨ms',by rwa [run_append,run_cons]⟩

end Locking

end GossipMemberlist
