import GossipMemberlist.Locking

/-!
# Joins under the node lock

No thread joins itself, and none joins a thread that waits for the lock it holds, as
long as every thread about to be joined can be cancelled or is past the lock. Else
both happen: the callback of a suspicion erases its own timer, and `ShutDown` joins a
periodic thread that waits for it.
-/

namespace GossipMemberlist

def Pc.Waits : Pc → Prop
  | .wait _ | .relock => True
  | _ => False

def Pc.Holds : Pc → Prop
  | .inside _ | .join _ _ | .deschedule _ | .relock | .unlock _ => True
  | _ => False

theorem Pc.Holds.ne_ended {pc : Pc} (h : pc.Holds) : pc ≠ .ended := by
  rintro rfl
  exact h

def Section.Restarts : Section → Prop
  | .suspectNode _ => True
  | _ => False

/-- At a cancellation point, or past the last lock that it takes, with nothing left to do to
a timer that is being restarted. -/
def Pc.Yields (c : Section) : Pc → Prop
  | .sleep | .io | .ended => True
  | .finish => ¬c.Restarts
  | _ => False

instance : DecidablePred Section.Restarts
  | .suspectNode _ => isTrue trivial
  | .plain | .aliveNode _ | .deadNode _ | .check | .shutDown => isFalse id

instance (c : Section) : DecidablePred (Pc.Yields c)
  | .sleep | .io | .ended => isTrue trivial
  | .finish => inferInstanceAs (Decidable ¬c.Restarts)
  | .free | .enter _ | .wait _ | .inside _ | .join _ _ | .deschedule _ | .relock | .unlock _
  | .verdict => isFalse id

namespace Locking

/-- Some thread joins itself, or holds `nodeMutex` and joins a thread that waits for it. -/
def JoinCycle (s : Locking) : Prop :=
  ∃ t c u, s.pc t = .join c u ∧ (u = t ∨ s.nodeMutex = some t ∧ (s.pc u).Waits)

def target (enabled : Periodic → Bool) (s : Locking) (m : Move) : Option (Section × Tid) :=
  match s.pc m.t, m.choice with
  | .inside (.aliveNode x), .act => (s.nodeTimers x).map fun i => (.aliveNode x,.suspicion i)
  | .inside (.deadNode x), .act => (s.nodeTimers x).map fun i => (.deadNode x,.suspicion i)
  | .inside (.suspectNode x), .act =>
    ((s.nodeTimers x).filter fun i => s.running (.suspicion i)).map fun i =>
      (.suspectNode x,.suspicion i)
  | .deschedule (p::_), _ => if enabled p then some (.shutDown,.periodic p) else none
  | _, _ => none

/-- The condition on a step, in the state before it: a thread that is going to be joined is at
a cancellation point or past its last critical section. -/
def Orderly (enabled : Periodic → Bool) (s : Locking) (m : Move) : Prop :=
  ∀ c u, s.target enabled m = some (c,u) → (s.pc u).Yields c

instance (enabled : Periodic → Bool) (s : Locking) (m : Move) : Decidable (Orderly enabled s m) :=
  match h : s.target enabled m with
  | none => isTrue fun c u h' => by simp [h] at h'
  | some (c,u) => decidable_of_iff ((s.pc u).Yields c) <| by simp [Orderly,h]

/-- Nothing brings the thread back to the lock, nor clears the flag of a restarted timer. -/
def Doomed (s : Locking) (c : Section) (u : Tid) : Prop :=
  (s.pc u).Yields c ∧ (s.pc u = .finish ∨ s.pc u = .ended ∨ s.cancelled u = true) ∧
  (c.Restarts → s.running u = true)

structure Sound (s : Locking) : Prop where
  holder : ∀ t, (s.pc t).Holds → s.nodeMutex = some t
  flagged : ∀ u, u.IsTimer → s.pc u ≠ .ended → s.running u = true ∨ s.cancelled u = true
  joined : ∀ t c u, s.pc t = .join c u → u.IsTimer ∧ s.Doomed c u

theorem Sound.initial (enabled : Periodic → Bool) : (initial enabled).Sound where
  holder t h := by
    cases t with
    | periodic p => cases hp : enabled p <;> simp [Locking.initial,hp,Pc.Holds] at h
    | _ => simp [Locking.initial,Pc.Holds] at h
  flagged u hu h := by
    cases u with
    | periodic p => cases hp : enabled p <;> simp_all [Locking.initial]
    | worker n => cases hu
    | suspicion i => simp [Locking.initial] at h
  joined t c u h := by
    cases t with
    | periodic p => cases hp : enabled p <;> simp [Locking.initial,hp] at h
    | _ => simp [Locking.initial] at h

theorem Sound.no_cycle {s : Locking} (hs : s.Sound) : ¬s.JoinCycle := by
  rintro ⟨t,c,u,hjoin,hcycle⟩
  obtain ⟨-,hyields,-⟩ := hs.joined t c u hjoin
  rcases hcycle with rfl | ⟨-,hwait⟩
  · rw [hjoin] at hyields
    cases hyields
  · cases hpc : s.pc u <;> simp [hpc,Pc.Waits,Pc.Yields] at hwait hyields

variable {enabled : Periodic → Bool} {s s' : Locking} {t : Tid}

@[simp] theorem goto_pc_self (pc : Pc) : (s.goto t pc).pc t = pc := Function.update_self _ _ _

theorem goto_pc_other {u : Tid} (h : u ≠ t) (pc : Pc) : (s.goto t pc).pc u = s.pc u :=
  Function.update_of_ne h _ _

theorem ended_before {u : Tid} {pc : Pc} (hended : pc ≠ .ended → s.pc t ≠ .ended)
    (h : (s.goto t pc).pc u ≠ .ended) : s.pc u ≠ .ended := by
  by_cases hut : u = t
  · subst hut
    rw [goto_pc_self] at h
    exact hended h
  · rwa [goto_pc_other hut] at h

theorem join_before {t' u : Tid} {c : Section} {pc : Pc} (hpc : ¬pc.Holds)
    (h : (s.goto t pc).pc t' = .join c u) : t' ≠ t ∧ s.pc t' = .join c u := by
  by_cases ht : t' = t
  · subst ht
    rw [goto_pc_self] at h
    exact absurd (by rw [h]; trivial) hpc
  · rw [goto_pc_other ht] at h
    exact ⟨ht,h⟩

/-- Two threads never hold the lock. -/
theorem Sound.sole (hs : s.Sound) (hm : s.nodeMutex = some t) {t' : Tid} (ht : t' ≠ t) :
    ¬(s.pc t').Holds := fun h => by
  have := hs.holder t' h
  rw [hm] at this
  exact ht (Option.some.inj this).symm

theorem Sound.outside (hs : s.Sound) {pc : Pc} (hpc : ¬pc.Holds)
    (hended : pc ≠ .ended → s.pc t ≠ .ended)
    (hdoomed : ∀ c, s.Doomed c t → pc = .ended) : (s.goto t pc).Sound where
  holder t' h := by
    by_cases ht : t' = t
    · subst ht
      rw [goto_pc_self] at h
      exact absurd h hpc
    · rw [goto_pc_other ht] at h
      exact hs.holder t' h
  flagged u hu h := hs.flagged u hu (ended_before hended h)
  joined t' c u h := by
    obtain ⟨-,hjoin⟩ := join_before hpc h
    obtain ⟨hu,hd⟩ := hs.joined t' c u hjoin
    refine ⟨hu,?_⟩
    by_cases hut : u = t
    · subst hut
      obtain rfl := hdoomed c hd
      unfold Doomed
      rw [goto_pc_self]
      exact ⟨trivial,Or.inr (Or.inl rfl),hd.2.2⟩
    · unfold Doomed
      rw [goto_pc_other hut]
      exact hd

/-- A step of the thread that holds the lock and goes on holding it. Others keep still, but for
a runner that is started. -/
theorem Sound.held (hs : s.Sound) (hm : s.nodeMutex = some t) (hm' : s'.nodeMutex = some t)
    (hother : ∀ t', t' ≠ t → s'.pc t' = s.pc t' ∨ s'.pc t' = .sleep)
    (hflagged : ∀ u, u.IsTimer → s'.pc u ≠ .ended → s'.running u = true ∨ s'.cancelled u = true)
    (hjoined : ∀ c u, s'.pc t = .join c u → u.IsTimer ∧ s'.Doomed c u) : s'.Sound := by
  have hout : ∀ t', t' ≠ t → ¬(s'.pc t').Holds := by
    intro t' ht h
    rcases hother t' ht with heq | heq
    · rw [heq] at h
      exact hs.sole hm ht h
    · simp [heq,Pc.Holds] at h
  refine ⟨fun t' h => ?_,hflagged,fun t' c u h => ?_⟩
  · by_cases ht : t' = t
    · rw [ht,hm']
    · exact absurd h (hout t' ht)
  · by_cases ht : t' = t
    · subst ht
      exact hjoined c u h
    · exact absurd (by rw [h]; trivial) (hout t' ht)

theorem Sound.move (hs : s.Sound) (hpc : (s.pc t).Holds) {pc : Pc}
    (hnojoin : ∀ c u, pc ≠ .join c u) : (s.goto t pc).Sound := by
  have hm := hs.holder t hpc
  refine hs.held hm hm (fun t' ht => Or.inl (goto_pc_other ht pc)) (fun u hu h => ?_) ?_
  · exact hs.flagged u hu (ended_before (fun _ => hpc.ne_ended) h)
  · intro c u h
    rw [goto_pc_self] at h
    exact absurd h (hnojoin c u)

/-- `s'` is `s` with a cancel request to `u`, if its timer is running. -/
structure Halts (s : Locking) (u : Tid) (s' : Locking) : Prop where
  pc : s'.pc = s.pc
  nodeMutex : s'.nodeMutex = s.nodeMutex
  nodeTimers : s'.nodeTimers = s.nodeTimers
  running : ∀ u', u' ≠ u → s'.running u' = s.running u'
  cancelled : ∀ u', u' ≠ u → s'.cancelled u' = s.cancelled u'
  self : s.running u = true ∨ s.cancelled u = true → s'.cancelled u = true

theorem halts_stop (s : Locking) (u : Tid) : s.Halts u (s.stop u) := by
  unfold stop
  split
  · exact ⟨rfl,rfl,rfl,fun u' h => Function.update_of_ne h _ _,
      fun u' h => Function.update_of_ne h _ _,fun _ => Function.update_self _ _ _⟩
  · next h => exact ⟨rfl,rfl,rfl,fun _ _ => rfl,fun _ _ => rfl,fun h' => h'.resolve_left h⟩

theorem Halts.flag {u : Tid} (h : s.Halts u s') : s.Halts u (s'.flag u) :=
  ⟨h.pc,h.nodeMutex,h.nodeTimers,
    fun u' hu' => (Function.update_of_ne hu' _ _).trans (h.running u' hu'),h.cancelled,h.self⟩

theorem Sound.halted (hs : s.Sound) (hpc : (s.pc t).Holds) {u : Tid} (h : s.Halts u s') {pc : Pc}
    (hjoin : ∀ c u', pc = .join c u' →
      u' = u ∧ u.IsTimer ∧ (s.pc u).Yields c ∧ (c.Restarts → s'.running u = true)) :
    (s'.goto t pc).Sound := by
  have hm := hs.holder t hpc
  have hflagged : ∀ u', u'.IsTimer → s.pc u' ≠ .ended →
      s'.running u' = true ∨ s'.cancelled u' = true := by
    intro u' hu' hended
    have hbefore := hs.flagged u' hu' hended
    by_cases heq : u' = u
    · subst heq
      exact Or.inr (h.self hbefore)
    · rw [h.running u' heq,h.cancelled u' heq]
      exact hbefore
  refine hs.held hm (h.nodeMutex.trans hm) (fun t' ht => Or.inl ?_) (fun u' hu' hended => ?_) ?_
  · rw [goto_pc_other ht,h.pc]
  · have hbefore := ended_before (fun _ => by rw [h.pc]; exact hpc.ne_ended) hended
    rw [h.pc] at hbefore
    exact hflagged u' hu' hbefore
  · intro c u' heq
    rw [goto_pc_self] at heq
    obtain ⟨rfl,htimer,hyields,hrunning⟩ := hjoin c u' heq
    have hut : u' ≠ t := by
      rintro rfl
      cases hpc' : s.pc u' <;> simp [hpc',Pc.Holds,Pc.Yields] at hpc hyields
    refine ⟨htimer,?_⟩
    unfold Doomed
    rw [goto_pc_other hut,h.pc]
    refine ⟨hyields,?_,hrunning⟩
    by_cases hended : s.pc u' = .ended
    · exact Or.inr (Or.inl hended)
    · exact Or.inr (Or.inr (h.self (hs.flagged u' htimer hended)))

theorem Sound.flag (hs : s.Sound) (u : Tid) : (s.flag u).Sound where
  holder := hs.holder
  flagged u' hu' h := by
    by_cases heq : u' = u
    · subst heq
      exact Or.inl (Function.update_self _ _ _)
    · simpa [Locking.flag,heq] using hs.flagged u' hu' h
  joined t c u' h := by
    obtain ⟨htimer,hyields,hstill,hrunning⟩ := hs.joined t c u' h
    refine ⟨htimer,hyields,hstill,fun hc => ?_⟩
    by_cases heq : u' = u
    · subst heq
      exact Function.update_self _ _ _
    · exact (Function.update_of_ne heq _ _).trans (hrunning hc)

theorem Sound.spawned (hs : s.Sound) (hpc : (s.pc t).Holds) {u : Tid} (hu : s.running u = true)
    {pc : Pc} (hnojoin : ∀ c u', pc ≠ .join c u') : ((s.spawn u).goto t pc).Sound := by
  have hm := hs.holder t hpc
  refine hs.held hm hm (fun t' ht => ?_) (fun u' hu' h => ?_) ?_
  · rw [goto_pc_other ht]
    by_cases heq : t' = u
    · subst heq
      exact Or.inr (Function.update_self _ _ _)
    · exact Or.inl (Function.update_of_ne heq _ _)
  · by_cases heq : u' = u
    · exact Or.inl (heq ▸ hu)
    · have hended : s.pc u' ≠ .ended := by
        by_cases hut : u' = t
        · exact hut ▸ hpc.ne_ended
        · rw [goto_pc_other hut] at h
          simpa [spawn,heq] using h
      show s.running u' = true ∨ Function.update s.cancelled u false u' = true
      rw [Function.update_of_ne heq]
      exact hs.flagged u' hu' hended
  · intro c u' h
    rw [goto_pc_self] at h
    exact absurd h (hnojoin c u')

theorem Sound.acquire (hs : s.Sound) (hfree : s.nodeMutex = none) {c : Section}
    (hended : s.pc t ≠ .ended) :
    (goto t (.inside c) { s with nodeMutex := some t }).Sound := by
  have hout : ∀ t', ¬(s.pc t').Holds := fun t' h => by
    have := hs.holder t' h
    rw [hfree] at this
    cases this
  refine ⟨fun t' h => ?_,fun u hu h => ?_,fun t' c' u h => ?_⟩
  · by_cases ht : t' = t
    · rw [ht]
      rfl
    · rw [goto_pc_other ht] at h
      exact absurd h (hout t')
  · exact hs.flagged u hu (ended_before (fun _ => hended) h)
  · by_cases ht : t' = t
    · subst ht
      rw [goto_pc_self] at h
      cases h
    · rw [goto_pc_other ht] at h
      have hjoin : s.pc t' = .join c' u := h
      exact absurd (by rw [hjoin]; trivial) (hout t')

theorem Sound.release (hs : s.Sound) (hpc : (s.pc t).Holds) {pc : Pc} (hout : ¬pc.Holds) :
    (goto t pc { s with nodeMutex := none }).Sound := by
  have hm := hs.holder t hpc
  refine ⟨fun t' h => ?_,fun u hu h => ?_,fun t' c' u h => ?_⟩
  · by_cases ht : t' = t
    · subst ht
      rw [goto_pc_self] at h
      exact absurd h hout
    · rw [goto_pc_other ht] at h
      exact absurd h (hs.sole hm ht)
  · exact hs.flagged u hu (ended_before (fun _ => hpc.ne_ended) h)
  · obtain ⟨ht,hjoin⟩ := join_before hout h
    have hjoin : s.pc t' = .join c' u := hjoin
    exact absurd (by rw [hjoin]; trivial) (hs.sole hm ht)

theorem Sound.eraseTimer (hs : s.Sound) (hpc : (s.pc t).Holds) {c : Section} (hc : ¬c.Restarts)
    {x : String} (ho : ∀ i, s.nodeTimers x = some i → (s.pc (.suspicion i)).Yields c) :
    (s.eraseTimer t c x).Sound := by
  unfold Locking.eraseTimer
  split
  · exact hs.move hpc (by simp)
  · next i hi =>
    refine hs.halted hpc (halts_stop s (.suspicion i)) fun c' u' h => ?_
    cases h
    exact ⟨rfl,trivial,ho i hi,fun hc' => absurd hc' hc⟩

theorem Sound.confirm (hs : s.Sound) (hpc : (s.pc t).Holds) (c : Section) {i : ℕ}
    (ho : s.running (.suspicion i) = true → (s.pc (.suspicion i)).Yields c) :
    (s.confirm t c i).Sound := by
  unfold Locking.confirm
  split
  · next hrunning =>
    refine hs.halted hpc (halts_stop s (.suspicion i)).flag fun c' u' h => ?_
    cases h
    exact ⟨rfl,trivial,ho hrunning,fun _ => Function.update_self _ _ _⟩
  · exact hs.move hpc (by simp)

theorem Sound.confirmLate (hs : s.Sound) (hpc : (s.pc t).Holds) (i : ℕ) :
    (s.confirmLate t i).Sound := by
  unfold Locking.confirmLate
  split
  · exact hs.halted hpc (halts_stop s (.suspicion i)) (by simp)
  · exact hs.move hpc (by simp)

theorem Sound.newSuspicion (hs : s.Sound) (hpc : (s.pc t).Holds) (x : String) :
    (s.newSuspicion t x).Sound := by
  have hs' : Sound { s with
      nodeTimers := Function.update s.nodeTimers x (some s.next)
      node := Function.update s.node s.next x
      next := s.next + 1 } := ⟨hs.holder,hs.flagged,hs.joined⟩
  exact (hs'.flag (.suspicion s.next)).spawned hpc (Function.update_self _ _ _) (by simp)

theorem Sound.body (hs : s.Sound) {c : Section} {choice : Choice} (hpc : s.pc t = .inside c)
    (ho : s.Orderly enabled ⟨t,choice⟩) : (s.body t c choice).Sound := by
  have hholds : (s.pc t).Holds := by
    rw [hpc]
    trivial
  unfold Orderly target at ho
  simp only [hpc] at ho
  unfold Locking.body
  split
  · next x =>
    exact hs.eraseTimer hholds id fun i hi => ho _ (.suspicion i) (by simp [hi])
  · next x =>
    exact hs.eraseTimer hholds id fun i hi => ho _ (.suspicion i) (by simp [hi])
  · next x =>
    split
    · next i hi =>
      exact hs.confirm hholds _ fun hr => ho _ (.suspicion i) (by simp [hi,hr])
    · exact hs.newSuspicion hholds x
  · split
    · exact hs.confirmLate hholds _
    · exact hs.move hholds (by simp)
  · exact hs.move hholds (by simp)
  · split
    · exact hs.move hholds (by simp)
    · have hs' : Sound { s with shutdown := true } := ⟨hs.holder,hs.flagged,hs.joined⟩
      exact hs'.move hholds (by simp)
  · exact hs.move hholds (by simp)

theorem Sound.after (hs : s.Sound) {c : Section} {u : Tid} (hpc : s.pc t = .join c u) :
    (s.joined t c u).Sound := by
  obtain ⟨-,-,-,hrunning⟩ := hs.joined t c u hpc
  have hholds : (s.pc t).Holds := by
    rw [hpc]
    trivial
  unfold Locking.joined
  split
  · next x =>
    have hs' : Sound { s with nodeTimers := Function.update s.nodeTimers x none } :=
      ⟨hs.holder,hs.flagged,hs.joined⟩
    exact hs'.move hholds (by simp)
  · next x =>
    have hs' : Sound { s with nodeTimers := Function.update s.nodeTimers x none } :=
      ⟨hs.holder,hs.flagged,hs.joined⟩
    exact hs'.move hholds (by simp)
  · exact hs.spawned hholds (hrunning trivial) (by simp)
  · exact hs.move hholds (by simp)
  · exact hs.move hholds (by simp)

theorem Sound.proceed (hs : s.Sound) (hout : ∀ c, ¬(s.pc t).Yields c) {pc : Pc}
    (hpc : ¬pc.Holds) : (s.goto t pc).Sound := by
  refine hs.outside hpc (fun _ hended => hout .plain ?_) fun c h => absurd h.1 (hout c)
  rw [hended]
  trivial

theorem Sound.point (hs : s.Sound) {pc : Pc} (hpc : ¬pc.Holds) (hended : s.pc t ≠ .ended)
    (hfinish : s.pc t ≠ .finish) : (s.point t pc).Sound := by
  unfold Locking.point
  split
  · exact hs.outside (by simp [Pc.Holds]) (fun h => absurd rfl h) fun _ _ => rfl
  · next hcancelled =>
    refine hs.outside hpc (fun _ => hended) fun c h => ?_
    rcases h.2.1 with h | h | h
    · exact absurd h hfinish
    · exact absurd h hended
    · exact absurd h hcancelled

theorem Sound.finish (hs : s.Sound) (hpc : s.pc t = .finish) :
    (goto t .ended { s with running := Function.update s.running t false }).Sound := by
  have hgoto : (s.goto t .ended).Sound :=
    hs.outside (by simp [Pc.Holds]) (fun h => absurd rfl h) fun _ _ => rfl
  refine ⟨hgoto.holder,fun u hu h => ?_,fun t' c u h => ?_⟩
  · have hut : u ≠ t := by
      rintro rfl
      exact h (goto_pc_self _)
    have hold := hgoto.flagged u hu h
    show Function.update s.running t false u = true ∨ s.cancelled u = true
    rw [Function.update_of_ne hut]
    exact hold
  · obtain ⟨htimer,hyields,hstill,hrunning⟩ := hgoto.joined t' c u h
    refine ⟨htimer,hyields,hstill,fun hc => ?_⟩
    have hut : u ≠ t := by
      rintro rfl
      have ht' : t' ≠ u := by
        rintro rfl
        rw [goto_pc_self] at h
        cases h
      rw [goto_pc_other ht'] at h
      have hbefore := (hs.joined t' c u h).2.1
      rw [hpc] at hbefore
      exact hbefore hc
    exact (Function.update_of_ne hut _ _).trans (hrunning hc)

theorem Sound.deschedule (hs : s.Sound) {p : Periodic} {ps : List Periodic} {choice : Choice}
    (hpc : s.pc t = .deschedule (p::ps)) (hp : enabled p = true)
    (ho : s.Orderly enabled ⟨t,choice⟩) :
    ((s.stop (.periodic p)).goto t (.join .shutDown (.periodic p))).Sound := by
  refine hs.halted (by rw [hpc]; trivial) (halts_stop s (.periodic p)) fun c' u' h => ?_
  cases h
  exact ⟨rfl,trivial,ho .shutDown (.periodic p) (by simp [target,hpc,hp]),fun h => h.elim⟩

theorem Sound.step (hs : s.Sound) (m : Move) (ho : s.Orderly enabled m) :
    (s.step enabled m).Sound := by
  obtain ⟨t,choice⟩ := m
  unfold Locking.step
  cases hpc : s.pc t with
  | free =>
    have hout : ∀ c, ¬(s.pc t).Yields c := by simp [hpc,Pc.Yields]
    simp only [hpc]
    split
    · split
      · exact hs.proceed hout (by simp [Pc.Holds])
      · exact hs
    · exact hs.proceed hout (by simp [Pc.Holds])
    · exact hs.proceed hout (by simp [Pc.Holds])
    · exact hs
  | sleep =>
    simp only [hpc]
    split <;> exact hs.point (by simp [Pc.Holds]) (by simp [hpc]) (by simp [hpc])
  | io =>
    simp only [hpc]
    exact hs.point (by simp [Pc.Holds]) (by simp [hpc]) (by simp [hpc])
  | enter c =>
    simp only [hpc]
    exact hs.proceed (by simp [hpc,Pc.Yields]) (by simp [Pc.Holds])
  | wait c =>
    simp only [hpc]
    split
    · next hfree => exact hs.acquire hfree (by simp [hpc])
    · exact hs
  | inside c =>
    simp only [hpc]
    exact hs.body hpc ho
  | join c u =>
    simp only [hpc]
    split
    · exact hs.after hpc
    · exact hs
  | deschedule ps =>
    have hholds : (s.pc t).Holds := by
      rw [hpc]
      trivial
    cases ps with
    | nil =>
      simp only [hpc]
      exact hs.move hholds (by simp)
    | cons p ps =>
      simp only [hpc]
      split
      · next hp => exact hs.deschedule hpc hp ho
      · exact hs.move hholds (by simp)
  | relock =>
    simp only [hpc]
    exact hs
  | unlock timeout =>
    simp only [hpc]
    refine hs.release (by rw [hpc]; trivial) ?_
    cases t <;> cases timeout <;> simp [Tid.afterUnlock,Pc.Holds]
  | verdict =>
    simp only [hpc]
    split
    · exact hs.point (by simp [Pc.Holds]) (by simp [hpc]) (by simp [hpc])
    · exact hs.proceed (by simp [hpc,Pc.Yields]) (by simp [Pc.Holds])
    · exact hs
  | finish =>
    simp only [hpc]
    exact hs.finish hpc
  | ended =>
    simp only [hpc]
    exact hs

open Transitions

/-- A run whose steps are all orderly reaches no join cycle. -/
theorem no_join_cycle (enabled : Periodic → Bool) {ms : List Move}
    (h : Along (Locking.step enabled) (Orderly enabled) (initial enabled) ms) :
    ¬(run (Locking.step enabled) (initial enabled) ms).JoinCycle := by
  have hsound : (run (Locking.step enabled) (initial enabled) ms).Sound :=
    h.invariant (Sound.initial enabled) fun s m ho hs => hs.step m ho
  exact hsound.no_cycle

def go (t : Tid) (n : ℕ) : List Move := List.replicate n ⟨t,.go⟩

def suspecting (w : ℕ) (x : String) : List Move :=
  ⟨.worker w,.call (.suspectNode x)⟩::go (.worker w) 2 ++ [⟨.worker w,.act⟩]

/-- A suspicion is confirmed and restarted, then refuted, all while its thread sleeps. -/
def refutedRun : List Move :=
  suspecting 0 "x" ++ go (.worker 0) 1 ++
  suspecting 1 "x" ++ go (.suspicion 0) 1 ++ go (.worker 1) 2 ++
  ⟨.worker 2,.call (.aliveNode "x")⟩::go (.worker 2) 2 ++ [⟨.worker 2,.act⟩]

theorem no_join_cycle_refuted : (run (Locking.step fun _ => true) (initial fun _ => true)
    refutedRun).pc (.worker 2) = .join (.aliveNode "x") (.suspicion 0) ∧
    ¬(run (Locking.step fun _ => true) (initial fun _ => true) refutedRun).JoinCycle :=
  ⟨by decide +kernel,no_join_cycle _ (by decide +kernel)⟩

/-- The suspicion has run out: its callback declares `x` dead and erases its own timer. -/
def timeoutRun : List Move :=
  suspecting 0 "x" ++ go (.worker 0) 1 ++ go (.suspicion 0) 3 ++
  ⟨.suspicion 0,.act⟩::go (.suspicion 0) 4 ++ [⟨.suspicion 0,.act⟩]

theorem callback_joins_itself : ¬∀ (enabled : Periodic → Bool) (ms : List Move),
    ¬(run (Locking.step enabled) (initial enabled) ms).JoinCycle := by
  intro hall
  refine hall (fun _ => true) timeoutRun ⟨.suspicion 0,.deadNode "x",.suspicion 0,?_,Or.inl rfl⟩
  decide +kernel

/-- `ShutDown` resets the timer of `gossip` while that waits for the lock. -/
def shutDownRun : List Move :=
  ⟨.periodic .gossip,.go⟩::⟨.periodic .gossip,.call .plain⟩::go (.periodic .gossip) 1 ++
  ⟨.worker 0,.call .shutDown⟩::go (.worker 0) 6

example : (run (Locking.step (· = .gossip)) (initial (· = .gossip)) shutDownRun).JoinCycle := by
  refine ⟨.worker 0,.shutDown,.periodic .gossip,by decide +kernel,Or.inr ⟨by decide +kernel,?_⟩⟩
  have h : (run (Locking.step (· = .gossip)) (initial (· = .gossip)) shutDownRun).pc
      (.periodic .gossip) = .wait .plain := by decide +kernel
  rw [h]
  trivial

end Locking

end GossipMemberlist
