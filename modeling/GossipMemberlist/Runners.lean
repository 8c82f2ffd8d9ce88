import GossipMemberlist.Joins

/-!
# Timers outlive their threads

In every run, orderly or not, the thread of a suspicion lives only as long as its
timer is in `nodeTimers`: whoever takes the timer out has joined the thread, and a
thread that takes out its own timer waits for itself.
-/

namespace GossipMemberlist

def Pc.sect : Pc → Option Section
  | .enter c | .wait c | .inside c | .join c _ => some c
  | .deschedule _ => some .shutDown
  | _ => none

/-- The check in a callback has found its episode, and `deadNode` is still to be called. -/
def Pc.Condemns : Pc → Prop
  | .unlock timeout => timeout = true
  | .verdict => True
  | _ => False

namespace Locking

/-- The thread that a section joins belongs to the timer that it is about to erase or restart,
or to one that `ShutDown` resets. -/
def Target (s : Locking) (u : Tid) : Section → Prop
  | .aliveNode x | .deadNode x | .suspectNode x => ∃ i, u = .suspicion i ∧ s.nodeTimers x = some i
  | .shutDown => ∃ p, u = .periodic p
  | .plain | .check => False

theorem target_congr {s s' : Locking} (h : s'.nodeTimers = s.nodeTimers) (u : Tid) (c : Section) :
    s'.Target u c ↔ s.Target u c := by
  cases c <;> simp only [Target,h]

structure Attached (s : Locking) : Prop where
  holder : ∀ t, (s.pc t).Holds → s.nodeMutex = some t
  named : ∀ x i, s.nodeTimers x = some i → s.node i = x ∧ i < s.next
  living : ∀ i, s.pc (.suspicion i) ≠ .ended → s.nodeTimers (s.node i) = some i
  joining : ∀ t c u, s.pc t = .join c u → s.Target u c

variable {enabled : Periodic → Bool} {s s' : Locking} {t : Tid}

theorem Attached.initial (enabled : Periodic → Bool) : (initial enabled).Attached where
  holder := (Sound.initial enabled).holder
  named x i h := by simp [Locking.initial] at h
  living i h := by simp [Locking.initial] at h
  joining t c u h := by
    cases t with
    | periodic p => cases hp : enabled p <;> simp [Locking.initial,hp] at h
    | _ => simp [Locking.initial] at h

theorem Attached.sole (hs : s.Attached) (hm : (s.pc t).Holds) {t' : Tid} (ht : t' ≠ t) :
    ¬(s.pc t').Holds := fun h => by
  have := (hs.holder t' h).symm.trans (hs.holder t hm)
  exact ht (Option.some.inj this)

theorem Attached.gone (hs : s.Attached) {i : ℕ} (h : s.nodeTimers (s.node i) ≠ some i) :
    s.pc (.suspicion i) = .ended := by
  by_contra hne
  exact h (hs.living i hne)

theorem Attached.unique (hs : s.Attached) {i j : ℕ} (hi : s.nodeTimers (s.node i) = some j)
    (hne : s.pc (.suspicion i) ≠ .ended) : i = j :=
  Option.some.inj ((hs.living i hne).symm.trans hi)

theorem Attached.goto (hs : s.Attached) {pc : Pc} (hholds : pc.Holds → s.nodeMutex = some t)
    (hended : pc ≠ .ended → s.pc t ≠ .ended) (hjoin : ∀ c u, pc = .join c u → s.Target u c) :
    (s.goto t pc).Attached where
  holder t' h := by
    by_cases ht : t' = t
    · subst ht
      rw [goto_pc_self] at h
      exact hholds h
    · rw [goto_pc_other ht] at h
      exact hs.holder t' h
  named := hs.named
  living i h := hs.living i (ended_before hended h)
  joining t' c u h := by
    by_cases ht : t' = t
    · subst ht
      rw [goto_pc_self] at h
      exact (target_congr rfl u c).mpr (hjoin c u h)
    · rw [goto_pc_other ht] at h
      exact (target_congr rfl u c).mpr (hs.joining t' c u h)

theorem Attached.move (hs : s.Attached) (hpc : (s.pc t).Holds) {pc : Pc}
    (hnojoin : ∀ c u, pc ≠ .join c u) : (s.goto t pc).Attached :=
  hs.goto (fun _ => hs.holder t hpc) (fun _ => hpc.ne_ended) fun c u h => absurd h (hnojoin c u)

theorem Attached.outside (hs : s.Attached) {pc : Pc} (hpc : ¬pc.Holds)
    (hended : pc ≠ .ended → s.pc t ≠ .ended) : (s.goto t pc).Attached :=
  hs.goto (fun h => absurd h hpc) hended fun c u h => absurd (by rw [h]; trivial) hpc

theorem Attached.point (hs : s.Attached) {pc : Pc} (hpc : ¬pc.Holds) (hended : s.pc t ≠ .ended) :
    (s.point t pc).Attached := by
  unfold Locking.point
  split
  · exact hs.outside (by simp [Pc.Holds]) fun h => absurd rfl h
  · exact hs.outside hpc fun _ => hended

theorem Attached.congr (hs : s.Attached) (hpc : s'.pc = s.pc) (hm : s'.nodeMutex = s.nodeMutex)
    (ht : s'.nodeTimers = s.nodeTimers) (hn : s'.node = s.node) (hx : s'.next = s.next) :
    s'.Attached where
  holder t h := by
    rw [hpc] at h
    rw [hm]
    exact hs.holder t h
  named x i h := by
    rw [ht] at h
    rw [hn,hx]
    exact hs.named x i h
  living i h := by
    rw [hpc] at h
    rw [ht,hn]
    exact hs.living i h
  joining t c u h := by
    rw [hpc] at h
    exact (target_congr ht u c).mpr (hs.joining t c u h)

theorem Attached.stop (hs : s.Attached) (u : Tid) : (s.stop u).Attached := by
  unfold Locking.stop
  split
  · exact hs.congr rfl rfl rfl rfl rfl
  · exact hs

theorem Attached.acquire (hs : s.Attached) (hfree : s.nodeMutex = none) {c : Section}
    (hended : s.pc t ≠ .ended) :
    (Locking.goto t (.inside c) { s with nodeMutex := some t }).Attached := by
  have hout : ∀ t', ¬(s.pc t').Holds := fun t' h => by
    have := hs.holder t' h
    rw [hfree] at this
    cases this
  have hs' : Attached { s with nodeMutex := some t } :=
    ⟨fun t' h => absurd h (hout t'),hs.named,hs.living,fun t' c u h =>
      absurd (show (s.pc t').Holds by rw [show s.pc t' = .join c u from h]; trivial) (hout t')⟩
  exact hs'.goto (fun _ => rfl) (fun _ => hended) fun c u h => by cases h

theorem Attached.release (hs : s.Attached) (hpc : (s.pc t).Holds) {pc : Pc} (hout : ¬pc.Holds) :
    (Locking.goto t pc { s with nodeMutex := none }).Attached where
  holder t' h := by
    by_cases ht : t' = t
    · subst ht
      rw [goto_pc_self] at h
      exact absurd h hout
    · rw [goto_pc_other ht] at h
      exact absurd h (hs.sole hpc ht)
  named := hs.named
  living i h := hs.living i (ended_before (fun _ => hpc.ne_ended) h)
  joining t' c u h := by
    obtain ⟨ht,hjoin⟩ := join_before hout h
    have hjoin : s.pc t' = .join c u := hjoin
    exact absurd (by rw [hjoin]; trivial) (hs.sole hpc ht)

theorem Attached.eraseTimer (hs : s.Attached) (hpc : (s.pc t).Holds) {c : Section} {x : String}
    (hc : c = .aliveNode x ∨ c = .deadNode x) : (s.eraseTimer t c x).Attached := by
  unfold Locking.eraseTimer
  split
  · exact hs.move hpc (by simp)
  · next i hi =>
    have hhalts := halts_stop s (.suspicion i)
    refine (hs.stop _).goto (fun _ => hhalts.nodeMutex.trans (hs.holder t hpc))
      (fun _ => by rw [hhalts.pc]; exact hpc.ne_ended) fun c' u' h => ?_
    cases h
    rcases hc with rfl | rfl <;> exact ⟨i,rfl,(stop_nodeTimers _ s).symm ▸ hi⟩

theorem Attached.confirm (hs : s.Attached) (hpc : (s.pc t).Holds) {x : String} {i : ℕ}
    (hi : s.nodeTimers x = some i) : (s.confirm t (.suspectNode x) i).Attached := by
  unfold Locking.confirm
  split
  · have hhalts := (halts_stop s (.suspicion i)).flag
    have hflag : ((s.stop (.suspicion i)).flag (.suspicion i)).Attached :=
      (hs.stop _).congr rfl rfl rfl rfl rfl
    refine hflag.goto (fun _ => hhalts.nodeMutex.trans (hs.holder t hpc))
      (fun _ => by rw [hhalts.pc]; exact hpc.ne_ended) fun c' u' h => ?_
    cases h
    exact ⟨i,rfl,(congrFun hhalts.nodeTimers x).trans hi⟩
  · exact hs.move hpc (by simp)

theorem Attached.confirmLate (hs : s.Attached) (hpc : (s.pc t).Holds) (i : ℕ) :
    (s.confirmLate t i).Attached := by
  unfold Locking.confirmLate
  split
  · have hhalts := halts_stop s (.suspicion i)
    exact (hs.stop _).move (by rw [hhalts.pc]; exact hpc) (by simp)
  · exact hs.move hpc (by simp)

theorem Attached.newSuspicion (hs : s.Attached) (hpc : (s.pc t).Holds) {x : String}
    (hx : s.nodeTimers x = none) : (s.newSuspicion t x).Attached := by
  have hold (i : ℕ) (h : s.pc (.suspicion i) ≠ .ended) : i < s.next ∧ s.node i ≠ x := by
    have hi := hs.living i h
    refine ⟨(hs.named _ i hi).2,fun he => ?_⟩
    rw [he,hx] at hi
    cases hi
  have hne : t ≠ .suspicion s.next := by
    rintro rfl
    exact absurd (hold s.next hpc.ne_ended).1 (lt_irrefl _)
  let s₁ : Locking := { s with
    nodeTimers := Function.update s.nodeTimers x (some s.next)
    node := Function.update s.node s.next x
    next := s.next + 1
    pc := Function.update s.pc (.suspicion s.next) .sleep }
  have hself : s₁.pc (.suspicion s.next) = .sleep := Function.update_self _ _ _
  have hother {t' : Tid} (h : t' ≠ .suspicion s.next) : s₁.pc t' = s.pc t' :=
    Function.update_of_ne h _ _
  have hs₁ : s₁.Attached := by
    refine ⟨fun t' h => ?_,fun y i h => ?_,fun i h => ?_,fun t' c u h => ?_⟩
    · by_cases ht : t' = .suspicion s.next
      · subst ht
        rw [hself] at h
        cases h
      · rw [hother ht] at h
        exact hs.holder t' h
    · by_cases hy : y = x
      · subst hy
        have h : some s.next = some i := by simpa [s₁] using h
        cases h
        exact ⟨Function.update_self _ _ _,Nat.lt_succ_self _⟩
      · have h : s.nodeTimers y = some i := by simpa [s₁,hy] using h
        obtain ⟨hn,hlt⟩ := hs.named y i h
        exact ⟨(Function.update_of_ne (Nat.ne_of_lt hlt) _ _).trans hn,hlt.trans (Nat.lt_succ_self _)⟩
    · by_cases hi : i = s.next
      · subst hi
        simp [s₁]
      · have hbefore : s.pc (.suspicion i) ≠ .ended := by
          rwa [hother (by simpa using hi)] at h
        simpa [s₁,hi,(hold i hbefore).2] using hs.living i hbefore
    · by_cases ht : t' = .suspicion s.next
      · subst ht
        rw [hself] at h
        cases h
      · rw [hother ht] at h
        have hholds : (s.pc t').Holds := by rw [h]; trivial
        by_cases htt : t' = t
        · have htarget := hs.joining t' c u h
          have hmap {y : String} {i : ℕ} (hy : s.nodeTimers y = some i) :
              s₁.nodeTimers y = some i := by
            have hyx : y ≠ x := fun he => by rw [he,hx] at hy; cases hy
            simpa [s₁,hyx] using hy
          cases c with
          | aliveNode y => exact htarget.imp fun i h => ⟨h.1,hmap h.2⟩
          | deadNode y => exact htarget.imp fun i h => ⟨h.1,hmap h.2⟩
          | suspectNode y => exact htarget.imp fun i h => ⟨h.1,hmap h.2⟩
          | _ => exact htarget
        · exact absurd hholds (hs.sole hpc htt)
  have hmove : (s₁.goto t (.unlock false)).Attached :=
    hs₁.move (by rw [hother hne]; exact hpc) (by simp)
  exact hmove.congr rfl rfl rfl rfl rfl

theorem Attached.body (hs : s.Attached) {c : Section} (choice : Choice) (hpc : s.pc t = .inside c) :
    (s.body t c choice).Attached := by
  have hholds : (s.pc t).Holds := by
    rw [hpc]
    trivial
  unfold Locking.body
  split
  · exact hs.eraseTimer hholds (Or.inl rfl)
  · exact hs.eraseTimer hholds (Or.inr rfl)
  · split
    · next i hi => exact hs.confirm hholds hi
    · next hx => exact hs.newSuspicion hholds hx
  · split
    · exact hs.confirmLate hholds _
    · exact hs.move hholds (by simp)
  · exact hs.move hholds (by simp)
  · split
    · exact hs.move hholds (by simp)
    · have hs' : Attached { s with shutdown := true } := hs.congr rfl rfl rfl rfl rfl
      exact hs'.move hholds (by simp)
  · exact hs.move hholds (by simp)

theorem Attached.erased (hs : s.Attached) {x : String} {u : Tid} (hholds : (s.pc t).Holds)
    (hu : ∃ i, u = .suspicion i ∧ s.nodeTimers x = some i) (hended : s.pc u = .ended) :
    (Locking.goto t (.unlock false)
      { s with nodeTimers := Function.update s.nodeTimers x none }).Attached := by
  obtain ⟨i,rfl,hi⟩ := hu
  have hsub {y : String} {j : ℕ} (h : Function.update s.nodeTimers x none y = some j) :
      s.nodeTimers y = some j := by
    by_cases hy : y = x
    · simp [hy] at h
    · simpa [hy] using h
  refine ⟨fun t' h => ?_,fun y j h => hs.named y j (hsub h),fun j h => ?_,fun t' c u h => ?_⟩
  · by_cases ht : t' = t
    · rw [ht]
      exact hs.holder t hholds
    · rw [goto_pc_other ht] at h
      exact hs.holder t' h
  · have hbefore : s.pc (.suspicion j) ≠ .ended := ended_before (fun _ => hholds.ne_ended) h
    have hj := hs.living j hbefore
    have hne : s.node j ≠ x := fun he => by
      rw [he,hi] at hj
      cases hj
      exact hbefore hended
    exact (Function.update_of_ne hne _ _).trans hj
  · obtain ⟨ht,hjoin⟩ : t' ≠ t ∧ s.pc t' = .join c u := by
      by_cases ht : t' = t
      · subst ht
        rw [goto_pc_self] at h
        cases h
      · rw [goto_pc_other ht] at h
        exact ⟨ht,h⟩
    exact absurd (by rw [hjoin]; trivial) (hs.sole hholds ht)

theorem Attached.restarted (hs : s.Attached) {x : String} {u : Tid} (hholds : (s.pc t).Holds)
    (hne : t ≠ u) (hu : ∃ i, u = .suspicion i ∧ s.nodeTimers x = some i) :
    ((s.spawn u).goto t (.unlock false)).Attached := by
  obtain ⟨i,rfl,hi⟩ := hu
  have hspawn : (s.spawn (.suspicion i)).Attached := by
    refine ⟨fun t' h => ?_,hs.named,fun j h => ?_,fun t' c u h => ?_⟩
    · by_cases ht : t' = .suspicion i
      · subst ht
        simp [spawn,Pc.Holds] at h
      · exact hs.holder t' (by simpa [spawn,ht] using h)
    · by_cases hj : j = i
      · rw [hj]
        exact (congrArg s.nodeTimers (hs.named x i hi).1).trans hi
      · exact hs.living j (by simpa [spawn,hj] using h)
    · by_cases ht : t' = .suspicion i
      · subst ht
        simp [spawn] at h
      · have hjoin : s.pc t' = .join c u := by simpa [spawn,ht] using h
        exact (target_congr rfl u c).mpr (hs.joining t' c u hjoin)
  refine hspawn.move ?_ (by simp)
  simpa [spawn,hne] using hholds

theorem Attached.after (hs : s.Attached) {c : Section} {u : Tid} (hpc : s.pc t = .join c u)
    (hended : s.pc u = .ended) : (s.joined t c u).Attached := by
  have hholds : (s.pc t).Holds := by
    rw [hpc]
    trivial
  have htarget := hs.joining t c u hpc
  have hne : t ≠ u := by
    rintro rfl
    rw [hpc] at hended
    cases hended
  unfold Locking.joined
  split
  · exact hs.erased hholds htarget hended
  · exact hs.erased hholds htarget hended
  · exact hs.restarted hholds hne htarget
  · exact hs.move hholds (by simp)
  · exact hs.move hholds (by simp)

theorem Attached.step (hs : s.Attached) (m : Move) : (s.step enabled m).Attached := by
  obtain ⟨t,choice⟩ := m
  unfold Locking.step
  cases hpc : s.pc t with
  | free =>
    have hended : s.pc t ≠ .ended := by simp [hpc]
    simp only [hpc]
    split
    · split
      · exact hs.outside (by simp [Pc.Holds]) fun _ => hended
      · exact hs
    · exact hs.outside (by simp [Pc.Holds]) fun _ => hended
    · exact hs.outside (by simp [Pc.Holds]) fun _ => by rwa [hpc] at hended ⊢
    · exact hs
  | sleep =>
    simp only [hpc]
    split <;> exact hs.point (by simp [Pc.Holds]) (by simp [hpc])
  | io =>
    simp only [hpc]
    exact hs.point (by simp [Pc.Holds]) (by simp [hpc])
  | enter c =>
    simp only [hpc]
    exact hs.outside (by simp [Pc.Holds]) fun _ => by simp [hpc]
  | wait c =>
    simp only [hpc]
    split
    · next hfree => exact hs.acquire hfree (by simp [hpc])
    · exact hs
  | inside c =>
    simp only [hpc]
    exact hs.body choice hpc
  | join c u =>
    simp only [hpc]
    split
    · next hended => exact hs.after hpc hended
    · exact hs
  | deschedule ps =>
    have hholds : (s.pc t).Holds := by
      rw [hpc]
      trivial
    cases ps with
    | nil =>
      simp only [hpc]
      exact hs.move hholds (by simp)
    | cons p ps =>
      simp only [hpc]
      split
      · have hhalts := halts_stop s (.periodic p)
        refine (hs.stop _).goto (fun _ => hhalts.nodeMutex.trans (hs.holder t hholds))
          (fun _ => by rw [hhalts.pc]; exact hholds.ne_ended) fun c u h => ?_
        cases h
        exact ⟨p,rfl⟩
      · exact hs.move hholds (by simp)
  | relock =>
    simp only [hpc]
    exact hs
  | unlock timeout =>
    simp only [hpc]
    refine hs.release (by rw [hpc]; trivial) ?_
    cases t <;> cases timeout <;> simp [Tid.afterUnlock,Pc.Holds]
  | verdict =>
    simp only [hpc]
    split
    · exact hs.point (by simp [Pc.Holds]) (by simp [hpc])
    · exact hs.outside (by simp [Pc.Holds]) fun _ => by simp [hpc]
    · exact hs
  | finish =>
    simp only [hpc]
    have hs' : Attached { s with running := Function.update s.running t false } :=
      hs.congr rfl rfl rfl rfl rfl
    exact hs'.outside (by simp [Pc.Holds]) fun h => absurd rfl h
  | ended =>
    simp only [hpc]
    exact hs

open Transitions

/-- The step makes no timer of an old thread. -/
def Keeps (s s' : Locking) : Prop :=
  s.next ≤ s'.next ∧ ∀ i < s.next, s'.node i = s.node i ∧
    ∀ y, s'.nodeTimers y = some i → s.nodeTimers y = some i

theorem Keeps.refl (s : Locking) : s.Keeps s := ⟨le_refl _,fun _ _ => ⟨rfl,fun _ h => h⟩⟩

theorem Keeps.trans {s₁ s₂ s₃ : Locking} (h : s₁.Keeps s₂) (h' : s₂.Keeps s₃) : s₁.Keeps s₃ := by
  refine ⟨h.1.trans h'.1,fun i hi => ?_⟩
  obtain ⟨hnode,htimer⟩ := h.2 i hi
  obtain ⟨hnode',htimer'⟩ := h'.2 i (hi.trans_le h.1)
  exact ⟨hnode'.trans hnode,fun y hy => htimer y (htimer' y hy)⟩

theorem stop_keeps (s : Locking) (u : Tid) : s.Keeps (s.stop u) := by
  unfold stop
  split
  · exact Keeps.refl s
  · exact Keeps.refl s

theorem erase_keeps (s : Locking) (x : String) :
    s.Keeps { s with nodeTimers := Function.update s.nodeTimers x none } := by
  refine ⟨le_refl _,fun i _ => ⟨rfl,fun y h => ?_⟩⟩
  by_cases hy : y = x
  · simp [hy] at h
  · simpa [hy] using h

theorem newSuspicion_keeps (s : Locking) (t : Tid) (x : String) : s.Keeps (s.newSuspicion t x) := by
  refine ⟨Nat.le_succ _,fun i hi => ⟨Function.update_of_ne (Nat.ne_of_lt hi) _ _,fun y h => ?_⟩⟩
  have h : Function.update s.nodeTimers x (some s.next) y = some i := h
  by_cases hy : y = x
  · rw [hy,Function.update_self] at h
    exact absurd (Option.some.inj h) (Nat.ne_of_gt hi)
  · rwa [Function.update_of_ne hy] at h

theorem body_keeps (s : Locking) (t : Tid) (c : Section) (choice : Choice) :
    s.Keeps (s.body t c choice) := by
  unfold Locking.body
  split
  · unfold Locking.eraseTimer
    split
    · exact Keeps.refl s
    · exact stop_keeps s _
  · unfold Locking.eraseTimer
    split
    · exact Keeps.refl s
    · exact stop_keeps s _
  · split
    · unfold Locking.confirm
      split
      · exact stop_keeps s _
      · exact Keeps.refl s
    · exact newSuspicion_keeps s t _
  · split
    · unfold Locking.confirmLate
      split
      · exact stop_keeps s _
      · exact Keeps.refl s
    · exact Keeps.refl s
  · exact Keeps.refl s
  · split <;> exact Keeps.refl s
  · exact Keeps.refl s

theorem joined_keeps (s : Locking) (t : Tid) (c : Section) (u : Tid) :
    s.Keeps (s.joined t c u) := by
  unfold Locking.joined
  split
  · exact erase_keeps s _
  · exact erase_keeps s _
  all_goals exact Keeps.refl s

theorem step_keeps (enabled : Periodic → Bool) (s : Locking) (m : Move) :
    s.Keeps (s.step enabled m) := by
  obtain ⟨t,choice⟩ := m
  unfold Locking.step
  cases hpc : s.pc t with
  | inside c =>
    simp only [hpc]
    exact body_keeps s t c choice
  | join c u =>
    simp only [hpc]
    split
    · exact joined_keeps s t c u
    · exact Keeps.refl s
  | deschedule ps =>
    cases ps with
    | nil =>
      simp only [hpc]
      exact Keeps.refl s
    | cons p ps =>
      simp only [hpc]
      split
      · exact stop_keeps s _
      · exact Keeps.refl s
  | _ =>
    simp only [hpc]
    repeat' split
    all_goals exact Keeps.refl s

theorem run_keeps (enabled : Periodic → Bool) (s : Locking) (ms : List Move) :
    s.Keeps (run (Locking.step enabled) s ms) :=
  run_invariant (P := s.Keeps) (Keeps.refl s) (fun _ m h => h.trans (step_keeps enabled _ m)) ms

/-- A suspicion whose timer is no longer that of its name has no thread, and never again. -/
theorem Attached.gone_forever (hs : s.Attached) {i : ℕ} (hi : i < s.next)
    (h : s.nodeTimers (s.node i) ≠ some i) (ms : List Move) :
    (run (Locking.step enabled) s ms).pc (.suspicion i) = .ended := by
  have hrun : (run (Locking.step enabled) s ms).Attached :=
    run_invariant hs (fun _ m hs => hs.step m) ms
  obtain ⟨hnode,htimer⟩ := (run_keeps enabled s ms).2 i hi
  refine hrun.gone fun h' => h (htimer _ ?_)
  rwa [hnode] at h'

theorem spawn_other {t t' : Tid} (ht : t ≠ t') (s : Locking) (u : Tid) (pc : Pc) :
    ((s.spawn u).goto t' pc).pc t = s.pc t ∨ ((s.spawn u).goto t' pc).pc t = .sleep := by
  rw [goto_pc_other ht]
  by_cases hu : t = u
  · exact Or.inr (hu ▸ Function.update_self _ _ _)
  · exact Or.inl (Function.update_of_ne hu _ _)

theorem body_other {t t' : Tid} (s : Locking) (ht : t ≠ t') (c : Section) (choice : Choice) :
    (s.body t' c choice).pc t = s.pc t ∨ (s.body t' c choice).pc t = .sleep := by
  have hgoto (s : Locking) (pc : Pc) : (s.goto t' pc).pc t = s.pc t := goto_pc_other ht pc
  have hstop (u : Tid) : (s.stop u).pc t = s.pc t := congrFun (halts_stop s u).pc t
  unfold Locking.body
  split
  · unfold Locking.eraseTimer
    split
    · exact Or.inl (hgoto _ _)
    · exact Or.inl ((hgoto _ _).trans (hstop _))
  · unfold Locking.eraseTimer
    split
    · exact Or.inl (hgoto _ _)
    · exact Or.inl ((hgoto _ _).trans (hstop _))
  · split
    · unfold Locking.confirm
      split
      · exact Or.inl ((hgoto _ _).trans (hstop _))
      · exact Or.inl (hgoto _ _)
    · exact spawn_other ht _ _ _
  · split
    · unfold Locking.confirmLate
      split
      · exact Or.inl ((hgoto _ _).trans (hstop _))
      · exact Or.inl (hgoto _ _)
    · exact Or.inl (hgoto _ _)
  · exact Or.inl (hgoto _ _)
  · split <;> exact Or.inl (hgoto _ _)
  · exact Or.inl (hgoto _ _)

theorem joined_other {t t' : Tid} (s : Locking) (ht : t ≠ t') (c : Section) (u : Tid) :
    (s.joined t' c u).pc t = s.pc t ∨ (s.joined t' c u).pc t = .sleep := by
  unfold Locking.joined
  split
  · exact Or.inl (goto_pc_other ht _)
  · exact Or.inl (goto_pc_other ht _)
  · exact spawn_other ht _ _ _
  · exact Or.inl (goto_pc_other ht _)
  · exact Or.inl (goto_pc_other ht _)

theorem step_still (enabled : Periodic → Bool) {s : Locking} {m : Move}
    (hinside : ∀ c, s.pc m.t ≠ .inside c) (hjoin : ∀ c u, s.pc m.t ≠ .join c u) {t : Tid}
    (ht : t ≠ m.t) : (s.step enabled m).pc t = s.pc t := by
  obtain ⟨t',choice⟩ := m
  have hgoto (s : Locking) (pc : Pc) : (s.goto t' pc).pc t = s.pc t := goto_pc_other ht pc
  unfold Locking.step
  cases hpc : s.pc t' with
  | inside c => exact absurd hpc (hinside c)
  | join c u => exact absurd hpc (hjoin c u)
  | deschedule ps =>
    cases ps with
    | nil =>
      simp only [hpc]
      exact hgoto _ _
    | cons p ps =>
      simp only [hpc]
      split
      · exact (hgoto _ _).trans (congrFun (halts_stop s _).pc t)
      · exact hgoto _ _
  | _ =>
    simp only [hpc]
    repeat' split
    all_goals first | exact hgoto _ _ | rfl

theorem step_other (enabled : Periodic → Bool) (s : Locking) (m : Move) {t : Tid} (ht : t ≠ m.t) :
    (s.step enabled m).pc t = s.pc t ∨ (s.step enabled m).pc t = .sleep := by
  by_cases hinside : ∃ c, s.pc m.t = .inside c
  swap
  · by_cases hjoin : ∃ c u, s.pc m.t = .join c u
    swap
    · exact Or.inl (step_still enabled (not_exists.mp hinside)
        (fun c => not_exists.mp (not_exists.mp hjoin c)) ht)
    obtain ⟨c,u,hpc⟩ := hjoin
    simp only [Locking.step,hpc]
    split
    · exact joined_other s ht c u
    · exact Or.inl rfl
  obtain ⟨c,hpc⟩ := hinside
  simp only [Locking.step,hpc]
  exact body_other s ht c m.choice

/-- Where a step can take the thread that makes it. -/
inductive Course (s : Locking) (t : Tid) (choice : Choice) : Pc → Prop
  | kept : Course s t choice (s.pc t)
  | out {pc} (hsect : pc.sect = none) (hno : ¬pc.Condemns) : Course s t choice pc
  | called {c} (hfree : s.pc t = .free) (hcall : choice = .call c) (hcalls : t.calls c = true) :
    Course s t choice (.enter c)
  | woken {i} (ht : t = .suspicion i) (hsleep : s.pc t = .sleep) : Course s t choice (.enter .check)
  | within {c pc} (hc : (s.pc t).sect = some c) (hpc : pc.sect = some c)
    (hno : ∀ u, pc ≠ .join c u) : Course s t choice pc
  | joins {c u} (hinside : s.pc t = .inside c) : Course s t choice (.join c u)
  | resets {p} (hc : (s.pc t).sect = some .shutDown) :
    Course s t choice (.join .shutDown (.periodic p))
  | condemns (hinside : s.pc t = .inside .check) (hact : choice = .act) :
    Course s t choice (.unlock true)
  | verdict (hunlock : s.pc t = .unlock true) : Course s t choice .verdict
  | convicts {i} (ht : t = .suspicion i) (hverdict : s.pc t = .verdict) :
    Course s t choice (.enter (.deadNode (s.node i)))

theorem Course.goto {choice : Choice} {pc : Pc} (h : s.Course t choice pc) (s' : Locking) :
    s.Course t choice ((s'.goto t pc).pc t) := by
  rwa [goto_pc_self]

theorem Course.point {choice : Choice} {pc : Pc} (h : s.Course t choice pc) :
    s.Course t choice ((s.point t pc).pc t) := by
  unfold Locking.point
  split
  · exact .goto (.out rfl (by simp [Pc.Condemns])) s
  · exact h.goto s

theorem Course.unlock {choice : Choice} (s' : Locking) :
    s.Course t choice ((s'.goto t (.unlock false)).pc t) :=
  .goto (.out rfl (by simp [Pc.Condemns])) s'

theorem body_course {c : Section} (hpc : s.pc t = .inside c) (choice : Choice) :
    s.Course t choice ((s.body t c choice).pc t) := by
  have hjoin (s' : Locking) (u : Tid) : s.Course t choice ((s'.goto t (.join c u)).pc t) :=
    .goto (.joins hpc) s'
  have herase (x : String) : s.Course t choice ((s.eraseTimer t c x).pc t) := by
    unfold Locking.eraseTimer
    split
    · exact .unlock _
    · exact hjoin _ _
  unfold Locking.body
  split
  · exact herase _
  · exact herase _
  · split
    · unfold Locking.confirm
      split
      · exact hjoin _ _
      · exact .unlock _
    · exact .unlock _
  · split
    · unfold Locking.confirmLate
      split
      · exact .goto (.out rfl (by simp [Pc.Condemns])) _
      · exact .unlock _
    · exact .unlock _
  · refine .goto ?_ _
    by_cases hact : choice = .act
    · rw [decide_eq_true hact]
      exact .condemns hpc hact
    · rw [decide_eq_false hact]
      exact .out rfl (by simp [Pc.Condemns])
  · split
    · exact .unlock _
    · exact .goto (.within (by rw [hpc]; rfl) rfl (by simp)) _
  · exact .unlock _

theorem Attached.joined_course (hs : s.Attached) {c : Section} {u : Tid} (hpc : s.pc t = .join c u)
    (choice : Choice) : s.Course t choice ((s.joined t c u).pc t) := by
  have htarget := hs.joining t c u hpc
  unfold Locking.joined
  split
  · exact .unlock _
  · exact .unlock _
  · exact .unlock _
  · -- only `ShutDown` joins the thread of a periodic timer
    next p halive hdead hsuspect =>
    refine .goto (.within (c := .shutDown) ?_ rfl (by simp)) _
    cases c with
    | shutDown => rw [hpc]; rfl
    | plain | check => cases htarget
    | aliveNode x => exact absurd rfl (halive x)
    | deadNode x => exact absurd rfl (hdead x)
    | suspectNode x => exact absurd rfl (hsuspect x)
  · exact .unlock _

/-- Whatever a step does to the place of its thread is one of the courses. -/
theorem Attached.step_course (hs : s.Attached) (choice : Choice) :
    s.Course t choice ((s.step enabled ⟨t,choice⟩).pc t) := by
  have hidle {pc : Pc} (hsect : pc.sect = none) (hno : ¬pc.Condemns) (s' : Locking) :
      s.Course t choice ((s'.goto t pc).pc t) := .goto (.out hsect hno) s'
  unfold Locking.step
  cases hpc : s.pc t with
  | free =>
    simp only [hpc]
    split
    · split
      · next hcalls => exact .goto (.called hpc rfl hcalls) s
      · exact .kept
    · exact hidle rfl (by simp [Pc.Condemns]) s
    · exact hidle rfl (by simp [Pc.Condemns]) s
    · exact .kept
  | sleep =>
    simp only [hpc]
    split
    · exact (Course.woken rfl hpc).point
    · exact (Course.out rfl (by simp [Pc.Condemns])).point
  | io =>
    simp only [hpc]
    exact (Course.out rfl (by simp [Pc.Condemns])).point
  | enter c =>
    simp only [hpc]
    exact .goto (.within (by rw [hpc]; rfl) rfl (by simp)) s
  | wait c =>
    simp only [hpc]
    split
    · exact .goto (.within (by rw [hpc]; rfl) rfl (by simp)) _
    · exact .kept
  | inside c =>
    simp only [hpc]
    exact body_course hpc choice
  | join c u =>
    simp only [hpc]
    split
    · exact hs.joined_course hpc choice
    · exact .kept
  | deschedule ps =>
    have hsect : (s.pc t).sect = some .shutDown := by
      rw [hpc]
      rfl
    cases ps with
    | nil =>
      simp only [hpc]
      exact .unlock s
    | cons p ps =>
      simp only [hpc]
      split
      · exact .goto (.resets hsect) _
      · exact .goto (.within hsect rfl (by simp)) s
  | relock =>
    simp only [hpc]
    exact .out rfl (by simp [Pc.Condemns])
  | unlock timeout =>
    simp only [hpc]
    refine .goto ?_ _
    cases t with
    | suspicion i =>
      cases timeout with
      | true => exact .verdict hpc
      | false => exact .out rfl (by simp [Pc.Condemns,Tid.afterUnlock])
    | _ => exact .out rfl (by simp [Pc.Condemns,Tid.afterUnlock])
  | verdict =>
    simp only [hpc]
    split
    · rw [← hpc]
      exact Course.kept.point
    · exact .goto (.convicts rfl hpc) s
    · exact .kept
  | finish =>
    simp only [hpc]
    exact hidle rfl (by simp [Pc.Condemns]) _
  | ended =>
    simp only [hpc]
    exact .out rfl (by simp [Pc.Condemns])

theorem Attached.step_sect (hs : s.Attached) {choice : Choice} {c : Section}
    (h : ((s.step enabled ⟨t,choice⟩).pc t).sect = some c) :
    (s.pc t).sect = some c ∨ (s.pc t = .free ∧ choice = .call c ∧ t.calls c = true) ∨
      ∃ i, t = .suspicion i ∧ (s.pc t = .sleep ∧ c = .check ∨
        s.pc t = .verdict ∧ c = .deadNode (s.node i)) := by
  have hcourse : s.Course t choice ((s.step enabled ⟨t,choice⟩).pc t) := hs.step_course choice
  generalize (s.step enabled ⟨t,choice⟩).pc t = pc at h hcourse
  cases hcourse with
  | kept => exact Or.inl h
  | out hsect => cases hsect.symm.trans h
  | called hfree hcall hcalls =>
    cases h
    exact Or.inr (Or.inl ⟨hfree,hcall,hcalls⟩)
  | woken ht hsleep =>
    cases h
    exact Or.inr (Or.inr ⟨_,ht,Or.inl ⟨hsleep,rfl⟩⟩)
  | within hc hpc => exact Or.inl (hc.trans (hpc.symm.trans h))
  | joins hinside =>
    cases h
    exact Or.inl (by rw [hinside]; rfl)
  | resets hc =>
    cases h
    exact Or.inl hc
  | convicts ht hverdict =>
    cases h
    exact Or.inr (Or.inr ⟨_,ht,Or.inr ⟨hverdict,rfl⟩⟩)
  | condemns => cases h
  | verdict => cases h

/-- A thread is on its way to `deadNode` since a check that has found its episode. -/
theorem Attached.step_condemns (hs : s.Attached) {choice : Choice}
    (h : ((s.step enabled ⟨t,choice⟩).pc t).Condemns) :
    (s.pc t).Condemns ∨ s.pc t = .inside .check ∧ choice = .act := by
  have hcourse : s.Course t choice ((s.step enabled ⟨t,choice⟩).pc t) := hs.step_course choice
  generalize (s.step enabled ⟨t,choice⟩).pc t = pc at h hcourse
  cases hcourse with
  | kept => exact Or.inl h
  | out _ hno => exact absurd h hno
  | condemns hinside hact => exact Or.inr ⟨hinside,hact⟩
  | verdict hunlock => exact Or.inl (by rw [hunlock]; rfl)
  | within hc hpc => cases pc <;> cases hpc <;> cases h
  | _ => cases h

theorem Attached.before_join (hs : s.Attached) {choice : Choice} {c : Section} {u : Tid}
    (hc : c ≠ .shutDown) (h : (s.step enabled ⟨t,choice⟩).pc t = .join c u) :
    s.pc t = .inside c ∨ s.pc t = .join c u := by
  have hcourse : s.Course t choice ((s.step enabled ⟨t,choice⟩).pc t) := hs.step_course choice
  generalize (s.step enabled ⟨t,choice⟩).pc t = pc at h hcourse
  cases hcourse with
  | kept => exact Or.inr h
  | out hsect => cases h; cases hsect
  | within _ hsect hno =>
    cases h
    cases hsect
    exact absurd rfl (hno u)
  | joins hinside =>
    cases h
    exact Or.inl hinside
  | resets =>
    cases h
    exact absurd rfl hc
  | _ => cases h

end Locking

end GossipMemberlist
