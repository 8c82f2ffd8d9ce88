import GossipMemberlist.AntiEntropy
import GossipMemberlist.Flags
import GossipMemberlist.Hangs

/-!
# A merge among the threads

`mergeRemoteState` calls a handler for each entry, and each call may have to wait for
a thread to end: one that the erased timer of its node has, or that a confirmation
restarts. The merge gets through exactly when none of them is past its last
cancellation point, and no confirmation comes too late.
-/

namespace GossipMemberlist

namespace Locking

variable {enabled : Periodic → Bool} {s s' : Locking} {x : String} {i j n : ℕ}

/-- The thread of a timer that is stopped now ends in its next step; `met` says whether a thread
between its check and `deadNode` still meets a cancellation point. -/
def Ends (met : Tid → Bool) (u : Tid) (s : Locking) : Prop :=
  match s.pc u with
  | .finish | .ended => True
  | .sleep | .io => s.running u = true ∨ s.cancelled u = true
  | .verdict => met u = true ∧ (s.running u = true ∨ s.cancelled u = true)
  | _ => False

/-- Nothing has happened to the timers of other names and their threads. -/
def SameElsewhere (x : String) (s s' : Locking) : Prop :=
  ∀ y ≠ x, s'.nodeTimers y = s.nodeTimers y ∧ ∀ i, s.nodeTimers y = some i →
    s'.pc (.suspicion i) = s.pc (.suspicion i) ∧
    s'.running (.suspicion i) = s.running (.suspicion i) ∧
    s'.cancelled (.suspicion i) = s.cancelled (.suspicion i)

theorem SameElsewhere.refl (x : String) (s : Locking) : s.SameElsewhere x s :=
  fun _ _ => ⟨rfl,fun _ _ => ⟨rfl,rfl,rfl⟩⟩

theorem SameElsewhere.trans {s₁ s₂ s₃ : Locking} (h : s₁.SameElsewhere x s₂)
    (h' : s₂.SameElsewhere x s₃) : s₁.SameElsewhere x s₃ := by
  intro y hy
  obtain ⟨ht,hi⟩ := h y hy
  obtain ⟨ht',hi'⟩ := h' y hy
  refine ⟨ht'.trans ht,fun i hyi => ?_⟩
  obtain ⟨h₁,h₂,h₃⟩ := hi i hyi
  obtain ⟨h₁',h₂',h₃'⟩ := hi' i (ht.trans hyi)
  exact ⟨h₁'.trans h₁,h₂'.trans h₂,h₃'.trans h₃⟩

theorem goto_elsewhere (n : ℕ) (pc : Pc) (x : String) (s : Locking) :
    s.SameElsewhere x (s.goto (.worker n) pc) :=
  fun _ _ => ⟨rfl,fun _ _ => ⟨goto_pc_other (by simp) pc,rfl,rfl⟩⟩

theorem Attached.apart (hs : s.Attached) {y : String} (hi : s.nodeTimers x = some i)
    (hj : s.nodeTimers y = some j) (hy : y ≠ x) : Tid.suspicion j ≠ .suspicion i := by
  intro h
  refine hy ?_
  rw [← (hs.named y j hj).1,← (hs.named x i hi).1,Tid.suspicion.inj h]

theorem stop_elsewhere (hs : s.Attached) (hi : s.nodeTimers x = some i) :
    s.SameElsewhere x (s.stop (.suspicion i)) := by
  intro y hy
  refine ⟨congrFun (stop_nodeTimers _ s) y,fun j hj => ?_⟩
  have hne := hs.apart hi hj hy
  have h := halts_stop s (.suspicion i)
  exact ⟨congrFun h.pc _,h.running _ hne,h.cancelled _ hne⟩

theorem flag_elsewhere (hs : s.Attached) (hi : s.nodeTimers x = some i) :
    s.SameElsewhere x (s.flag (.suspicion i)) :=
  fun _ hy => ⟨rfl,fun _ hj => ⟨rfl,Function.update_of_ne (hs.apart hi hj hy) _ _,rfl⟩⟩

theorem spawn_elsewhere (hs : s.Attached) (hi : s.nodeTimers x = some i) :
    s.SameElsewhere x (s.spawn (.suspicion i)) :=
  fun _ hy => ⟨rfl,fun _ hj => ⟨Function.update_of_ne (hs.apart hi hj hy) _ _,rfl,
    Function.update_of_ne (hs.apart hi hj hy) _ _⟩⟩

theorem newSuspicion_elsewhere (hs : s.Attached) (n : ℕ) (x : String) :
    s.SameElsewhere x (s.newSuspicion (.worker n) x) := by
  intro y hy
  refine ⟨Function.update_of_ne hy _ _,fun j hj => ?_⟩
  have hne : Tid.suspicion j ≠ .suspicion s.next := by
    intro h
    cases h
    exact absurd (hs.named y _ hj).2 (lt_irrefl _)
  refine ⟨?_,?_,?_⟩
  · simp [newSuspicion,goto,spawn,flag,hne]
  · simp [newSuspicion,goto,spawn,flag,hne]
  · simp [newSuspicion,goto,spawn,flag,hne]

theorem body_elsewhere (hs : s.Attached) {c : Section} {choice : Choice}
    (hc : c.Erases x ∨ c = .suspectNode x) :
    s.SameElsewhere x (s.body (.worker n) c choice) := by
  have hunlock : s.SameElsewhere x (s.goto (.worker n) (.unlock false)) := goto_elsewhere _ _ _ _
  have herase : s.SameElsewhere x (s.eraseTimer (.worker n) c x) := by
    unfold eraseTimer
    split
    · exact hunlock
    · next i hi => exact (stop_elsewhere hs hi).trans (goto_elsewhere _ _ _ _)
  rcases hc with (rfl | rfl) | rfl
  · cases choice <;> first | exact herase | exact hunlock
  · cases choice <;> first | exact herase | exact hunlock
  · cases choice with
    | act =>
      simp only [body]
      split
      · next i hi =>
        unfold confirm
        split
        · have hstop := stop_elsewhere hs hi
          have hi' : (s.stop (.suspicion i)).nodeTimers x = some i := by rwa [stop_nodeTimers]
          exact (hstop.trans (flag_elsewhere (hs.stop _) hi')).trans (goto_elsewhere _ _ _ _)
        · exact hunlock
      · exact newSuspicion_elsewhere hs n x
    | late =>
      simp only [body]
      split
      · next i hi =>
        unfold confirmLate
        split
        · exact (stop_elsewhere hs hi).trans (goto_elsewhere _ _ _ _)
        · exact hunlock
      · exact hunlock
    | _ => exact hunlock

theorem joined_elsewhere (hs : s.Attached) {c : Section} (hc : c.Erases x ∨ c = .suspectNode x)
    (hi : s.nodeTimers x = some i) :
    s.SameElsewhere x (s.joined (.worker n) c (.suspicion i)) := by
  have herase : s.SameElsewhere x (goto (.worker n) (.unlock false)
      { s with nodeTimers := Function.update s.nodeTimers x none }) :=
    fun y hy => ⟨Function.update_of_ne hy _ _,fun _ _ => ⟨goto_pc_other (by simp) _,rfl,rfl⟩⟩
  rcases hc with (rfl | rfl) | rfl
  · exact herase
  · exact herase
  · exact (spawn_elsewhere hs hi).trans (goto_elsewhere _ _ _ _)

/-- The thread of the timer of `x`, while somebody else has the lock. -/
theorem callback_elsewhere (hs : s.Attached) (hi : s.nodeTimers x = some i)
    (hout : ¬(s.pc (.suspicion i)).Holds) (hm : s.nodeMutex ≠ none) (choice : Choice) :
    s.SameElsewhere x (s.step enabled ⟨.suspicion i,choice⟩) ∧
      (s.step enabled ⟨.suspicion i,choice⟩).nodeMutex = s.nodeMutex ∧
      (s.step enabled ⟨.suspicion i,choice⟩).nodeTimers = s.nodeTimers := by
  have hgoto (pc : Pc) : s.SameElsewhere x (s.goto (.suspicion i) pc) := fun _ hy =>
    ⟨rfl,fun _ hj => ⟨goto_pc_other (hs.apart hi hj hy) pc,rfl,rfl⟩⟩
  have hsame (pc : Pc) : s.SameElsewhere x (s.goto (.suspicion i) pc) ∧
      (s.goto (.suspicion i) pc).nodeMutex = s.nodeMutex ∧
      (s.goto (.suspicion i) pc).nodeTimers = s.nodeTimers := ⟨hgoto pc,rfl,rfl⟩
  have hrefl : s.SameElsewhere x s ∧ s.nodeMutex = s.nodeMutex ∧ s.nodeTimers = s.nodeTimers :=
    ⟨.refl x s,rfl,rfl⟩
  unfold step
  cases hpc : s.pc (.suspicion i) with
  | finish =>
    simp only [hpc]
    refine ⟨fun y hy => ⟨rfl,fun j hj => ?_⟩,rfl,rfl⟩
    have hne := hs.apart hi hj hy
    exact ⟨goto_pc_other hne _,Function.update_of_ne hne _ _,rfl⟩
  | wait c =>
    simp only [hpc,if_neg hm]
    exact ⟨.refl x s,trivial,trivial⟩
  | sleep =>
    simp only [hpc]
    exact hsame _
  | io =>
    simp only [hpc]
    exact hsame _
  | enter c =>
    simp only [hpc]
    exact hsame _
  | free =>
    simp only [hpc]
    split
    · split
      · exact hsame _
      · exact hrefl
    · exact hsame _
    · exact hsame _
    · exact hrefl
  | verdict =>
    simp only [hpc]
    split
    · exact hsame _
    · exact hsame _
    · exact hrefl
  | ended =>
    simp only [hpc]
    exact ⟨.refl x s,trivial,trivial⟩
  | _ =>
    rw [hpc] at hout
    exact absurd trivial hout

theorem stop_self (u : Tid) (s : Locking) : (s.stop u).running u = false ∧
    ((s.stop u).cancelled u = true ↔ s.running u = true ∨ s.cancelled u = true) := by
  unfold stop
  cases hr : s.running u <;> simp [hr]

/-- Stopping a timer and joining its thread, as the destructor and a restart do. -/
def Joins (s s' : Locking) (t : Tid) (c : Section) (u : Tid) : Prop :=
  s' = (s.stop u).goto t (.join c u) ∨
    s.running u = true ∧ s' = ((s.stop u).flag u).goto t (.join c u)

theorem Joins.frame {t u : Tid} {c : Section} (h : s.Joins s' t c u) (hne : u ≠ t) :
    s'.pc t = .join c u ∧ s'.pc u = s.pc u ∧ s'.nodeMutex = s.nodeMutex ∧
      s'.nodeTimers = s.nodeTimers ∧ (s'.running u = true → s'.cancelled u = true) ∧
      (s'.cancelled u = true ↔ s.running u = true ∨ s.cancelled u = true) := by
  obtain ⟨hrun,hcancelled⟩ := stop_self u s
  have hhalts := halts_stop s u
  rcases h with rfl | ⟨hr,rfl⟩
  · refine ⟨goto_pc_self _,(goto_pc_other hne _).trans (congrFun hhalts.pc u),hhalts.nodeMutex,
      hhalts.nodeTimers,fun h => ?_,hcancelled⟩
    cases hrun.symm.trans h
  · exact ⟨goto_pc_self _,(goto_pc_other hne _).trans (congrFun hhalts.pc u),hhalts.nodeMutex,
      hhalts.nodeTimers,fun _ => hcancelled.mpr (Or.inl hr),hcancelled⟩

theorem Joins.ends {t u : Tid} {c : Section} (h : s.Joins s' t c u) (hne : u ≠ t)
    (met : Tid → Bool) : s'.Ends met u ↔ s.Ends met u := by
  obtain ⟨-,hpc,-,-,hrun,hcancelled⟩ := h.frame hne
  have hiff : s'.running u = true ∨ s'.cancelled u = true ↔
      s.running u = true ∨ s.cancelled u = true :=
    (or_iff_right_of_imp hrun).trans hcancelled
  unfold Ends
  rw [hpc,hiff]

/-- One step is enough for a thread that is going to end, and none for another. -/
theorem callback_ends (met : Tid → Bool) (hout : ¬(s.pc (.suspicion i)).Holds)
    (hm : s.nodeMutex ≠ none)
    (hcancelled : s.running (.suspicion i) = true → s.cancelled (.suspicion i) = true) :
    (s.step enabled ⟨.suspicion i,if met (.suspicion i) then .io else .go⟩).pc (.suspicion i) =
      .ended ↔ s.Ends met (.suspicion i) := by
  have hstop : s.running (.suspicion i) = true ∨ s.cancelled (.suspicion i) = true ↔
      s.cancelled (.suspicion i) = true := or_iff_right_of_imp hcancelled
  unfold step Ends
  cases hpc : s.pc (.suspicion i) with
  | wait c => simp [hpc,if_neg hm]
  | sleep => simp [hpc,point,hstop]
  | io => simp [hpc,point,hstop]
  | free =>
    cases hmet : met (.suspicion i) <;> simp [hpc]
  | verdict =>
    cases hmet : met (.suspicion i) <;> simp [hpc,point,hstop]
  | finish => simp [hpc]
  | enter c => simp [hpc]
  | ended => simp [hpc]
  | _ =>
    rw [hpc] at hout
    exact absurd trivial hout

/-- The thread is on its way to the lock and nobody has asked it to end. -/
def Lost (u : Tid) (s : Locking) : Prop :=
  match s.pc u with
  | .enter _ | .wait _ => True
  | .sleep | .verdict => s.cancelled u = false
  | _ => False

theorem callback_lost {met : Tid → Bool} (hallows : Tid.Allows (.suspicion i) (s.pc (.suspicion i)))
    (hout : ¬(s.pc (.suspicion i)).Holds) (hm : s.nodeMutex ≠ none)
    (hcancelled : s.running (.suspicion i) = true → s.cancelled (.suspicion i) = true)
    (hends : ¬s.Ends met (.suspicion i)) :
    (s.step enabled ⟨.suspicion i,if met (.suspicion i) then .io else .go⟩).Lost (.suspicion i) := by
  have hstop : s.running (.suspicion i) = true ∨ s.cancelled (.suspicion i) = true ↔
      s.cancelled (.suspicion i) = true := or_iff_right_of_imp hcancelled
  unfold Ends at hends
  unfold step
  cases hpc : s.pc (.suspicion i) with
  | enter c => simp [hpc,Lost]
  | wait c => simp [hpc,Lost,if_neg hm]
  | sleep => simp_all [Lost,point]
  | verdict => cases hmet : met (.suspicion i) <;> simp_all [Lost,point,goto]
  | finish => simp [hpc] at hends
  | ended => simp [hpc] at hends
  | free => simp [hpc,Tid.Allows] at hallows
  | io => simp [hpc,Tid.Allows] at hallows
  | _ =>
    rw [hpc] at hout
    exact absurd trivial hout

theorem step_cancelled {m : Move} (hout : ¬(s.pc m.t).Holds) (hm : s.nodeMutex ≠ none) :
    (s.step enabled m).cancelled = s.cancelled := by
  obtain ⟨t,choice⟩ := m
  unfold step
  cases hpc : s.pc t with
  | wait c => simp only [hpc,if_neg hm]
  | free =>
    simp only [hpc]
    repeat' split
    all_goals rfl
  | sleep => simp only [hpc]; split <;> rfl
  | verdict => simp only [hpc]; split <;> rfl
  | io => simp only [hpc]; rfl
  | enter c => simp only [hpc]; rfl
  | finish => simp only [hpc]; rfl
  | ended => simp only [hpc]
  | _ =>
    rw [hpc] at hout
    exact absurd trivial hout

/-- It gets no further than to the lock, as long as another thread has that. -/
theorem Lost.step (h : s.Lost (.suspicion i)) {m : Move} (hout : ¬(s.pc m.t).Holds)
    (hm : s.nodeMutex ≠ none) : (s.step enabled m).Lost (.suspicion i) := by
  by_cases ht : Tid.suspicion i = m.t
  · obtain ⟨t,choice⟩ := m
    cases ht
    unfold Lost at h ⊢
    unfold Locking.step
    cases hpc : s.pc (.suspicion i) with
    | enter c => simp [hpc]
    | wait c => simp [hpc,if_neg hm]
    | sleep => simp_all [point]
    | verdict =>
      simp only [hpc] at h ⊢
      cases choice <;> simp [point,goto,h]
    | _ => simp [hpc] at h
  · have hpc := step_still enabled (fun c h => hout (by rw [h]; trivial))
      (fun c u h => hout (by rw [h]; trivial)) ht
    unfold Lost at h ⊢
    rwa [hpc,step_cancelled hout hm]

/-- The thread holds the lock, and waits for it or for a thread that does. -/
def Stuck (t : Tid) (s : Locking) : Prop :=
  s.pc t = .relock ∨ ∃ c i, s.pc t = .join c (.suspicion i) ∧ s.Lost (.suspicion i)

theorem Lost.ne_ended {u : Tid} (h : s.Lost u) : s.pc u ≠ .ended := by
  intro hpc
  rw [Lost,hpc] at h
  exact h

theorem Stuck.holds {t : Tid} (h : s.Stuck t) : (s.pc t).Holds := by
  rcases h with h | ⟨c,i,h,-⟩ <;> rw [h] <;> trivial

theorem Stuck.ne_free {t : Tid} (h : s.Stuck t) : s.pc t ≠ .free := by
  intro hpc
  have hholds := h.holds
  rw [hpc] at hholds
  exact hholds

theorem Stuck.still {t : Tid} (h : s.Stuck t) (choice : Choice) : s.step enabled ⟨t,choice⟩ = s := by
  unfold Locking.step
  rcases h with h | ⟨c,i,h,hlost⟩
  · simp only [h]
  · simp only [h]
    exact if_neg hlost.ne_ended

theorem Stuck.step {t : Tid} (hs : s.Attached) (h : s.Stuck t) (m : Move) :
    (s.step enabled m).Stuck t := by
  by_cases ht : t = m.t
  · obtain ⟨t',choice⟩ := m
    cases ht
    rwa [h.still]
  have hout : ¬(s.pc m.t).Holds := hs.sole h.holds (Ne.symm ht)
  have hm : s.nodeMutex ≠ none := by
    rw [hs.holder t h.holds]
    simp
  have hpc := step_still enabled (fun c h => hout (by rw [h]; trivial))
    (fun c u h => hout (by rw [h]; trivial)) ht
  rcases h with h | ⟨c,i,h,hlost⟩
  · exact Or.inl (hpc.trans h)
  · exact Or.inr ⟨c,i,hpc.trans h,hlost.step hout hm⟩

theorem run_stuck {t : Tid} (hs : s.Attached) (h : s.Stuck t) (ms : List Move) :
    (Transitions.run (Locking.step enabled) s ms).Stuck t := by
  refine (Transitions.run_invariant (P := fun s : Locking => s.Attached ∧ s.Stuck t) ⟨hs,h⟩ ?_
    ms).2
  rintro s m ⟨hs,h⟩
  exact ⟨hs.step m,h.step hs m⟩

end Locking

def Member.Confirms (s : Suspect) (m : Member) : Prop :=
  ∃ r t, m.find s.node = some r ∧ r.incarnation ≤ s.incarnation ∧ m.nodeTimers s.node = some t ∧
    t.n ≤ t.k ∧ s.from_ ∉ t.confirmations

/-- The call of a handler that an entry is translated to. -/
def PushNodeState.call (cfg : Config) (e : Env) (st : PushNodeState) : Option LockedCall :=
  match st.state with
  | .stateAlive => some (.alive (genAliveBroadcast st.alive) (-1) e)
  | .stateLeft => some (.dead (genDeadBroadcast st.farewell) e)
  | .stateDead | .stateSuspect => some (.suspect (genSuspectBroadcast (st.suspicion cfg)) e)
  | .unrecognized _ => none

namespace LockedCall

/-- The call joins the thread of the suspicion `i`: it gets as far as erasing the timer, or it
confirms the suspicion while the timer is running. -/
def Meets (cfg : Config) (s : Host) (i : ℕ) (c : LockedCall) : Prop :=
  s.locking.nodeTimers c.name = some i ∧ match c with
    | .suspect b _ => s.locking.running (.suspicion i) = true ∧ s.member.Confirms b.suspect
    | c => c.Reaches cfg s.member

/-- The call does not return. -/
def Obstructed (cfg : Config) (fl : Floats) (met : Tid → Bool) (s : Host) (c : LockedCall) : Prop :=
  (∃ b e, c = .suspect b e ∧ (s.reads c).Overdue fl e.now b.suspect) ∨
    ∃ i, c.Meets cfg s i ∧ ¬s.locking.Ends met (.suspicion i)

end LockedCall

namespace Host

section Merge

variable (cfg : Config) (fl : Floats) (enabled : Periodic → Bool) (met : Tid → Bool) (n : ℕ)

/-- A thread makes a call that nobody comes into; a thread that it joins makes one step. -/
def callBy (c : LockedCall) (s : Host) : Host :=
  let go := HostEvent.goOn (.worker n)
  let s := Transitions.run (step cfg fl enabled) s [.call (.worker n) c,go,go,go]
  match s.locking.pc (.worker n) with
  | .join _ u =>
    Transitions.run (step cfg fl enabled) s
      [.go u (if met u then .io else .go) ⟨0,0,0,0,[],[]⟩,go,go]
  | _ => s.step cfg fl enabled go

/-- The handler of one entry is called when the one before it has returned. -/
def mergeState (e : Env) (st : PushNodeState) (s : Host) : Host :=
  match st.call cfg e with
  | none => s
  | some c => if s.locking.pc (.worker n) = .free then s.callBy cfg fl enabled met n c else s

def mergeRemoteState (env : ℕ → Env) (pushpull : PushPull) (s : Host) : Host :=
  pushpull.states.zipIdx.foldl (fun s st => s.mergeState cfg fl enabled met n (env st.2) st.1) s

end Merge

variable {cfg : Config} {fl : Floats} {enabled : Periodic → Bool} {s : Host} {n : ℕ}

def entered (n : ℕ) (c : LockedCall) (s : Host) : Host where
  member := s.member
  locking := Locking.goto (.worker n) (.inside c.sect)
    { s.locking with nodeMutex := some (.worker n) }
  doing := Function.update s.doing (.worker n) c

theorem run_entered {c : LockedCall} (hfree : s.locking.pc (.worker n) = .free)
    (hm : s.locking.nodeMutex = none) (hc : Tid.calls (.worker n) c.sect = true) :
    Transitions.run (step cfg fl enabled) s
      [.call (.worker n) c,.goOn (.worker n),.goOn (.worker n)] = s.entered n c := by
  simp [Transitions.run,step,hfree,hm,hc,move,Locking.step,Locking.goto,HostEvent.goOn,entered]

theorem late_iff_overdue {m : Member} (hm : m.Sound cfg) (c : LockedCall) :
    c.Late cfg fl m ↔ ∃ b e, c = .suspect b e ∧ m.Overdue fl e.now b.suspect := by
  constructor
  · intro hlate
    obtain ⟨hsect,-⟩ := LockedCall.late_suspect hm hlate
    cases c with
    | suspect b e => exact ⟨b,e,rfl,(Member.relocks_iff_overdue cfg fl e b m).mp hlate⟩
    | _ => cases hsect
  · rintro ⟨b,e,rfl,hoverdue⟩
    exact (Member.relocks_iff_overdue cfg fl e b m).mpr hoverdue

theorem entered_meets (n : ℕ) (c c' : LockedCall) (s : Host) (i : ℕ) :
    c'.Meets cfg (s.entered n c) i ↔ c'.Meets cfg s i := by
  cases c' <;> rfl

theorem entered_ends (met : Tid → Bool) (n : ℕ) (c : LockedCall) (s : Host) (i : ℕ) :
    (s.entered n c).locking.Ends met (.suspicion i) ↔ s.locking.Ends met (.suspicion i) := by
  simp [Locking.Ends,entered,Locking.goto]

theorem entered_reads (n : ℕ) (c c' : LockedCall) (s : Host) :
    (s.entered n c).reads c' = s.reads c' := by
  cases c' <;> rfl

theorem Sound.confirms_iff (hs : s.Sound cfg) {b : Broadcast} {e : Env} {i : ℕ}
    (hd : s.member.deadlocked = false) (hi : s.locking.nodeTimers b.suspect.node = some i) :
    (s.member.suspectNode cfg fl e b).nodeTimers b.suspect.node ≠
      s.member.nodeTimers b.suspect.node ↔ s.member.Confirms b.suspect := by
  have hshows := hs.shows b.suspect.node
  rw [hi] at hshows
  obtain ⟨t,ht⟩ := Option.isSome_iff_exists.mp hshows.symm
  have hexit : Member.SuspectExit cfg fl e b.suspect s.member _ := Member.suspectNode_exit s.member e b
  constructor
  · intro hne
    generalize s.member.suspectNode cfg fl e b = m' at hexit hne
    cases hexit with
    | @confirmed r t' _ hr hle ht' =>
      cases ht.symm.trans ht'
      obtain ⟨q,d,h,-⟩ := Member.confirmTimer_frame fl e b.suspect t s.member
      rcases Suspicion.confirm_cases fl e.now b.suspect.from_ t with ⟨-,he⟩ | ⟨⟨hn,hx⟩,-⟩
      · refine absurd ?_ hne
        rw [h,he]
        exact (Function.update_self _ _ _).trans ht.symm
      · exact ⟨_,t,Table.find_eq hr,hle,ht,hn,hx⟩
    | refuted _ _ _ _ hnone => cases hnone.symm.trans ht
    | suspected _ _ _ _ hnone => cases hnone.symm.trans ht
    | _ => exact absurd rfl hne
  · rintro ⟨r,t',hfind,hle,ht',hn,hx⟩
    cases ht.symm.trans ht'
    obtain ⟨a,ha,rfl⟩ := Option.map_eq_some_iff.mp hfind
    have hconfirm : s.member.suspectNode cfg fl e b = s.member.confirmTimer fl e b.suspect t := by
      simp [Member.suspectNode,hd,ha,Nat.not_lt.mpr hle,ht]
    obtain ⟨q,d,h,-⟩ := Member.confirmTimer_frame fl e b.suspect t s.member
    rw [hconfirm,h,ht]
    show Function.update s.member.nodeTimers b.suspect.node _ b.suspect.node ≠ some t
    rw [Function.update_self]
    intro heq
    have hcount := congrArg Suspicion.n (Option.some.inj heq)
    rcases Suspicion.confirm_cases fl e.now b.suspect.from_ t with
      ⟨hno,-⟩ | ⟨-,⟨-,he⟩ | ⟨-,-,he⟩ | ⟨-,-,he⟩⟩
    · rcases hno with hno | hno
      · omega
      · exact hx hno
    all_goals
      rw [he] at hcount
      simp [Suspicion.count] at hcount

variable {t : Tid}

inductive Outcome (cfg : Config) (fl : Floats) (s s' : Host) (t : Tid) : Prop
  | late (hlate : (s.doing t).Late cfg fl (s.reads (s.doing t)))
      (hpc : s'.locking.pc t = .relock)
  | joins (i : ℕ) (hearly : ¬(s.doing t).Late cfg fl (s.reads (s.doing t)))
      (hmeets : (s.doing t).Meets cfg s i) (hreads : s.reads (s.doing t) = s.member)
      (hmember : s'.member = s.member)
      (hjoins : s.locking.Joins s'.locking t (s.doing t).sect (.suspicion i))
  | done (hearly : ¬(s.doing t).Late cfg fl (s.reads (s.doing t)))
      (hno : ∀ i, ¬(s.doing t).Meets cfg s i)
      (hmember : s'.member = (s.doing t).apply cfg fl (s.reads (s.doing t)))
      (hpc : s'.locking.pc t = .unlock false) (hmutex : s'.locking.nodeMutex = s.locking.nodeMutex)

theorem Sound.outcome_erase (hs : s.Sound cfg) {x : String} (hx : (s.doing t).sect.Erases x)
    (hpc : s.locking.pc t = .inside (s.doing t).sect) :
    Outcome cfg fl s (s.body cfg fl enabled t) t := by
  have hname := LockedCall.erases_name hx
  have hreads : s.reads (s.doing t) = s.member :=
    reads_of_ne fun y h => by rcases hx with h' | h' <;> cases h'.symm.trans h
  have hearly : ¬(s.doing t).Late cfg fl (s.reads (s.doing t)) := by
    rintro ⟨hd,hd'⟩
    rw [LockedCall.apply_deadlocked hx (hs.reads_sound _),hd] at hd'
    cases hd'
  have hmeets (i : ℕ) : (s.doing t).Meets cfg s i ↔
      s.locking.nodeTimers x = some i ∧ (s.doing t).Reaches cfg s.member := by
    cases hd : s.doing t <;> rw [hd] at hx hname <;> rcases hx with h | h <;> cases h <;> rfl
  rcases hs.body_erase hx hpc with
    ⟨hreaches,hm,i,hi,hl⟩ | ⟨hm,htimers,hl⟩
  · refine .joins i hearly ((hmeets i).mpr ⟨hi,hreaches⟩) hreads hm (Or.inl ?_)
    rw [hl,Locking.eraseTimer,hi]
  · refine .done hearly (fun i h => ?_) (by rw [hm,hreads]) (by rw [hl,Locking.goto_pc_self])
      (by rw [hl]; rfl)
    obtain ⟨hi,hreaches⟩ := (hmeets i).mp h
    have hsome : s.member.nodeTimers x ≠ none := by
      have hshows := hs.shows x
      rw [hi] at hshows
      exact Option.isSome_iff_ne_none.mp hshows.symm
    obtain ⟨-,hnone⟩ := (LockedCall.erase_timer hx hs.settled hsome).resolve_right
      fun h => h.1 hreaches
    rw [← hm,htimers] at hnone
    exact hsome hnone

theorem Sound.outcome_suspect (hs : s.Sound cfg) (hfree : s.member.deadlocked = false)
    {b : Broadcast} {e : Env} (hdoing : s.doing t = .suspect b e)
    (hpc : s.locking.pc t = .inside (.suspectNode b.suspect.node)) :
    Outcome cfg fl s (s.body cfg fl enabled t) t := by
  have hpc' : s.locking.pc t = .inside (s.doing t).sect := by rw [hdoing]; exact hpc
  by_cases hlate : (s.doing t).Late cfg fl (s.reads (s.doing t))
  · obtain ⟨i,-,-,hl,-⟩ := hs.body_late hlate hpc'
    exact .late hlate (by rw [hl,Locking.goto_pc_self])
  obtain ⟨hl,-,hm⟩ := body_cases s t
  rw [Locking.step_inside hpc,hdoing] at hl
  have hdone (hnot : ∀ i, ¬(s.doing t).Meets cfg s i)
      (hunlock : (s.body cfg fl enabled t).locking.pc t = .unlock false)
      (hmutex : (s.body cfg fl enabled t).locking.nodeMutex = s.locking.nodeMutex) :
      Outcome cfg fl s (s.body cfg fl enabled t) t := by
    rcases hm with ⟨c,u,hjoin,-⟩ | ⟨-,hm⟩
    · cases hunlock.symm.trans hjoin
    · exact .done hlate hnot hm hunlock hmutex
  have hmeets (i : ℕ) : (s.doing t).Meets cfg s i ↔
      s.locking.nodeTimers b.suspect.node = some i ∧
        s.locking.running (.suspicion i) = true ∧ s.member.Confirms b.suspect := by
    rw [hdoing]
    rfl
  have hreads {i : ℕ} (hi : s.locking.nodeTimers b.suspect.node = some i)
      (hr : s.locking.running (.suspicion i) = true) :
      s.reads (.suspect b e) = s.member := by
    simp only [reads,hi]
    split
    · next i' t' hi' ht' =>
      cases hi'
      exact if_pos hr
    · rfl
  have hsame {i : ℕ} (hi : s.locking.nodeTimers b.suspect.node = some i)
      (hr : s.locking.running (.suspicion i) = true) :
      ((LockedCall.suspect b e).apply cfg fl (s.reads (.suspect b e))).nodeTimers b.suspect.node ≠
        (s.reads (.suspect b e)).nodeTimers b.suspect.node ↔ s.member.Confirms b.suspect := by
    rw [hreads hi hr]
    exact hs.confirms_iff hfree hi
  rw [hdoing] at hlate
  by_cases ht : ((LockedCall.suspect b e).apply cfg fl (s.reads (.suspect b e))).nodeTimers
      b.suspect.node = (s.reads (.suspect b e)).nodeTimers b.suspect.node
  · have hchoice : choice (.suspect b e) (s.reads (.suspect b e))
        ((LockedCall.suspect b e).apply cfg fl (s.reads (.suspect b e))) = .go :=
      (if_neg hlate).trans (if_pos ht)
    rw [hchoice,Locking.body_go (by simp)] at hl
    refine hdone (fun i h => ?_) (by rw [hl,Locking.goto_pc_self]) (by rw [hl]; rfl)
    obtain ⟨hi,hr,hconfirms⟩ := (hmeets i).mp h
    exact (hsame hi hr).mpr hconfirms ht
  have hchoice : choice (.suspect b e) (s.reads (.suspect b e))
      ((LockedCall.suspect b e).apply cfg fl (s.reads (.suspect b e))) = .act :=
    (if_neg hlate).trans (if_neg ht)
  rw [hchoice] at hl
  cases hi : s.locking.nodeTimers b.suspect.node with
  | none =>
    simp only [Locking.body,hi] at hl
    refine hdone (fun i h => ?_) (by rw [hl]; exact Locking.goto_pc_self _) (by rw [hl]; rfl)
    cases hi.symm.trans ((hmeets i).mp h).1
  | some i =>
    simp only [Locking.body,hi,Locking.confirm] at hl
    split at hl
    · next hr =>
      have hjoin : (s.body cfg fl enabled t).locking.pc t =
          .join (.suspectNode b.suspect.node) (.suspicion i) := by
        rw [hl,Locking.goto_pc_self]
      have hm : (s.body cfg fl enabled t).member = s.member := by
        rcases hm with ⟨-,-,-,hm⟩ | ⟨hno,-⟩
        · rw [hm,hdoing,hreads hi hr]
        · exact absurd hjoin (hno _ _)
      refine .joins i (hdoing ▸ hlate) ((hmeets i).mpr ⟨hi,hr,(hsame hi hr).mp ht⟩)
        (by rw [hdoing,hreads hi hr]) hm (Or.inr ⟨hr,?_⟩)
      rw [hl,hdoing]
      rfl
    · next hr =>
      refine hdone (fun j h => ?_) (by rw [hl,Locking.goto_pc_self]) (by rw [hl]; rfl)
      obtain ⟨hj,hr',-⟩ := (hmeets j).mp h
      cases hi.symm.trans hj
      exact hr hr'

def Reached (cfg : Config) (fl : Floats) (enabled : Periodic → Bool) (s : Host) : Prop :=
  ∃ leaveFd e evs, run cfg fl enabled leaveFd e evs = s

theorem Reached.run (h : Reached cfg fl enabled s) (evs : List HostEvent) :
    Reached cfg fl enabled (Transitions.run (step cfg fl enabled) s evs) := by
  obtain ⟨leaveFd,e,pre,rfl⟩ := h
  exact ⟨leaveFd,e,pre ++ evs,Transitions.run_append ..⟩

theorem Reached.step (h : Reached cfg fl enabled s) (ev : HostEvent) :
    Reached cfg fl enabled (s.step cfg fl enabled ev) := h.run [ev]

theorem Reached.sound (h : Reached cfg fl enabled s) : s.Sound cfg := by
  obtain ⟨leaveFd,e,evs,rfl⟩ := h
  exact run_sound ..

theorem Reached.flagged (h : Reached cfg fl enabled s) : s.Flagged cfg fl := by
  obtain ⟨leaveFd,e,evs,rfl⟩ := h
  exact run_flagged ..

theorem Reached.placed (h : Reached cfg fl enabled s) : s.locking.Placed := by
  obtain ⟨leaveFd,e,evs,rfl⟩ := h
  obtain ⟨ms,hms⟩ := run_locking (start cfg enabled leaveFd e) evs
  rw [Host.run,hms]
  exact Transitions.run_invariant (Locking.Placed.initial enabled) (fun _ m hs => hs.step m) ms

theorem Reached.stuck (h : Reached cfg fl enabled s) {t : Tid} (hstuck : s.locking.Stuck t)
    (evs : List HostEvent) :
    (Transitions.run (Host.step cfg fl enabled) s evs).locking.Stuck t := by
  obtain ⟨ms,hms⟩ := run_locking s evs
  rw [hms]
  exact Locking.run_stuck h.sound.attached hstuck ms

theorem Reached.reads_settled (h : Reached cfg fl enabled s) (c : LockedCall) :
    (s.reads c).Settled cfg := by
  obtain ⟨leaveFd,e,evs,rfl⟩ := h
  obtain ⟨ops,hops⟩ := run_process cfg fl enabled leaveFd e evs
  obtain ⟨more,hmore⟩ := reads_process cfg fl _ c _ hops
  rw [← hmore,Process.run,← Transitions.run_append]
  exact Process.run_settled cfg fl leaveFd e (ops ++ more)

theorem step_body {c : Section} (hpc : s.locking.pc t = .inside c) (hc : c ≠ .check) :
    s.step cfg fl enabled (.goOn t) = s.body cfg fl enabled t := by
  simp only [HostEvent.goOn,Host.step,hpc]
  cases c <;> first | rfl | exact absurd rfl hc

theorem step_unlock {timeout : Bool} (hpc : s.locking.pc (.worker n) = .unlock timeout) :
    s.step cfg fl enabled (.goOn (.worker n)) = { s with
      locking := Locking.goto (.worker n) .free { s.locking with nodeMutex := none } } := by
  simp only [HostEvent.goOn,Host.step,hpc,move,Locking.step,Tid.afterUnlock]

theorem step_outside {choice : Choice} (hout : ¬(s.locking.pc t).Holds)
    (hchoice : ∀ c, choice ≠ .call c) (e : Env) :
    s.step cfg fl enabled (.go t choice e) = s.move enabled ⟨t,choice⟩ := by
  simp only [Host.step]
  split
  · rfl
  · next hpc => exact absurd (by rw [hpc]; trivial) hout
  · next hpc => exact absurd (by rw [hpc]; trivial) hout
  · rfl

theorem finish_done {s' : Host} (hpc : s.locking.pc (.worker n) = .unlock false)
    (hs' : s' = s.step cfg fl enabled (.goOn (.worker n))) (x : String) :
    s'.locking.pc (.worker n) = .free ∧ s'.locking.nodeMutex = none ∧ s'.member = s.member ∧
      s.locking.SameElsewhere x s'.locking := by
  rw [hs',step_unlock hpc]
  exact ⟨Locking.goto_pc_self _,rfl,rfl,Locking.goto_elsewhere _ _ _ _⟩

theorem finish_joined (met : Tid → Bool) {s₁ : Host} {i : ℕ} {x : String} {c : Section}
    (h₁ : Reached cfg fl enabled s₁)
    (hc : c.Erases x ∨ c = .suspectNode x) (hm : s.locking.nodeMutex = some (.worker n))
    (hi : s.locking.nodeTimers x = some i)
    (hjoins : s.locking.Joins s₁.locking (.worker n) c (.suspicion i)) :
    let s' := Transitions.run (step cfg fl enabled) s₁
      [.go (.suspicion i) (if met (.suspicion i) then .io else .go) ⟨0,0,0,0,[],[]⟩,
        .goOn (.worker n),.goOn (.worker n)]
    s₁.locking.SameElsewhere x s'.locking ∧
      (s.locking.Ends met (.suspicion i) ∧ s'.locking.pc (.worker n) = .free ∧
          s'.locking.nodeMutex = none ∧
          s'.member = (s₁.doing (.worker n)).apply cfg fl s₁.member ∨
        ¬s.locking.Ends met (.suspicion i) ∧ s'.locking.Stuck (.worker n)) := by
  intro s'
  have hne : Tid.suspicion i ≠ .worker n := by simp
  obtain ⟨hpc,-,hmutex,htimers,hrun,-⟩ := hjoins.frame hne
  have hatt := h₁.sound.attached
  have hi₁ : s₁.locking.nodeTimers x = some i := by rw [htimers,hi]
  have hm₁ : s₁.locking.nodeMutex ≠ none := by rw [hmutex,hm]; simp
  have hout : ¬(s₁.locking.pc (.suspicion i)).Holds :=
    hatt.sole (show (s₁.locking.pc (.worker n)).Holds by rw [hpc]; trivial) hne
  -- the step of the thread that is joined
  let choice : Choice := if met (.suspicion i) then .io else .go
  let s₂ := s₁.move enabled ⟨.suspicion i,choice⟩
  have hs₂ : s₁.step cfg fl enabled (.go (.suspicion i) choice ⟨0,0,0,0,[],[]⟩) = s₂ :=
    step_outside hout (fun c => by simp only [choice]; split <;> simp) _
  obtain ⟨helse,hmutex₂,htimers₂⟩ :=
    Locking.callback_elsewhere hatt hi₁ hout hm₁ choice
  have hends : s₂.locking.pc (.suspicion i) = .ended ↔ s.locking.Ends met (.suspicion i) :=
    (Locking.callback_ends met hout hm₁ hrun).trans (hjoins.ends hne met)
  have hpc₂ : s₂.locking.pc (.worker n) = .join c (.suspicion i) := by
    rw [← hpc]
    exact Locking.step_still enabled (fun c h => hout (by rw [h]; trivial))
      (fun c u h => hout (by rw [h]; trivial)) hne.symm
  have hs' : s' = (s₂.step cfg fl enabled (.goOn (.worker n))).step cfg fl enabled
      (.goOn (.worker n)) := by
    simp only [s',Transitions.run_cons,Transitions.run_nil]
    rw [hs₂]
  by_cases hended : s₂.locking.pc (.suspicion i) = .ended
  · let s₃ : Host := { s₂ with
      member := (s₁.doing (.worker n)).apply cfg fl s₁.member
      locking := s₂.locking.joined (.worker n) c (.suspicion i) }
    have hs₃ : s₂.step cfg fl enabled (.goOn (.worker n)) = s₃ := by
      simp only [HostEvent.goOn,Host.step,hpc₂,if_pos hended,move,Locking.step_join hpc₂ hended]
      rfl
    have hpc₃ : s₃.locking.pc (.worker n) = .unlock false := by
      rcases hc with (rfl | rfl) | rfl <;> exact Locking.goto_pc_self _
    rw [hs₃] at hs'
    obtain ⟨h₁',h₂',h₃',h₄'⟩ := finish_done hpc₃ hs' x
    have hatt₂ : s₂.locking.Attached := hatt.step _
    have hjoined := Locking.joined_elsewhere (n := n) hatt₂ hc
      ((congrFun htimers₂ x).trans hi₁)
    exact ⟨(helse.trans hjoined).trans h₄',Or.inl ⟨hends.mp hended,h₁',h₂',h₃'⟩⟩
  · have hstay : s₂.step cfg fl enabled (.goOn (.worker n)) = s₂ := by
      simp only [HostEvent.goOn,Host.step,hpc₂]
      exact if_neg hended
    have hlost : s₂.locking.Lost (.suspicion i) :=
      Locking.callback_lost (h₁.placed _) hout hm₁ hrun fun h =>
        hended ((Locking.callback_ends met hout hm₁ hrun).mpr h)
    rw [hs',hstay,hstay]
    exact ⟨helse,Or.inr ⟨fun h => hended (hends.mpr h),Or.inr ⟨c,i,hpc₂,hlost⟩⟩⟩

theorem not_check {c : LockedCall} (hc : c.sect.Erases c.name ∨ c.sect = .suspectNode c.name) :
    c.sect ≠ .check := by
  rcases hc with (h | h) | h <;> rw [h] <;> simp

theorem worker_calls {c : LockedCall} (hc : c.sect.Erases c.name ∨ c.sect = .suspectNode c.name) :
    Tid.calls (.worker n) c.sect = true := by
  rcases hc with (h | h) | h <;> rw [h] <;> rfl

/-- A call of a handler is its body, and what that leaves to do. -/
theorem callBy_eq (met : Tid → Bool) (hfree : s.locking.pc (.worker n) = .free)
    (hm : s.locking.nodeMutex = none) {c : LockedCall}
    (hc : c.sect.Erases c.name ∨ c.sect = .suspectNode c.name) :
    let s₂ := (s.entered n c).body cfg fl enabled (.worker n)
    s.callBy cfg fl enabled met n c = match s₂.locking.pc (.worker n) with
      | .join _ u => Transitions.run (Host.step cfg fl enabled) s₂
          [.go u (if met u then .io else .go) ⟨0,0,0,0,[],[]⟩,.goOn (.worker n),.goOn (.worker n)]
      | _ => s₂.step cfg fl enabled (.goOn (.worker n)) := by
  intro s₂
  have hpc : (s.entered n c).locking.pc (.worker n) = .inside c.sect := Locking.goto_pc_self _
  have hdoing : (s.entered n c).doing (.worker n) = c := Function.update_self _ _ _
  have hs₂ : (s.entered n c).step cfg fl enabled (.goOn (.worker n)) = s₂ :=
    step_body (hdoing.symm ▸ hpc) (not_check (hdoing.symm ▸ hc))
  have hrun : Transitions.run (Host.step cfg fl enabled) s [.call (.worker n) c,
      .goOn (.worker n),.goOn (.worker n),.goOn (.worker n)] = s₂ := by
    rw [← hs₂,show s.entered n c = _ from (run_entered hfree hm (worker_calls hc)).symm]
    rfl
  simp only [callBy,hrun]

/-- The body of a call from the outside, which finds the lock free. -/
theorem Reached.entered_body (h : Reached cfg fl enabled s)
    (hfree : s.locking.pc (.worker n) = .free) (hm : s.locking.nodeMutex = none) {c : LockedCall}
    (hc : c.sect.Erases c.name ∨ c.sect = .suspectNode c.name) :
    let s₁ := s.entered n c
    let s₂ := s₁.body cfg fl enabled (.worker n)
    Reached cfg fl enabled s₂ ∧ s₂.doing (.worker n) = c ∧
      s.locking.SameElsewhere c.name s₂.locking ∧ Outcome cfg fl s₁ s₂ (.worker n) := by
  intro s₁ s₂
  have hr₁ : Reached cfg fl enabled s₁ := by
    rw [show s₁ = _ from (run_entered hfree hm (worker_calls hc)).symm]
    exact h.run _
  have hpc₁ : s₁.locking.pc (.worker n) = .inside c.sect := Locking.goto_pc_self _
  have hdoing : s₁.doing (.worker n) = c := Function.update_self _ _ _
  have hs₂ : s₁.step cfg fl enabled (.goOn (.worker n)) = s₂ := step_body hpc₁ (not_check hc)
  obtain ⟨hl,hdoing₂,-⟩ : _ ∧ s₂.doing = s₁.doing ∧ _ := body_cases s₁ (.worker n)
  refine ⟨hs₂ ▸ hr₁.step _,by rw [hdoing₂,hdoing],?_,?_⟩
  · rw [hl.trans (Locking.step_inside hpc₁ _)]
    refine Locking.SameElsewhere.trans ?_ (Locking.body_elsewhere hr₁.sound.attached hc)
    exact Locking.goto_elsewhere n (.inside c.sect) c.name _
  · have hfree₁ := hr₁.flagged.free hr₁.sound (t := .worker n) (by rw [hpc₁]; trivial)
      (by simp [hpc₁])
    rcases hc with hx | hsect
    · exact hr₁.sound.outcome_erase (hdoing.symm ▸ hx) (hdoing.symm ▸ hpc₁)
    · cases c with
      | suspect b e => exact hr₁.sound.outcome_suspect hfree₁ hdoing hpc₁
      | _ => cases hsect

/-- A call of a handler returns, having done its work, or waits for a thread or for itself. -/
theorem callBy_cases (met : Tid → Bool) (h : Reached cfg fl enabled s)
    (hfree : s.locking.pc (.worker n) = .free) (hm : s.locking.nodeMutex = none) {c : LockedCall}
    (hc : c.sect.Erases c.name ∨ c.sect = .suspectNode c.name) :
    let s' := s.callBy cfg fl enabled met n c
    Reached cfg fl enabled s' ∧ s.locking.SameElsewhere c.name s'.locking ∧
      (¬c.Obstructed cfg fl met s ∧ s'.locking.pc (.worker n) = .free ∧
          s'.locking.nodeMutex = none ∧ s'.member = c.apply cfg fl (s.reads c) ∨
        c.Obstructed cfg fl met s ∧ s'.locking.Stuck (.worker n)) := by
  intro s'
  have hs' : s' = _ := callBy_eq met hfree hm hc
  obtain ⟨hr₂,hdoing₂,helse,houtcome⟩ := h.entered_body hfree hm hc
  have hdoing : (s.entered n c).doing (.worker n) = c := Function.update_self _ _ _
  have hm₁ : (s.entered n c).locking.nodeMutex = some (.worker n) := rfl
  generalize (s.entered n c).body cfg fl enabled (.worker n) = s₂ at hs' hr₂ hdoing₂ helse houtcome
  have hreads : (s.entered n c).reads c = s.reads c := entered_reads n c c s
  rw [hs']
  cases houtcome with
  | late hlate hpc =>
    rw [hdoing,hreads] at hlate
    have hstay : s₂.step cfg fl enabled (.goOn (.worker n)) = s₂ := by
      simp only [HostEvent.goOn,Host.step,hpc,move,Locking.step]
    rw [hpc]
    simp only [hstay]
    exact ⟨hr₂,helse,Or.inr ⟨Or.inl ((late_iff_overdue (h.sound.reads_sound c) c).mp hlate),
      Or.inl hpc⟩⟩
  | joins i hearly hmeets hreads' hmember hjoins =>
    rw [hdoing] at hearly hmeets hreads' hjoins
    rw [hreads] at hearly hreads'
    rw [entered_meets] at hmeets
    have hpc := (hjoins.frame (by simp)).1
    obtain ⟨helse',hcases⟩ := finish_joined met hr₂ hc hm₁
      hmeets.1 hjoins
    rw [entered_ends] at hcases
    have hobstructed : c.Obstructed cfg fl met s ↔ ¬s.locking.Ends met (.suspicion i) := by
      constructor
      · rintro (hoverdue | ⟨j,hj,hends⟩)
        · exact absurd ((late_iff_overdue (h.sound.reads_sound c) c).mpr hoverdue) hearly
        · cases hmeets.1.symm.trans hj.1
          exact hends
      · exact fun hends => Or.inr ⟨i,hmeets,hends⟩
    simp only [hpc]
    refine ⟨hr₂.run _,helse.trans helse',?_⟩
    rcases hcases with ⟨hends,hpc',hmutex',hm'⟩ | ⟨hends,hstuck⟩
    · refine Or.inl ⟨fun ho => hobstructed.mp ho hends,hpc',hmutex',?_⟩
      rw [hm',hdoing₂,hmember,hreads']
    · exact Or.inr ⟨hobstructed.mpr hends,hstuck⟩
  | done hearly hno hmember hpc hmutex =>
    rw [hdoing,hreads] at hearly
    rw [hdoing] at hno
    rw [hdoing,hreads] at hmember
    obtain ⟨hpc',hmutex',hm',helse'⟩ := finish_done
      hpc rfl c.name
    rw [hpc]
    refine ⟨hr₂.step _,helse.trans helse',Or.inl ⟨?_,hpc',hmutex',hm'.trans hmember⟩⟩
    rintro (hoverdue | ⟨j,hj,-⟩)
    · exact hearly ((late_iff_overdue (h.sound.reads_sound c) c).mpr hoverdue)
    · exact hno j ((entered_meets n c c s j).mpr hj)

theorem callBy_waits (met : Tid → Bool) {c : LockedCall}
    (hfree : s.locking.pc (.worker n) = .free) (hm : s.locking.nodeMutex ≠ none)
    (hc : Tid.calls (.worker n) c.sect = true) :
    (s.callBy cfg fl enabled met n c).locking.pc (.worker n) = .wait c.sect := by
  simp [callBy,Transitions.run,Host.step,hfree,hm,hc,move,Locking.step,Locking.goto,
    HostEvent.goOn]

end Host

namespace Member

theorem SameElsewhere.trans {x : String} {m₁ m₂ m₃ : Member} (h : m₁.SameElsewhere x m₂)
    (h' : m₂.SameElsewhere x m₃) : m₁.SameElsewhere x m₃ :=
  fun y hy => ⟨(h' y hy).1.trans (h y hy).1,(h' y hy).2.trans (h y hy).2⟩

theorem mergeState_call (cfg : Config) (fl : Floats) (e : Env) (st : PushNodeState) (m : Member) :
    m.mergeState cfg fl e st = match st.call cfg e with
      | some c => c.apply cfg fl m
      | none => m := by
  cases hs : st.state with
  | stateAlive => simp only [mergeState_alive hs,PushNodeState.call,hs]; rfl
  | stateSuspect => simp only [mergeState_suspicion (Or.inl hs),PushNodeState.call,hs]; rfl
  | stateDead => simp only [mergeState_suspicion (Or.inr hs),PushNodeState.call,hs]; rfl
  | stateLeft => simp only [mergeState_farewell hs,PushNodeState.call,hs]; rfl
  | unrecognized v => simp only [mergeState,PushNodeState.call,hs]

theorem mergeState_leave (fl : Floats) {cfg : Config} {m : Member} (hm : m.Sound cfg) (e : Env)
    (st : PushNodeState) : (m.mergeState cfg fl e st).leave = m.leave := by
  let p : Process := { Process.start cfg 0 e with member := m }
  have hop : Op.merge st e ≠ .leaveSet := by simp
  exact Process.next_leave fl (p := p) hm hop

end Member

theorem PushNodeState.call_handler {cfg : Config} {e : Env} {st : PushNodeState} {c : LockedCall}
    (h : st.call cfg e = some c) :
    c.name = st.name ∧ (c.sect.Erases c.name ∨ c.sect = .suspectNode c.name) := by
  unfold PushNodeState.call at h
  split at h <;> cases h
  · exact ⟨rfl,Or.inl (Or.inl rfl)⟩
  · exact ⟨rfl,Or.inl (Or.inr rfl)⟩
  · exact ⟨rfl,Or.inr rfl⟩
  · exact ⟨rfl,Or.inr rfl⟩

namespace Host

variable {cfg : Config} {fl : Floats} {enabled : Periodic → Bool} {s : Host} {n : ℕ}

/-- The records, timers and threads of other names are as they were. -/
def SameElsewhere (x : String) (s s' : Host) : Prop :=
  s.member.SameElsewhere x s'.member ∧ s.locking.SameElsewhere x s'.locking

theorem reads_elsewhere {x : String} {s' : Host} (h : s.SameElsewhere x s') {c : LockedCall}
    (hc : c.name ≠ x) : (s'.reads c).nodeTimers c.name = (s.reads c).nodeTimers c.name ∧
      (s'.reads c).find c.name = (s.reads c).find c.name := by
  obtain ⟨hm,hl⟩ := h
  obtain ⟨hfind,htimer⟩ := hm c.name hc
  refine ⟨?_,?_⟩
  · cases c with
    | suspect b e =>
      obtain ⟨hl₁,hl₂⟩ := hl b.suspect.node hc
      have htimer : s'.member.nodeTimers b.suspect.node = s.member.nodeTimers b.suspect.node :=
        htimer
      show (s'.reads (.suspect b e)).nodeTimers b.suspect.node =
        (s.reads (.suspect b e)).nodeTimers b.suspect.node
      simp only [reads,hl₁,htimer]
      cases hi : s.locking.nodeTimers b.suspect.node with
      | none => exact htimer
      | some i =>
        obtain ⟨-,hr,-⟩ := hl₂ i hi
        cases ht : s.member.nodeTimers b.suspect.node with
        | none => exact htimer
        | some t =>
          simp only [hr]
          split
          · exact htimer
          · simp [Member.setTimer]
    | _ => exact htimer
  · rw [Member.find,Member.find,(reads_frame s' c).1,(reads_frame s c).1]
    exact hfind

theorem obstructed_elsewhere (met : Tid → Bool) {x : String} {s' : Host}
    (h : s.SameElsewhere x s') (hd : s'.member.deadlocked = s.member.deadlocked) {c : LockedCall}
    (hc : c.name ≠ x) : c.Obstructed cfg fl met s' ↔ c.Obstructed cfg fl met s := by
  obtain ⟨hm,hl⟩ := h
  obtain ⟨hfind,htimer⟩ := hm c.name hc
  obtain ⟨hi,hthread⟩ := hl c.name hc
  obtain ⟨htimer',hfind'⟩ := reads_elsewhere ⟨hm,hl⟩ hc
  have hd' : (s'.reads c).deadlocked = (s.reads c).deadlocked := by
    rw [(reads_frame s' c).2.1,(reads_frame s c).2.1,hd]
  have hoverdue : (∃ b e, c = .suspect b e ∧ (s'.reads c).Overdue fl e.now b.suspect) ↔
      ∃ b e, c = .suspect b e ∧ (s.reads c).Overdue fl e.now b.suspect := by
    refine exists_congr fun b => exists_congr fun e => and_congr_right ?_
    rintro rfl
    have htimer' : (s'.reads (.suspect b e)).nodeTimers b.suspect.node =
        (s.reads (.suspect b e)).nodeTimers b.suspect.node := htimer'
    have hfind' : (s'.reads (.suspect b e)).find b.suspect.node =
        (s.reads (.suspect b e)).find b.suspect.node := hfind'
    rw [Member.Overdue,Member.Overdue,htimer',hfind',hd']
  have hmeets (i : ℕ) : c.Meets cfg s' i ↔ c.Meets cfg s i := by
    unfold LockedCall.Meets
    rw [hi]
    refine and_congr_right fun hi => ?_
    obtain ⟨-,hr,-⟩ := hthread i hi
    cases c with
    | suspect b e =>
      have htimer : s'.member.nodeTimers b.suspect.node = s.member.nodeTimers b.suspect.node :=
        htimer
      have hfind : s'.member.find b.suspect.node = s.member.find b.suspect.node := hfind
      simp only [hr,Member.Confirms,htimer,hfind]
    | _ => exact LockedCall.reaches_congr hd hfind
  refine or_congr hoverdue (exists_congr fun i => ?_)
  rw [hmeets]
  refine and_congr_right fun hmeets => ?_
  obtain ⟨hpc,hr,hcancelled⟩ := hthread i hmeets.1
  unfold Locking.Ends
  rw [hpc,hr,hcancelled]

theorem Reached.free (h : Reached cfg fl enabled s) (hm : s.locking.nodeMutex = none) :
    s.member.deadlocked = false := by
  by_contra hd
  obtain ⟨t,ht⟩ := h.flagged.locked (by simpa using hd)
  have hholder := h.sound.attached.holder t (by rw [ht]; trivial)
  rw [hm] at hholder
  cases hholder

theorem reads_member_elsewhere (s : Host) (c : LockedCall) :
    s.member.SameElsewhere c.name (s.reads c) := by
  cases c with
  | suspect b e =>
    simp only [reads]
    split
    · split
      · exact .refl _ _
      · exact .setTimer _ _ _
    · exact .refl _ _
  | _ => exact .refl _ _

variable (met : Tid → Bool)

theorem mergeState_cases (h : Reached cfg fl enabled s) (hfree : s.locking.pc (.worker n) = .free)
    (hm : s.locking.nodeMutex = none) (e : Env) (st : PushNodeState) :
    let s' := s.mergeState cfg fl enabled met n e st
    Reached cfg fl enabled s' ∧
      ((∀ c ∈ st.call cfg e, ¬c.Obstructed cfg fl met s) ∧ s'.locking.pc (.worker n) = .free ∧
          s'.locking.nodeMutex = none ∧ s.SameElsewhere st.name s' ∧
          (∃ m : Member, m.Settled cfg ∧ m.table = s.member.table ∧ m.leave = s.member.leave ∧
            m.deadlocked = false ∧ s'.member = m.mergeState cfg fl e st) ∨
        (∃ c ∈ st.call cfg e, c.Obstructed cfg fl met s) ∧
          s'.locking.Stuck (.worker n)) := by
  intro s'
  cases hcall : st.call cfg e with
  | none =>
    have hs' : s' = s := by simp only [s',mergeState,hcall]
    rw [hs']
    refine ⟨h,Or.inl ⟨by simp,hfree,hm,⟨.refl _ _,.refl _ _⟩,s.member,h.sound.settled,rfl,rfl,
      h.free hm,?_⟩⟩
    rw [Member.mergeState_call,hcall]
  | some c =>
    have hs' : s' = s.callBy cfg fl enabled met n c := by
      simp only [s',mergeState,hcall,if_pos hfree]
    obtain ⟨hname,hhandler⟩ := PushNodeState.call_handler hcall
    obtain ⟨hr,helse,hcases⟩ := callBy_cases met h hfree hm hhandler
    have hleave : (s.reads c).leave = s.member.leave := by
      cases c with
      | suspect b e =>
        simp only [reads]
        repeat' split
        all_goals rfl
      | _ => rfl
    rw [hs']
    refine ⟨hr,?_⟩
    rcases hcases with ⟨hno,hpc,hmutex,hmember⟩ | ⟨ho,hpc⟩
    · have hmerge : (s.reads c).mergeState cfg fl e st = c.apply cfg fl (s.reads c) := by
        rw [Member.mergeState_call,hcall]
      have hsettled := h.reads_settled c
      refine Or.inl ⟨fun c' hc' => ?_,hpc,hmutex,⟨?_,hname ▸ helse⟩,s.reads c,hsettled,
        (reads_frame s c).1,hleave,(reads_frame s c).2.1.trans (h.free hm),hmember.trans hmerge.symm⟩
      · cases hc'
        exact hno
      · rw [hmember,← hmerge]
        exact (hname ▸ reads_member_elsewhere s c).trans
          (Member.mergeState_elsewhere fl hsettled.toSound e st)
    · exact Or.inr ⟨⟨c,rfl,ho⟩,hpc⟩

theorem mergeStates_stays (env : ℕ → Env) (sts : List (PushNodeState × ℕ))
    (hpc : s.locking.pc (.worker n) ≠ .free) :
    sts.foldl (fun s st => s.mergeState cfg fl enabled met n (env st.2) st.1) s = s := by
  induction sts with
  | nil => rfl
  | cons st sts ih =>
    have hstay : s.mergeState cfg fl enabled met n (env st.2) st.1 = s := by
      simp only [mergeState]
      split
      · rfl
      · exact if_neg hpc
    rw [List.foldl_cons,hstay,ih]

/-- Every entry of the message is taken in, and nothing else has changed. -/
def Absorbs (sts : List PushNodeState) (m m' : Member) : Prop :=
  (∀ st ∈ sts, st.Absorbed (m.find st.name) (m'.find st.name)) ∧
    ∀ y ∉ sts.map (·.name), m'.find y = m.find y

/-- The entries can be judged by the state that the message finds: they are about different
nodes. -/
theorem mergeStates_cases (env : ℕ → Env) {sts : List (PushNodeState × ℕ)}
    (h : Reached cfg fl enabled s) (hfree : s.locking.pc (.worker n) = .free)
    (hm : s.locking.nodeMutex = none) (hleave : s.member.leave = false)
    (hnames : (sts.map (·.1.name)).Nodup)
    (hinc : ∀ st ∈ sts, st.1.incarnation + Member.raises (env st.2).before +
      Member.raises (env st.2).between < 2 ^ 32 - 1)
    (haddr : ∀ st ∈ sts, st.1.AddressKnown s.member) :
    let s' := sts.foldl (fun s st => s.mergeState cfg fl enabled met n (env st.2) st.1) s
    let clear := ∀ st ∈ sts, ∀ c ∈ st.1.call cfg (env st.2), ¬c.Obstructed cfg fl met s
    Reached cfg fl enabled s' ∧
      (clear ∧ s'.locking.pc (.worker n) = .free ∧
          Absorbs (sts.map (·.1)) s.member s'.member ∨
        ¬clear ∧ s'.locking.Stuck (.worker n)) := by
  induction sts generalizing s with
  | nil => exact ⟨h,Or.inl ⟨by simp,hfree,by simp [Absorbs]⟩⟩
  | cons st sts ih =>
    obtain ⟨hnew,hnames⟩ := List.nodup_cons.mp hnames
    rw [List.foldl_cons]
    let s₁ := s.mergeState cfg fl enabled met n (env st.2) st.1
    obtain ⟨hr,⟨hno,hpc,hmutex,helse,m,hsettled,htable,hl,hd,hmember⟩ | ⟨⟨c,hc,ho⟩,hstuck⟩⟩ :=
      mergeState_cases met h hfree hm (env st.2) st.1
    swap
    · rw [mergeStates_stays met env sts hstuck.ne_free]
      exact ⟨hr,Or.inr ⟨fun hall => hall st List.mem_cons_self c hc ho,hstuck⟩⟩
    have hname (st') (h' : st' ∈ sts) : st'.1.name ≠ st.1.name := fun heq =>
      hnew (List.mem_map.mpr ⟨st',h',heq⟩)
    have hfind (y : String) (hy : y ≠ st.1.name) : s₁.member.find y = s.member.find y :=
      (helse.1 y hy).1
    have hleave₁ : s₁.member.leave = false := by
      rw [hmember,Member.mergeState_leave fl hsettled.toSound,hl,hleave]
    obtain ⟨hr',hcases⟩ := ih hr hpc hmutex hleave₁ hnames
      (fun st' h' => hinc st' (List.mem_cons_of_mem _ h')) fun st' h' r hr' => by
        rw [hfind _ (hname st' h')] at hr'
        exact haddr st' (List.mem_cons_of_mem _ h') r hr'
    have hcongr (st') (h' : st' ∈ sts) (c) (hc : c ∈ st'.1.call cfg (env st'.2)) :
        c.Obstructed cfg fl met s₁ ↔ c.Obstructed cfg fl met s := by
      obtain ⟨hc',-⟩ := PushNodeState.call_handler hc
      exact obstructed_elsewhere met helse ((hr.free hmutex).trans (h.free hm).symm)
        (hc'.trans_ne (hname st' h'))
    have habsorbed : st.1.Absorbed (s.member.find st.1.name) (s₁.member.find st.1.name) := by
      have hfind' : m.find st.1.name = s.member.find st.1.name := by
        rw [Member.find,Member.find,htable]
      have haddr' : st.1.AddressKnown m := by
        rw [PushNodeState.AddressKnown,hfind']
        exact haddr st List.mem_cons_self
      rw [← hfind',hmember]
      exact Member.mergeState_absorbed fl hsettled (hl.trans hleave) hd haddr'
        (hinc st List.mem_cons_self)
    refine ⟨hr',?_⟩
    rcases hcases with ⟨hclear,hpc',htaken,hothers⟩ | ⟨hclear,hstuck⟩
    · refine Or.inl ⟨fun st' h' c hc ho => ?_,hpc',fun st' h' => ?_,fun y hy => ?_⟩
      · rcases List.mem_cons.mp h' with rfl | h'
        · exact hno c hc ho
        · exact hclear st' h' c hc ((hcongr st' h' c hc).mpr ho)
      · have hthis : st.1.name ∉ (sts.map (·.1)).map (·.name) := by
          rwa [List.map_map]
        rcases List.mem_cons.mp h' with rfl | h'
        · rw [hothers _ hthis]
          exact habsorbed
        · have hne : st'.name ≠ st.1.name := by
            obtain ⟨st'',h'',rfl⟩ := List.mem_map.mp h'
            exact hname st'' h''
          rw [← hfind _ hne]
          exact htaken st' h'
      · obtain ⟨hne,hy⟩ := not_or.mp fun h => hy (List.mem_cons.mpr h)
        rw [hothers y hy,hfind y hne]
    · refine Or.inr ⟨fun hall => hclear fun st' h' c hc ho => ?_,hstuck⟩
      exact hall st' (List.mem_cons_of_mem _ h') c hc ((hcongr st' h' c hc).mp ho)

theorem not_obstructed {met : Tid → Bool} (hs : s.Sound cfg)
    (hnone : ∀ x, s.locking.nodeTimers x = none) (c : LockedCall) : ¬c.Obstructed cfg fl met s := by
  rintro (⟨b,e,rfl,-,r,t,-,-,ht,-⟩ | ⟨i,⟨hi,-⟩,-⟩)
  · have hshows := hs.shows b.suspect.node
    rw [show s.reads (.suspect b e) = s.member by simp only [reads,hnone]] at ht
    rw [hnone,ht] at hshows
    cases hshows
  · cases (hnone _).symm.trans hi

/-- A message that finds the lock taken gets no further than its first call. -/
theorem mergeStates_waits (env : ℕ → Env) {sts : List (PushNodeState × ℕ)}
    (hfree : s.locking.pc (.worker n) = .free) (hm : s.locking.nodeMutex ≠ none) :
    let s' := sts.foldl (fun s st => s.mergeState cfg fl enabled met n (env st.2) st.1) s
    (s'.locking.pc (.worker n) = .free ↔ ∀ st ∈ sts, st.1.call cfg (env st.2) = none) ∧
      (s'.locking.pc (.worker n) = .free → s' = s) := by
  induction sts with
  | nil => simp [hfree]
  | cons st sts ih =>
    rw [List.foldl_cons]
    cases hcall : st.1.call cfg (env st.2) with
    | none =>
      have hstay : s.mergeState cfg fl enabled met n (env st.2) st.1 = s := by
        simp only [mergeState,hcall]
      rw [hstay]
      obtain ⟨hiff,hsame⟩ := ih
      exact ⟨hiff.trans (by simp [hcall]),hsame⟩
    | some c =>
      have hcalls : Tid.calls (.worker n) c.sect = true := by
        rcases (PushNodeState.call_handler hcall).2 with (h | h) | h <;> rw [h] <;> rfl
      have hpc : (s.mergeState cfg fl enabled met n (env st.2) st.1).locking.pc (.worker n) ≠
          .free := by
        simp only [mergeState,hcall,if_pos hfree]
        rw [callBy_waits met hfree hm hcalls]
        simp
      rw [mergeStates_stays met env sts hpc]
      exact ⟨iff_of_false hpc (by simp [hcall]),fun h => absurd h hpc⟩

/-- The call of thread `n` that leads from `s` to `s'` returns, and takes in every entry of
the message. -/
def Merges (n : ℕ) (pushpull : PushPull) (s s' : Host) : Prop :=
  s'.locking.pc (.worker n) = .free ∧ Absorbs pushpull.states s.member s'.member

/-- A member that is not leaving takes in everything that it is told, exactly when `nodeMutex`
is free and no call of a handler confirms an overdue suspicion or joins a thread that does not
end. The numbers of the entries leave room for an answer, with the raises that come in
between. Once the call has the lock and does not get through, it never returns. -/
theorem merge_absorbs_iff (cfg : Config) (fl : Floats) (enabled : Periodic → Bool) (leaveFd : ℤ)
    (e : Env) (evs : List HostEvent) (n : ℕ) (met : Tid → Bool) (env : ℕ → Env)
    {pushpull : PushPull}
    (hfree : (run cfg fl enabled leaveFd e evs).locking.pc (.worker n) = .free)
    (hleave : (run cfg fl enabled leaveFd e evs).member.leave = false)
    (hnames : (pushpull.states.map (·.name)).Nodup)
    (hinc : ∀ st ∈ pushpull.states.zipIdx, st.1.incarnation + Member.raises (env st.2).before +
      Member.raises (env st.2).between < 2 ^ 32 - 1)
    (haddr : ∀ st ∈ pushpull.states,
      st.AddressKnown (run cfg fl enabled leaveFd e evs).member) :
    let s := run cfg fl enabled leaveFd e evs
    let s' := s.mergeRemoteState cfg fl enabled met n env pushpull
    (Merges n pushpull s s' ↔
      ∀ st ∈ pushpull.states.zipIdx, ∀ c ∈ st.1.call cfg (env st.2),
        s.locking.nodeMutex = none ∧ ¬c.Obstructed cfg fl met s) ∧
      (s.locking.nodeMutex = none → ¬Merges n pushpull s s' → ∀ more,
        (Transitions.run (step cfg fl enabled) s' more).locking.pc (.worker n) ≠ .free) := by
  intro s s'
  have hfst : pushpull.states.zipIdx.map (·.1) = pushpull.states := List.zipIdx_map_fst 0 _
  have hmap : pushpull.states.zipIdx.map (·.1.name) = pushpull.states.map (·.name) := by
    rw [← hfst,List.map_map,hfst]
    rfl
  have hmem {st : PushNodeState × ℕ} (h : st ∈ pushpull.states.zipIdx) :
      st.1 ∈ pushpull.states := hfst ▸ List.mem_map_of_mem h
  by_cases hm : s.locking.nodeMutex = none
  · obtain ⟨hr,hcases⟩ := mergeStates_cases (s := s) met env ⟨leaveFd,e,evs,rfl⟩ hfree hm
      hleave (hmap ▸ hnames) hinc fun st h => haddr st.1 (hmem h)
    rw [hfst] at hcases
    rcases hcases with ⟨hclear,hpc,habsorbs⟩ | ⟨hclear,hstuck⟩
    · have hmerges : Merges n pushpull s s' := ⟨hpc,habsorbs⟩
      exact ⟨iff_of_true hmerges fun st h c hc => ⟨hm,hclear st h c hc⟩,
        fun _ hno => absurd hmerges hno⟩
    · refine ⟨iff_of_false (fun h => hstuck.ne_free h.1) fun hall => hclear fun st h c hc =>
        (hall st h c hc).2,fun _ _ more => (hr.stuck hstuck more).ne_free⟩
  · refine ⟨?_,fun h => absurd h hm⟩
    obtain ⟨hiff,hsame⟩ := mergeStates_waits met env
      hfree hm
    have hcalls : (∀ st ∈ pushpull.states.zipIdx, ∀ c ∈ st.1.call cfg (env st.2),
        s.locking.nodeMutex = none ∧ ¬c.Obstructed cfg fl met s) ↔
        ∀ st ∈ pushpull.states.zipIdx, st.1.call cfg (env st.2) = none := by
      refine forall_congr' fun st => forall_congr' fun _ => ?_
      simp only [hm,false_and,Option.eq_none_iff_forall_not_mem]
    rw [hcalls,← hiff]
    refine ⟨fun h => h.1,fun h => ⟨h,?_⟩⟩
    rw [show s' = s from hsame h]
    refine ⟨fun st hst => ?_,fun y _ => rfl⟩
    obtain ⟨st',hst',rfl⟩ := List.mem_map.mp (hfst.symm ▸ hst)
    have hnone := hiff.mp h st' hst'
    cases hstate : st'.1.state with
    | unrecognized v => cases s.member.find st'.1.name <;> simp [PushNodeState.Absorbed,hstate]
    | _ => simp [PushNodeState.call,hstate] at hnone

theorem merge_absorbs_three :
    let node := defaultLANConfig "node"
    let e : Env := ⟨0,0,0,0,[],[]⟩
    let s := run node .small (fun _ => true) 3 e
      (HostEvent.handled (.worker 0) (.alive (genAliveBroadcast ⟨1,"b","10.0.0.2",6666⟩) (-1) e))
    let pushpull : PushPull := ⟨false,[⟨"b","10.0.0.2",6666,2,.stateSuspect⟩,
      ⟨"node","",6666,5,.stateDead⟩,⟨"c","10.0.0.3",6666,1,.stateAlive⟩]⟩
    Merges 0 pushpull s (s.mergeRemoteState node .small (fun _ => true) (fun _ => true) 0
      (fun _ => e) pushpull) := by
  intro node e s pushpull
  refine (merge_absorbs_iff node .small (fun _ => true) 3 e _ 0 (fun _ => true) (fun _ => e)
    (by decide +kernel) (by decide +kernel) (by decide +kernel) (by decide +kernel) ?_).1.mpr
      fun _ _ c _ => ⟨by decide +kernel,not_obstructed (run_sound ..) (fun _ => rfl) c⟩
  unfold PushNodeState.AddressKnown
  decide +kernel

/-- The first entry confirms, after 15 seconds, the suspicion that another peer has
started; the entry behind it is lost. -/
theorem merge_stops :
    let node := defaultLANConfig "node"
    let e : Env := ⟨0,0,0,0,[],[]⟩
    let s := run node .small (fun _ => true) 3 e
      ((["b","c","d"].flatMap fun x =>
        HostEvent.handled (.worker 0) (.alive (genAliveBroadcast ⟨1,x,"10.0.0.2",6666⟩) (-1) e)) ++
        HostEvent.handled (.worker 0) (.suspect (genSuspectBroadcast ⟨1,"b","c"⟩) e))
    let pushpull : PushPull := ⟨false,[⟨"b","10.0.0.2",6666,1,.stateSuspect⟩,
      ⟨"x","10.0.0.9",6666,1,.stateAlive⟩]⟩
    let s' := s.mergeRemoteState node .small (fun _ => true) (fun _ => true) 0
      (fun _ => ⟨0,0,15000000,15000001,[],[]⟩) pushpull
    s.locking.pc (.worker 0) = .free ∧ s.member.leave = false ∧ s'.locking.pc (.worker 0) = .relock ∧
      s'.member.find "x" = none ∧ ¬Merges 0 pushpull s s' := by
  intro node e s pushpull s'
  have hpc : s'.locking.pc (.worker 0) = .relock := by decide +kernel
  refine ⟨by decide +kernel,by decide +kernel,hpc,by decide +kernel,fun h => ?_⟩
  cases hpc.symm.trans h.1

end Host

end GossipMemberlist
