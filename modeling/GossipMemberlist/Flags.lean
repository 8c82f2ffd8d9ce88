import GossipMemberlist.Callbacks

/-!
# The flags of the timers

`Confirm` reads the flag of a timer, and stops and restarts its thread. A flag that is
set on the side of the threads is set on the side of the member too, a confirmation
that leaves no time ends in the lock that it holds, and a confirmation that waits for
a thread had time left.
-/

namespace GossipMemberlist

namespace Locking

variable {enabled : Periodic → Bool} {s : Locking} {t : Tid} {i : ℕ}

theorem stop_running {u u' : Tid} (h : (s.stop u).running u' = true) : s.running u' = true := by
  unfold stop at h
  split at h
  · by_cases hu : u' = u
    · simp [hu] at h
    · simpa [hu] using h
  · exact h

theorem body_running {c : Section} {choice : Choice} (hi : i ≠ s.next)
    (h : (s.body t c choice).running (.suspicion i) = true) :
    s.running (.suspicion i) = true := by
  unfold body at h
  split at h
  · unfold eraseTimer at h
    split at h
    · exact h
    · exact stop_running h
  · unfold eraseTimer at h
    split at h
    · exact h
    · exact stop_running h
  · split at h
    · next j _ =>
      unfold confirm at h
      split at h
      · next hr =>
        by_cases hij : i = j
        · rw [hij]
          exact hr
        · have hflag : (s.stop (.suspicion j)).running (.suspicion i) = true := by
            simpa [goto,flag,hij] using h
          exact stop_running hflag
      · exact h
    · simpa [newSuspicion,goto,spawn,flag,hi] using h
  · split at h
    · unfold confirmLate at h
      split at h
      · exact stop_running h
      · exact h
    · exact h
  · exact h
  · split at h <;> exact h
  · exact h

theorem joined_running {c : Section} {u : Tid}
    (h : (s.joined t c u).running (.suspicion i) = true) : s.running (.suspicion i) = true := by
  unfold joined at h
  split at h <;> exact h

theorem step_running {m : Move} (hi : i ≠ s.next)
    (h : (s.step enabled m).running (.suspicion i) = true) : s.running (.suspicion i) = true := by
  obtain ⟨t,choice⟩ := m
  unfold step at h
  cases hpc : s.pc t with
  | inside c =>
    simp only [hpc] at h
    exact body_running hi h
  | join c u =>
    simp only [hpc] at h
    split at h
    · exact joined_running h
    · exact h
  | finish =>
    simp only [hpc] at h
    by_cases ht : t = .suspicion i
    · subst ht
      simp [goto] at h
    · simpa [goto,Ne.symm ht] using h
  | deschedule ps =>
    cases ps with
    | nil =>
      simp only [hpc] at h
      exact h
    | cons p ps =>
      simp only [hpc] at h
      split at h
      · exact stop_running h
      · exact h
  | _ =>
    simp only [hpc] at h
    repeat' split at h
    all_goals exact h

theorem step_fresh {m : Move} {x : String} (h : (s.step enabled m).nodeTimers x = some i) :
    s.nodeTimers x = some i ∨ s.nodeTimers x = none ∧ i = s.next := by
  obtain ⟨t,choice⟩ := m
  by_cases hinside : ∃ c, s.pc t = .inside c
  · obtain ⟨c,hpc⟩ := hinside
    rw [step_inside hpc] at h
    unfold body at h
    split at h
    · unfold eraseTimer at h
      split at h
      · exact Or.inl h
      · exact Or.inl (by rwa [goto,stop_nodeTimers] at h)
    · unfold eraseTimer at h
      split at h
      · exact Or.inl h
      · exact Or.inl (by rwa [goto,stop_nodeTimers] at h)
    · split at h
      · unfold confirm at h
        split at h
        · exact Or.inl (by rwa [goto,flag,stop_nodeTimers] at h)
        · exact Or.inl h
      · next y _ hy =>
        have h : Function.update s.nodeTimers y (some s.next) x = some i := h
        by_cases hx : x = y
        · subst hx
          rw [Function.update_self] at h
          exact Or.inr ⟨hy,(Option.some.inj h).symm⟩
        · rw [Function.update_of_ne hx] at h
          exact Or.inl h
    · split at h
      · unfold confirmLate at h
        split at h
        · exact Or.inl (by rwa [goto,stop_nodeTimers] at h)
        · exact Or.inl h
      · exact Or.inl h
    · exact Or.inl h
    · split at h <;> exact Or.inl h
    · exact Or.inl h
  · by_cases hjoin : ∃ c u, s.pc t = .join c u
    · obtain ⟨c,u,hpc⟩ := hjoin
      have herase {y : String} (h : Function.update s.nodeTimers y none x = some i) :
          s.nodeTimers x = some i := by
        by_cases hx : x = y
        · simp [hx] at h
        · simpa [hx] using h
      by_cases hended : s.pc u = .ended
      · rw [step_join hpc hended] at h
        unfold joined at h
        split at h
        · exact Or.inl (herase h)
        · exact Or.inl (herase h)
        all_goals exact Or.inl h
      · simp only [step,hpc,if_neg hended] at h
        exact Or.inl h
    · rw [step_nodeTimers (not_exists.mp hinside)
        (fun c => not_exists.mp (not_exists.mp hjoin c))] at h
      exact Or.inl h

end Locking

namespace LockedCall

variable {cfg : Config} {fl : Floats} {m : Member}

def Late (cfg : Config) (fl : Floats) (c : LockedCall) (m : Member) : Prop :=
  m.deadlocked = false ∧ (c.apply cfg fl m).deadlocked = true

theorem late_congr (c : LockedCall) {m' : Member} (hm : m.Sound cfg) (hm' : m'.Sound cfg)
    (htable : m'.table = m.table) (htimers : m'.nodeTimers = m.nodeTimers)
    (hd : m'.deadlocked = m.deadlocked) : c.Late cfg fl m' ↔ c.Late cfg fl m := by
  have hno {x : String} (hx : c.sect.Erases x) : c.Late cfg fl m' ↔ c.Late cfg fl m := by
    rw [Late,Late,apply_deadlocked hx hm,apply_deadlocked hx hm',hd]
  cases c with
  | alive b notifyFd e => exact hno (Or.inl rfl)
  | dead b e => exact hno (Or.inr rfl)
  | suspect b e =>
    have hoverdue (m : Member) : Late cfg fl (.suspect b e) m ↔ m.Overdue fl e.now b.suspect :=
      Member.relocks_iff_overdue cfg fl e b m
    rw [hoverdue,hoverdue,Member.Overdue,Member.Overdue,Member.find,Member.find,htable,htimers,hd]
  | probe numCheck shuffled =>
    have hsame (m : Member) :
        (apply cfg fl m (.probe numCheck shuffled)).deadlocked = m.deadlocked := by
      simp only [apply,Member.probeSection]
      repeat' split
      all_goals rfl
    simp only [Late,hsame,hd]
  | read => simp only [Late,apply,hd]
  | shutDown => simp only [Late,apply,hd]

theorem late_suspect {c : LockedCall} (hm : m.Sound cfg) (h : c.Late cfg fl m) :
    c.sect = .suspectNode c.name ∧ ∃ timer, m.nodeTimers c.name = some timer ∧
      timer.running = true := by
  have hno (hsame : (c.apply cfg fl m).deadlocked = m.deadlocked) : False := by
    have h' := h.2
    rw [hsame,h.1] at h'
    cases h'
  cases c with
  | suspect b e =>
    obtain ⟨-,r,timer,-,-,ht,-,-,hr,-⟩ := (Member.relocks_iff_overdue cfg fl e b m).mp h
    exact ⟨rfl,timer,ht,hr⟩
  | alive b notifyFd e => exact (hno (apply_deadlocked (Or.inl rfl) hm)).elim
  | dead b e => exact (hno (apply_deadlocked (Or.inr rfl) hm)).elim
  | probe numCheck shuffled =>
    refine (hno ?_).elim
    simp only [apply,Member.probeSection]
    repeat' split
    all_goals rfl
  | _ => exact (hno rfl).elim

/-- No timer of `m'` has a flag that is clear for a timer in `m`. -/
def Rises (m m' : Member) : Prop :=
  ∀ x timer', m'.nodeTimers x = some timer' → (m.nodeTimers x = none → timer'.running = true) ∧
    ∀ timer, m.nodeTimers x = some timer → timer.running = true → timer'.running = true

theorem Rises.of_eq {m' : Member} (h : m'.nodeTimers = m.nodeTimers) : Rises m m' := by
  intro x timer' ht
  rw [h] at ht
  refine ⟨fun hnone => (by cases hnone.symm.trans ht),fun timer ht' hr => ?_⟩
  cases ht.symm.trans ht'
  exact hr

theorem Rises.of_update {m' : Member} {y : String} {timer : Option Suspicion}
    (h : m'.nodeTimers = Function.update m.nodeTimers y timer)
    (hy : ∀ timer', timer = some timer' → (m.nodeTimers y = none → timer'.running = true) ∧
      ∀ timer, m.nodeTimers y = some timer → timer.running = true → timer'.running = true) :
    Rises m m' := by
  intro x timer' ht
  rw [h] at ht
  by_cases hx : x = y
  · subst hx
    rw [Function.update_self] at ht
    exact hy timer' ht
  · rw [Function.update_of_ne hx] at ht
    exact Rises.of_eq rfl x timer' ht

theorem confirm_rises {timer : Suspicion} {now : ℤ} {from_ : String}
    (hr : timer.running = true) (h : (timer.confirm fl now from_).2 ≠ .callsBack) :
    (timer.confirm fl now from_).1.running = true := by
  rcases Suspicion.confirm_cases fl now from_ timer with ⟨-,he⟩ | ⟨-,⟨-,he⟩ | ⟨-,-,he⟩ | ⟨-,-,he⟩⟩
  · rw [he]
    exact hr
  · rw [he]
    exact hr
  · rw [he]
    exact hr
  · exact absurd (by rw [he]) h

theorem apply_rises (c : LockedCall) (h : ¬c.Late cfg fl m) :
    Rises m (c.apply cfg fl m) := by
  cases c with
  | alive b notifyFd e =>
    rcases Member.aliveNode_timers cfg m e b false notifyFd with h | h
    · exact .of_eq h
    · exact .of_update h fun timer' ht => by cases ht
  | dead b e =>
    rcases Member.deadNode_timers cfg m e b with h | h
    · exact .of_eq h
    · exact .of_update h fun timer' ht => by cases ht
  | suspect b e =>
    have hexit : Member.SuspectExit cfg fl e b.suspect m _ := Member.suspectNode_exit m e b
    have h : ¬m.Relocks (m.suspectNode cfg fl e b) := h
    show Rises m (m.suspectNode cfg fl e b)
    generalize m.suspectNode cfg fl e b = m' at h hexit ⊢
    cases hexit with
    | @confirmed r timer hd hr hle ht =>
      obtain ⟨q,d,hconfirm,-⟩ := Member.confirmTimer_frame fl e b.suspect timer m
      refine .of_update (by rw [hconfirm]) fun timer' ht' => ⟨fun hnone => ?_,fun t₀ ht₀ hr₀ => ?_⟩
      · cases hnone.symm.trans ht
      · cases ht.symm.trans ht₀
        cases ht'
        refine confirm_rises hr₀ fun hback => h ⟨hd,?_⟩
        exact (Member.confirmTimer_deadlocked hd e b.suspect timer).mpr hback
    | refuted _ hr =>
      obtain ⟨_,_,_,_,_,hrefute⟩ := Member.refute_frame cfg e b.suspect.incarnation hr
      exact .of_eq (by rw [hrefute])
    | suspected _ _ _ _ hnone =>
      refine .of_update rfl fun timer' ht' => ⟨fun _ => ?_,fun t₀ ht₀ => ?_⟩
      · cases ht'
        rfl
      · cases hnone.symm.trans ht₀
    | _ => exact .of_eq rfl
  | probe numCheck shuffled =>
    refine .of_eq ?_
    simp only [apply,Member.probeSection]
    repeat' split
    all_goals rfl
  | _ => exact .of_eq rfl

end LockedCall

/-- A flag that is set on the side of the threads is set on the side of the member. -/
def Locking.Flags (l : Locking) (m : Member) : Prop :=
  ∀ x i timer, l.nodeTimers x = some i → m.nodeTimers x = some timer →
    l.running (.suspicion i) = true → timer.running = true

theorem Locking.Flags.step {enabled : Periodic → Bool} {l : Locking} {m m' : Member}
    (h : l.Flags m) (hl : l.Attached) (hshows : l.Shows m) (hrises : LockedCall.Rises m m')
    (mv : Move) : (l.step enabled mv).Flags m' := by
  intro x i timer hi ht hr
  rcases Locking.step_fresh hi with hi | ⟨hnone,rfl⟩
  · have hr := Locking.step_running (Nat.ne_of_lt (hl.named x i hi).2) hr
    have hx := hshows x
    rw [hi] at hx
    obtain ⟨timer₀,ht₀⟩ := Option.isSome_iff_exists.mp hx.symm
    exact (hrises x timer ht).2 timer₀ ht₀ (h x i timer₀ hi ht₀ hr)
  · have hx := hshows x
    rw [hnone] at hx
    exact (hrises x timer ht).1 (Option.isNone_iff_eq_none.mp (by simpa using hx.symm))

namespace Host

variable {cfg : Config} {fl : Floats} {enabled : Periodic → Bool} {s : Host} {t : Tid}

/-- The flags agree, a thread that joins was in time, and a member whose lock is stuck has a
thread that waits for itself. -/
structure Flagged (cfg : Config) (fl : Floats) (s : Host) : Prop where
  flags : s.locking.Flags s.member
  early : ∀ t c u, s.locking.pc t = .join c u → ¬(s.doing t).Late cfg fl s.member
  locked : s.member.deadlocked = true → ∃ t, s.locking.pc t = .relock

theorem Sound.reads_sound (hs : s.Sound cfg) (c : LockedCall) : (s.reads c).Sound cfg := by
  let p : Process := { Process.start cfg 0 ⟨0,0,0,0,[],[]⟩ with member := s.member }
  obtain ⟨ops,hops⟩ := reads_process cfg .small s c p rfl
  rw [← hops]
  exact Transitions.run_invariant (P := fun p : Process => p.member.Sound cfg)
    hs.settled.toSound (fun _ op hp => Process.next_sound hp op) ops

theorem reads_flags (h : s.locking.Flags s.member) (c : LockedCall) :
    s.locking.Flags (s.reads c) := by
  cases c with
  | suspect b e =>
    simp only [reads]
    split
    · next i timer hi ht =>
      split
      · exact h
      · next hr =>
        intro x j timer' hj ht' hr'
        by_cases hx : x = b.suspect.node
        · subst hx
          cases hi.symm.trans hj
          exact absurd hr' hr
        · exact h x j timer' hj (by simpa [Member.setTimer,hx] using ht') hr'
    · exact h
  | _ => exact h

theorem reads_running {b : Broadcast} {e : Env} {i : ℕ} {timer : Suspicion}
    (hi : s.locking.nodeTimers b.suspect.node = some i)
    (ht : (s.reads (.suspect b e)).nodeTimers b.suspect.node = some timer)
    (hr : timer.running = true) : s.locking.running (.suspicion i) = true := by
  by_contra hno
  have hreads : ∀ timer₀, s.member.nodeTimers b.suspect.node = some timer₀ →
      s.reads (.suspect b e) =
        s.member.setTimer b.suspect.node (some { timer₀ with running := false }) := by
    intro timer₀ ht₀
    simp only [reads,hi,ht₀]
    exact if_neg hno
  have hsome := (reads_frame s (.suspect b e)).2.2 b.suspect.node
  rw [ht] at hsome
  obtain ⟨timer₀,ht₀⟩ := Option.isSome_iff_exists.mp hsome.symm
  rw [hreads timer₀ ht₀] at ht
  simp only [Member.setTimer,Function.update_self,Option.some.injEq] at ht
  rw [← ht] at hr
  cases hr

theorem reads_shows (h : s.locking.Shows s.member) (c : LockedCall) :
    s.locking.Shows (s.reads c) := fun y => (h y).trans ((reads_frame s c).2.2 y).symm

theorem body_cases (s : Host) (t : Tid) :
    let m := s.reads (s.doing t)
    let m' := (s.doing t).apply cfg fl m
    (s.body cfg fl enabled t).locking = s.locking.step enabled ⟨t,choice (s.doing t) m m'⟩ ∧
      (s.body cfg fl enabled t).doing = s.doing ∧
      ((∃ c u, (s.body cfg fl enabled t).locking.pc t = .join c u ∧
          (s.body cfg fl enabled t).member = m) ∨
        (∀ c u, (s.body cfg fl enabled t).locking.pc t ≠ .join c u) ∧
          (s.body cfg fl enabled t).member = m') := by
  intro m m'
  simp only [body]
  split
  · next c u hpc => exact ⟨rfl,rfl,Or.inl ⟨c,u,hpc,rfl⟩⟩
  · next hpc => exact ⟨rfl,rfl,Or.inr ⟨hpc,rfl⟩⟩

/-- A late confirmation ends in `relock`. -/
theorem Sound.body_late (hs : s.Sound cfg)
    (hlate : (s.doing t).Late cfg fl (s.reads (s.doing t)))
    (hpc : s.locking.pc t = .inside (s.doing t).sect) :
    ∃ i, s.locking.nodeTimers (s.doing t).name = some i ∧
      s.locking.running (.suspicion i) = true ∧
      (s.body cfg fl enabled t).locking = (s.locking.stop (.suspicion i)).goto t .relock ∧
      (s.body cfg fl enabled t).member =
        (s.doing t).apply cfg fl (s.reads (s.doing t)) := by
  obtain ⟨hsect,timer,ht,hr⟩ := LockedCall.late_suspect (hs.reads_sound _) hlate
  have hx := reads_shows hs.shows (s.doing t) (s.doing t).name
  rw [ht] at hx
  obtain ⟨i,hi⟩ := Option.isSome_iff_exists.mp hx
  have hrun : s.locking.running (.suspicion i) = true := by
    cases hd : s.doing t with
    | suspect b e =>
      rw [hd] at hi ht
      exact reads_running hi ht hr
    | _ => rw [hd] at hsect; cases hsect
  have hchoice : choice (s.doing t) (s.reads (s.doing t))
      ((s.doing t).apply cfg fl (s.reads (s.doing t))) = .late := if_pos hlate
  rw [hsect] at hpc
  have hbody : s.locking.body t (.suspectNode (s.doing t).name) .late =
      (s.locking.stop (.suspicion i)).goto t .relock := by
    simp only [Locking.body,hi,Locking.confirmLate,if_pos hrun]
  obtain ⟨hl,-,h⟩ := body_cases s t
  rw [hchoice,Locking.step_inside hpc,hbody] at hl
  refine ⟨i,hi,hrun,hl,?_⟩
  rcases h with ⟨c,u,hjoin,-⟩ | ⟨-,hm⟩
  · rw [hl,Locking.goto_pc_self] at hjoin
    cases hjoin
  · exact hm

theorem start_flagged (cfg : Config) (fl : Floats) (enabled : Periodic → Bool) (leaveFd : ℤ)
    (e : Env) : (start cfg enabled leaveFd e).Flagged cfg fl where
  flags x i timer h := by cases h
  early t c u h := by
    have hs := start_sound cfg enabled leaveFd e
    have hpc : ((Locking.initial enabled).pc t).sect ≠ some c := by
      cases t with
      | periodic p => cases hp : enabled p <;> simp [Locking.initial,hp,Pc.sect]
      | _ => simp [Locking.initial,Pc.sect]
    exact absurd (by rw [show (Locking.initial enabled).pc t = _ from h]; rfl) hpc
  locked h := by
    obtain ⟨-,-,-,-,hd⟩ := Process.start_locals cfg leaveFd e
    cases hd.symm.trans h

theorem Sound.relock_sole (hs : s.Sound cfg) (hholds : (s.locking.pc t).Holds) {t' : Tid}
    (h : s.locking.pc t' = .relock) : s.locking.pc t = .relock := by
  by_contra hne
  have ht : t' ≠ t := by
    rintro rfl
    exact hne h
  exact hs.attached.sole hholds ht (by rw [h]; trivial)

theorem Flagged.early_step (h : s.Flagged cfg fl) {s' : Host} {choice : Choice}
    (hs : s.Sound cfg) (hs' : s'.Sound cfg) (hm : Moved enabled t choice s s')
    (hmember : ¬(s.locking.pc t).Holds → s'.member = s.member)
    (hself : ∀ x u, s'.locking.pc t = .join (.suspectNode x) u →
      ¬(s'.doing t).Late cfg fl s'.member) {t' : Tid} {c : Section} {u : Tid}
    (hjoin : s'.locking.pc t' = .join c u) : ¬(s'.doing t').Late cfg fl s'.member := by
  intro hlate
  obtain ⟨hsect,-⟩ := LockedCall.late_suspect hs'.settled.toSound hlate
  have hc : (s'.doing t').sect = c := by
    refine hs'.doing t' c (by rw [hjoin]; rfl) ?_
    rintro rfl
    exact hs'.attached.joining t' .check u hjoin
  by_cases ht : t' = t
  · subst ht
    rw [← hc,hsect] at hjoin
    exact hself _ u hjoin hlate
  · have hbefore : s.locking.pc t' = .join c u := by
      rw [hm.locking] at hjoin
      rcases Locking.step_other enabled s.locking ⟨t,choice⟩ ht with hpc | hpc
      · exact hpc.symm.trans hjoin
      · cases hpc.symm.trans hjoin
    have hout : ¬(s.locking.pc t).Holds :=
      hs.attached.sole (show (s.locking.pc t').Holds by rw [hbefore]; trivial) (Ne.symm ht)
    rw [hm.others t' ht,hmember hout] at hlate
    exact h.early t' c u hbefore hlate

theorem Flagged.still (h : s.Flagged cfg fl) {s' : Host} {choice : Choice} (hs : s.Sound cfg)
    (hs' : s'.Sound cfg) (hm : Moved enabled t choice s s') (hmember : s'.member = s.member)
    (hrelock : s.locking.pc t ≠ .relock) (hinside : ∀ x, s.locking.pc t ≠ .inside (.suspectNode x)) :
    s'.Flagged cfg fl where
  flags := by
    rw [hm.locking,hmember]
    exact h.flags.step hs.attached hs.shows (.of_eq rfl) _
  early t' c u hjoin := by
    refine h.early_step hs hs' hm (fun _ => hmember) (fun x u hjoin => ?_) hjoin
    rw [hm.locking] at hjoin
    rcases hs.attached.before_join (by simp) hjoin with hpc | hpc
    · exact absurd hpc (hinside x)
    · rw [hm.same (by simp [hpc]) (by simp [hpc]),hmember]
      exact h.early t _ _ hpc
  locked hd := by
    rw [hmember] at hd
    obtain ⟨t₀,ht₀⟩ := h.locked hd
    have hne : t₀ ≠ t := by
      rintro rfl
      exact hrelock ht₀
    have hout : ¬(s.locking.pc t).Holds := fun hh => hrelock (hs.relock_sole hh ht₀)
    refine ⟨t₀,?_⟩
    rw [hm.locking,Locking.step_still enabled (fun c hc => hout (by rw [hc]; trivial))
      (fun c u hc => hout (by rw [hc]; trivial)) hne]
    exact ht₀

theorem Flagged.free (h : s.Flagged cfg fl) (hs : s.Sound cfg) (hholds : (s.locking.pc t).Holds)
    (hrelock : s.locking.pc t ≠ .relock) : s.member.deadlocked = false := by
  by_contra hd
  obtain ⟨t₀,ht₀⟩ := h.locked (by simpa using hd)
  exact hrelock (hs.relock_sole hholds ht₀)

theorem Flagged.body (h : s.Flagged cfg fl) (hs : s.Sound cfg)
    (hs' : (s.body cfg fl enabled t).Sound cfg) {c : Section} (hpc : s.locking.pc t = .inside c)
    (hc : c ≠ .check) : (s.body cfg fl enabled t).Flagged cfg fl := by
  have hsect : (s.doing t).sect = c := hs.doing t c (by rw [hpc]; rfl) hc
  have hpc' : s.locking.pc t = .inside (s.doing t).sect := by rw [hpc,hsect]
  have hholds : (s.locking.pc t).Holds := by
    rw [hpc]
    trivial
  have hfree : s.member.deadlocked = false := h.free hs hholds (by simp [hpc])
  obtain ⟨hl,hdoing,hm⟩ := body_cases s t
  obtain ⟨choice',hmoved⟩ := moved_body hpc
    fun i _ => hc
  have hflags := reads_flags h.flags (s.doing t)
  have hshows := reads_shows hs.shows (s.doing t)
  by_cases hlate : (s.doing t).Late cfg fl (s.reads (s.doing t))
  · obtain ⟨i,hi,hr,hl',hm'⟩ := hs.body_late hlate hpc'
    refine ⟨?_,fun t' c u hjoin => ?_,fun _ => ⟨t,by rw [hl',Locking.goto_pc_self]⟩⟩
    · intro x j timer hj ht hr'
      rw [hl'] at hj hr'
      rw [hm'] at ht
      have hj : s.locking.nodeTimers x = some j := by rwa [← Locking.stop_nodeTimers]
      have hrun : (s.locking.stop (.suspicion i)).running (.suspicion j) = true := hr'
      by_cases hx : x = (s.doing t).name
      · subst hx
        cases hi.symm.trans hj
        simp [Locking.stop,hr] at hrun
      · refine hflags x j timer hj ?_ (Locking.stop_running hrun)
        rcases LockedCall.apply_nodeTimers (s.doing t)
          (s.reads (s.doing t)) with happly | ⟨timer',happly,-⟩
        · rwa [happly] at ht
        · rwa [happly,Function.update_of_ne hx] at ht
    · refine h.early_step hs hs' hmoved (fun hout => absurd hholds hout) (fun x u hjoin => ?_) hjoin
      rw [hl',Locking.goto_pc_self] at hjoin
      cases hjoin
  · have hrises : LockedCall.Rises (s.reads (s.doing t)) (s.body cfg fl enabled t).member := by
      rcases hm with ⟨-,-,-,hm⟩ | ⟨-,hm⟩
      · exact .of_eq (by rw [hm])
      · rw [hm]
        exact LockedCall.apply_rises (s.doing t) hlate
    have hreads : (s.reads (s.doing t)).deadlocked = false :=
      (reads_frame s (s.doing t)).2.1.trans hfree
    refine ⟨?_,fun t' c u hjoin => ?_,fun hd => ?_⟩
    · rw [hl]
      exact hflags.step hs.attached hshows hrises _
    · refine h.early_step hs hs' hmoved (fun hout => absurd hholds hout) (fun x u hjoin => ?_) hjoin
      rcases hm with ⟨-,-,-,hm⟩ | ⟨hno,-⟩
      · rw [hdoing,hm]
        exact hlate
      · exact absurd hjoin (hno _ _)
    · rcases hm with ⟨-,-,-,hm⟩ | ⟨-,hm⟩
      · rw [hm,hreads] at hd
        cases hd
      · rw [hm] at hd
        exact absurd ⟨hreads,hd⟩ hlate

theorem Flagged.joined (h : s.Flagged cfg fl) (hs : s.Sound cfg) {choice : Choice} {e : Env}
    {c : Section} {u : Tid} (hpc : s.locking.pc t = .join c u) (hended : s.locking.pc u = .ended)
    (hs' : (s.step cfg fl enabled (.go t choice e)).Sound cfg) :
    (s.step cfg fl enabled (.go t choice e)).Flagged cfg fl := by
  have hstep : s.step cfg fl enabled (.go t choice e) =
      { s.move enabled ⟨t,choice⟩ with member := (s.doing t).apply cfg fl s.member } := by
    simp only [Host.step,hpc,if_pos hended]
  have hholds : (s.locking.pc t).Holds := by
    rw [hpc]
    trivial
  have hfree : s.member.deadlocked = false := h.free hs hholds (by simp [hpc])
  have hearly := h.early t c u hpc
  have hmoved : Moved enabled t choice s (s.step cfg fl enabled (.go t choice e)) :=
    hstep ▸ moved_joined hpc choice
  have hmember : (s.step cfg fl enabled (.go t choice e)).member =
      (s.doing t).apply cfg fl s.member := by
    rw [hstep]
  refine ⟨?_,fun t' c' u' hjoin => ?_,fun hd => absurd ⟨hfree,hmember ▸ hd⟩ hearly⟩
  · rw [hmoved.locking,hmember]
    exact h.flags.step hs.attached hs.shows (LockedCall.apply_rises (s.doing t) hearly) _
  · refine h.early_step hs hs' hmoved (fun hout => absurd hholds hout) (fun x v hjoin => ?_) hjoin
    rw [hmoved.locking] at hjoin
    rcases hs.attached.before_join (by simp) hjoin with h' | h'
    · cases hpc.symm.trans h'
    · cases hpc.symm.trans h'
      rw [Locking.step_join hpc hended] at hjoin
      cases (Locking.goto_pc_self _).symm.trans hjoin

theorem Flagged.step (h : s.Flagged cfg fl) (hs : s.Sound cfg) (ev : HostEvent)
    (hs' : (s.step cfg fl enabled ev).Sound cfg) :
    (s.step cfg fl enabled ev).Flagged cfg fl := by
  cases ev with
  | aside o =>
    obtain ⟨htable,htimers,hd⟩ := o.apply_frame cfg fl s.member
    refine ⟨fun x i timer hi ht hr => ?_,fun t c u hjoin => ?_,fun hd' => ?_⟩
    · have ht : (o.apply cfg fl s.member).nodeTimers x = some timer := ht
      rw [htimers] at ht
      exact h.flags x i timer hi ht hr
    · have hlate : (s.doing t).Late cfg fl (o.apply cfg fl s.member) ↔
          (s.doing t).Late cfg fl s.member :=
        (s.doing t).late_congr hs.settled.toSound hs'.settled.toSound htable htimers hd
      exact fun h' => h.early t c u hjoin (hlate.mp h')
    · have hd' : (o.apply cfg fl s.member).deadlocked = true := hd'
      rw [hd] at hd'
      exact h.locked hd'
  | call t c =>
    by_cases hcall : s.locking.pc t = .free ∧ t.calls c.sect = true
    · have hmoved : Moved enabled t (.call c.sect) s (s.step cfg fl enabled (.call t c)) :=
        moved_call hcall.1 hcall.2
      exact h.still hs hs' hmoved (hmoved.member (by simp [hcall.1,Pc.Holds])) (by simp [hcall.1])
        (by simp [hcall.1])
    · rw [Host.step,if_neg hcall]
      exact h
  | go t choice e =>
    have hstep {s' : Host} (heq : s.step cfg fl enabled (.go t choice e) = s')
        (hmember : s'.member = s.member) (hrelock : s.locking.pc t ≠ .relock)
        (hinside : ∀ x, s.locking.pc t ≠ .inside (.suspectNode x)) : s'.Flagged cfg fl := by
      subst heq
      rcases hs.go_cases t choice e with h' | ⟨choice',hmoved⟩
      · rw [h']
        exact h
      · exact h.still hs hs' hmoved hmember hrelock hinside
    cases hpc : s.locking.pc t with
    | inside c =>
      by_cases hc : c = .check
      · subst hc
        obtain ⟨i,rfl⟩ := hs.checks t (by rw [hpc]; rfl)
        obtain ⟨-,-,hm⟩ := hs.moved_check i e hpc
        have heq : s.step cfg fl enabled (.go (.suspicion i) choice e) =
            s.check cfg enabled i e := by
          simp only [Host.step,hpc,inside]
        rw [heq]
        exact hstep heq hm (by simp [hpc]) (by simp [hpc])
      · have heq : s.step cfg fl enabled (.go t choice e) = s.body cfg fl enabled t := by
          simp only [Host.step,hpc]
          cases c <;> first | rfl | exact absurd rfl hc
        rw [heq] at hs' ⊢
        exact h.body hs hs' hpc hc
    | join c u =>
      by_cases hended : s.locking.pc u = .ended
      · exact h.joined hs hpc hended hs'
      · have heq : s.step cfg fl enabled (.go t choice e) = s := by
          simp only [Host.step,hpc,if_neg hended]
        rw [heq]
        exact h
    | relock =>
      have heq : s.step cfg fl enabled (.go t choice e) = s := by
        simp only [Host.step,hpc,move,Locking.step]
      rw [heq]
      exact h
    | free =>
      refine hstep rfl ?_ (by simp [hpc]) (by simp [hpc])
      simp only [Host.step,hpc]
      split <;> rfl
    | _ =>
      refine hstep rfl ?_ (by simp [hpc]) (by simp [hpc])
      simp only [Host.step,hpc]
      rfl

theorem run_flagged (cfg : Config) (fl : Floats) (enabled : Periodic → Bool) (leaveFd : ℤ)
    (e : Env) (evs : List HostEvent) : (run cfg fl enabled leaveFd e evs).Flagged cfg fl := by
  refine Transitions.run_history
    (s := start cfg enabled leaveFd e) (P := fun _ s => s.Flagged cfg fl)
    (start_flagged cfg fl enabled leaveFd e) (fun evs ev h => ?_) evs
  have hs := run_sound cfg fl enabled leaveFd e evs
  have hs' := run_sound cfg fl enabled leaveFd e (evs ++ [ev])
  rw [run,Transitions.run_snoc] at hs'
  exact h.step hs ev hs'

end Host

end GossipMemberlist
