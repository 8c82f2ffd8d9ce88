import GossipMemberlist.Accusations
import GossipMemberlist.Host

/-!
# The threads and the records

In every run of a member with its lock, its threads and its timers, `nodeTimers` is
the same on both sides, and a thread that joins has a call behind it that erases. The
thread of a suspicion gets nothing done: as long as it runs, the timer is its own,
and erasing it there means to join itself.
-/

namespace GossipMemberlist

def Section.Erases (x : String) (c : Section) : Prop := c = .aliveNode x ∨ c = .deadNode x

namespace Locking

variable {enabled : Periodic → Bool} {s : Locking} {t : Tid}

theorem step_inside {c : Section} (hpc : s.pc t = .inside c) (choice : Choice) :
    s.step enabled ⟨t,choice⟩ = s.body t c choice := by
  simp only [step,hpc]

theorem step_join {c : Section} {u : Tid} (hpc : s.pc t = .join c u) (hended : s.pc u = .ended)
    (choice : Choice) : s.step enabled ⟨t,choice⟩ = s.joined t c u := by
  simp only [step,hpc,if_pos hended]

theorem body_go {c : Section} (hc : c ≠ .shutDown) :
    s.body t c .go = s.goto t (.unlock false) := by
  cases c with
  | shutDown => exact absurd rfl hc
  | _ => rfl

theorem body_erase {c : Section} {x : String} (hc : c.Erases x) :
    s.body t c .act = s.eraseTimer t c x := by
  rcases hc with rfl | rfl <;> rfl

theorem step_nodeTimers (hinside : ∀ c, s.pc t ≠ .inside c) (hjoin : ∀ c u, s.pc t ≠ .join c u)
    (choice : Choice) : (s.step enabled ⟨t,choice⟩).nodeTimers = s.nodeTimers := by
  unfold step
  cases hpc : s.pc t with
  | inside c => exact absurd hpc (hinside c)
  | join c u => exact absurd hpc (hjoin c u)
  | deschedule ps =>
    cases ps with
    | nil =>
      simp only [hpc]
      rfl
    | cons p ps =>
      simp only [hpc]
      split
      · exact stop_nodeTimers _ s
      · rfl
  | _ =>
    simp only [hpc]
    repeat' split
    all_goals rfl

theorem body_nodeTimers {c : Section} (hc : c = .plain ∨ c = .check ∨ c = .shutDown)
    (choice : Choice) : (s.body t c choice).nodeTimers = s.nodeTimers := by
  rcases hc with rfl | rfl | rfl
  · rfl
  · rfl
  · simp only [body]
    split <;> rfl

end Locking

namespace LockedCall

variable {cfg : Config} {fl : Floats}

theorem apply_nodeTimers (c : LockedCall) (m : Member) :
    (c.apply cfg fl m).nodeTimers = m.nodeTimers ∨
      ∃ timer, (c.apply cfg fl m).nodeTimers = Function.update m.nodeTimers c.name timer ∧
        (c.sect.Erases c.name ∧ timer = none ∨
          c.sect = .suspectNode c.name ∧ timer.isSome = true) := by
  cases c with
  | alive b notifyFd e =>
    exact (Member.aliveNode_timers cfg m e b false notifyFd).imp_right fun h =>
      ⟨none,h,Or.inl ⟨Or.inl rfl,rfl⟩⟩
  | dead b e =>
    exact (Member.deadNode_timers cfg m e b).imp_right fun h =>
      ⟨none,h,Or.inl ⟨Or.inr rfl,rfl⟩⟩
  | suspect b e =>
    have h : Member.SuspectExit cfg fl e b.suspect m _ := Member.suspectNode_exit m e b
    show (m.suspectNode cfg fl e b).nodeTimers = _ ∨ _
    simp only [apply]
    generalize m.suspectNode cfg fl e b = m' at h ⊢
    cases h with
    | @confirmed r t _ _ _ ht =>
      obtain ⟨q,d,h,-⟩ := Member.confirmTimer_frame fl e b.suspect t m
      rw [h]
      exact Or.inr ⟨_,rfl,Or.inr ⟨rfl,rfl⟩⟩
    | refuted _ hr =>
      obtain ⟨_,_,_,_,_,h⟩ := Member.refute_frame cfg e b.suspect.incarnation hr
      exact Or.inl (by rw [h])
    | suspected => exact Or.inr ⟨_,rfl,Or.inr ⟨rfl,rfl⟩⟩
    | _ => exact Or.inl rfl
  | probe numCheck shuffled =>
    refine Or.inl ?_
    simp only [apply,Member.probeSection]
    repeat' split
    all_goals rfl
  | _ => exact Or.inl rfl

theorem late_timer {c : LockedCall} {x : String} (hc : c.sect = .suspectNode x) {m : Member}
    (h : m.deadlocked = false ∧ (c.apply cfg fl m).deadlocked = true) :
    m.nodeTimers x ≠ none := by
  cases c with
  | suspect b e =>
    obtain rfl : b.suspect.node = x := Section.suspectNode.inj hc
    obtain ⟨-,r,timer,-,-,ht,-⟩ := (Member.relocks_iff_overdue cfg fl e b m).mp h
    simp [ht]
  | _ => cases hc

theorem apply_deadlocked {c : LockedCall} {x : String} (hc : c.sect.Erases x) {m : Member}
    (hm : m.Sound cfg) : (c.apply cfg fl m).deadlocked = m.deadlocked := by
  cases c with
  | alive b notifyFd e => exact Member.aliveNode_deadlocked hm e b notifyFd
  | dead b e => exact Member.deadNode_deadlocked cfg m e b
  | _ => rcases hc with h | h <;> cases h

theorem erases_name {c : LockedCall} {x : String} (hc : c.sect.Erases x) : c.name = x := by
  cases c <;> rcases hc with h | h <;> cases h <;> rfl

theorem erase_timer {c : LockedCall} {x : String} (hc : c.sect.Erases x) {m : Member}
    (hm : m.Settled cfg) (ht : m.nodeTimers x ≠ none) :
    (c.Reaches cfg m ∧ (c.apply cfg fl m).nodeTimers x = none) ∨
      ¬c.Reaches cfg m ∧ c.apply cfg fl m = m := by
  cases c with
  | alive b notifyFd e =>
    obtain rfl : b.alive.node = x := erases_name hc
    exact aliveNode_timer hm notifyFd e ht
  | dead b e =>
    obtain rfl : b.dead.node = x := erases_name hc
    exact deadNode_timer hm e ht
  | _ => rcases hc with h | h <;> cases h

theorem reaches_congr {c : LockedCall} {m m' : Member} (hd : m'.deadlocked = m.deadlocked)
    (hfind : m'.find c.name = m.find c.name) : c.Reaches cfg m' ↔ c.Reaches cfg m := by
  cases c with
  | alive b notifyFd e =>
    have hfind : m'.find b.alive.node = m.find b.alive.node := hfind
    simp only [Reaches,hd,hfind]
  | dead b e =>
    have hfind : m'.find b.dead.node = m.find b.dead.node := hfind
    simp only [Reaches,hd,hfind]
  | _ => exact Iff.rfl

end LockedCall

theorem Aside.apply_frame (cfg : Config) (fl : Floats) (o : Aside) (m : Member) :
    (o.apply cfg fl m).table = m.table ∧ (o.apply cfg fl m).nodeTimers = m.nodeTimers ∧
      (o.apply cfg fl m).deadlocked = m.deadlocked := by
  cases o with
  | update u =>
    obtain ⟨i,a,us,h⟩ := Member.updateStep_frame cfg m u
    simp only [apply,h,and_self]
  | _ => exact ⟨rfl,rfl,rfl⟩

namespace Host

variable {cfg : Config} {fl : Floats} {enabled : Periodic → Bool} {s : Host} {t : Tid}

structure Sound (cfg : Config) (s : Host) : Prop where
  settled : s.member.Settled cfg
  attached : s.locking.Attached
  shows : s.locking.Shows s.member
  checks : ∀ t, (s.locking.pc t).sect = some .check → ∃ i, t = .suspicion i
  own : ∀ i c, (s.locking.pc (.suspicion i)).sect = some c →
    c = .check ∨ c = .deadNode (s.locking.node i)
  doing : ∀ t c, (s.locking.pc t).sect = some c → c ≠ .check → (s.doing t).sect = c
  condemned : ∀ i, (s.locking.pc (.suspicion i)).Condemns →
    (s.doing (.suspicion i)).sect = .deadNode (s.locking.node i)
  erasing : ∀ t c u x, s.locking.pc t = .join c u → c.Erases x → (s.doing t).Reaches cfg s.member

theorem start_sound (cfg : Config) (enabled : Periodic → Bool) (leaveFd : ℤ) (e : Env) :
    (start cfg enabled leaveFd e).Sound cfg := by
  have hpc (t : Tid) (c : Section) : ((Locking.initial enabled).pc t).sect ≠ some c := by
    cases t with
    | periodic p => cases hp : enabled p <;> simp [Locking.initial,hp,Pc.sect]
    | _ => simp [Locking.initial,Pc.sect]
  have htimers : (start cfg enabled leaveFd e).member.nodeTimers = fun _ => none := by
    rcases Member.aliveNode_timers cfg ((Member.newmemberlist cfg leaveFd).nextIncarnation cfg).1 e
      _ true (-1) with h | h
    · exact h
    · exact h.trans (Function.update_eq_self _ (fun _ : String => (none : Option Suspicion)))
  refine ⟨run_settled cfg .small enabled leaveFd e [],.initial enabled,fun x => ?_,
    fun t h => absurd h (hpc t .check),fun i c h => absurd h (hpc _ c),fun t c h => absurd h (hpc t c),fun i h => (by cases h),fun t c u x h => ?_⟩
  · rw [htimers]
    rfl
  · exact absurd (by rw [show (Locking.initial enabled).pc t = _ from h]; rfl) (hpc t c)

theorem Sound.own_timer (hs : s.Sound cfg) {i : ℕ} (h : s.locking.pc (.suspicion i) ≠ .ended) :
    s.member.nodeTimers (s.locking.node i) ≠ none := by
  have hshows := hs.shows (s.locking.node i)
  rw [hs.attached.living i h] at hshows
  exact Option.isSome_iff_ne_none.mp hshows.symm

theorem reads_of_ne {c : LockedCall} (hc : ∀ x, c.sect ≠ .suspectNode x) :
    s.reads c = s.member := by
  cases c with
  | suspect b e => exact absurd rfl (hc b.suspect.node)
  | _ => rfl

theorem reads_frame (s : Host) (c : LockedCall) :
    (s.reads c).table = s.member.table ∧ (s.reads c).deadlocked = s.member.deadlocked ∧
      ∀ x, ((s.reads c).nodeTimers x).isSome = (s.member.nodeTimers x).isSome := by
  cases c with
  | suspect b e =>
    simp only [reads]
    split
    · rename_i i t hi ht
      split
      · exact ⟨rfl,rfl,fun _ => rfl⟩
      · refine ⟨rfl,rfl,fun x => ?_⟩
        by_cases hx : x = b.suspect.node
        · simp [Member.setTimer,hx,ht]
        · simp [Member.setTimer,hx]
    · exact ⟨rfl,rfl,fun _ => rfl⟩
  | _ => exact ⟨rfl,rfl,fun _ => rfl⟩

/-- A section that erases goes to the join, or past it at once. -/
theorem Sound.body_erase (hs : s.Sound cfg) {x : String} (hc : (s.doing t).sect.Erases x) :
    let c := (s.doing t).sect
    let s' := s.body cfg fl enabled t
    s.locking.pc t = .inside c →
    ((s.doing t).Reaches cfg s.member ∧ s'.member = s.member ∧
        ∃ i, s.locking.nodeTimers x = some i ∧ s'.locking = s.locking.eraseTimer t c x) ∨
      s'.member = (s.doing t).apply cfg fl s.member ∧
        s'.member.nodeTimers = s.member.nodeTimers ∧
        s'.locking = s.locking.goto t (.unlock false) := by
  intro c s' hpc
  have hreads : s.reads (s.doing t) = s.member :=
    reads_of_ne fun y h => by rcases hc with h' | h' <;> cases h'.symm.trans h
  have hname := LockedCall.erases_name hc
  have hlate : ¬(s.member.deadlocked = false ∧
      ((s.doing t).apply cfg fl s.member).deadlocked = true) := by
    rintro ⟨hd,hd'⟩
    rw [LockedCall.apply_deadlocked hc hs.settled.toSound,hd] at hd'
    cases hd'
  have hlocking (choice : Choice) : s.locking.step enabled ⟨t,choice⟩ =
      s.locking.body t c choice := Locking.step_inside hpc choice
  by_cases ht : ((s.doing t).apply cfg fl s.member).nodeTimers x = s.member.nodeTimers x
  · have hchoice : choice (s.doing t) s.member ((s.doing t).apply cfg fl s.member) = .go := by
      rw [choice,if_neg hlate,hname,if_pos ht]
    have hgo : c ≠ .shutDown := by
      rintro h
      rcases hc with h' | h' <;> cases h'.symm.trans h
    have hbody : s' = { s with
        member := (s.doing t).apply cfg fl s.member
        locking := s.locking.goto t (.unlock false) } := by
      simp only [s',body,hreads,hchoice,hlocking,Locking.body_go hgo,Locking.goto_pc_self]
    rw [hbody]
    refine Or.inr ⟨rfl,?_,rfl⟩
    show ((s.doing t).apply cfg fl s.member).nodeTimers = _
    rcases LockedCall.apply_nodeTimers (s.doing t) s.member with h |
      ⟨timer,h,-⟩
    · exact h
    · rw [h,hname,Function.update_self] at ht
      rw [h,hname,ht,Function.update_eq_self]
  · have hchoice : choice (s.doing t) s.member ((s.doing t).apply cfg fl s.member) = .act := by
      rw [choice,if_neg hlate,hname,if_neg ht]
    have hsome : s.member.nodeTimers x ≠ none := by
      intro hnone
      rcases LockedCall.apply_nodeTimers (s.doing t) s.member with h |
        ⟨timer,h,⟨-,rfl⟩ | ⟨hsect,-⟩⟩
      · exact ht (by rw [h])
      · exact ht (by rw [h,hname,Function.update_self,hnone])
      · rcases hc with h' | h' <;> cases h'.symm.trans hsect
    have hshows := hs.shows x
    obtain ⟨i,hi⟩ : ∃ i, s.locking.nodeTimers x = some i :=
      Option.isSome_iff_exists.mp (hshows.trans (Option.isSome_iff_ne_none.mpr hsome))
    obtain ⟨hreaches,-⟩ := (LockedCall.erase_timer hc hs.settled hsome).resolve_right
      fun h => ht (by rw [h.2])
    have hpc' : (s.locking.eraseTimer t c x).pc t = .join c (.suspicion i) := by
      simp only [Locking.eraseTimer,hi,Locking.goto_pc_self]
    have hbody : s' = { s with locking := s.locking.eraseTimer t c x } := by
      simp only [s',body,hreads,hchoice,hlocking,Locking.body_erase hc,c] at hpc' ⊢
      rw [hpc']
    rw [hbody]
    exact Or.inl ⟨hreaches,rfl,i,hi,rfl⟩

theorem body_suspectNode_nodeTimers {x : String} {choice : Choice} {locking : Locking}
    (h : choice ≠ .act ∨ ∃ i, locking.nodeTimers x = some i) :
    (locking.body t (.suspectNode x) choice).nodeTimers = locking.nodeTimers := by
  have hlate (i : ℕ) : (locking.confirmLate t i).nodeTimers = locking.nodeTimers := by
    unfold Locking.confirmLate
    split
    · exact Locking.stop_nodeTimers _ locking
    · rfl
  have hconfirm (i : ℕ) :
      (locking.confirm t (.suspectNode x) i).nodeTimers = locking.nodeTimers := by
    unfold Locking.confirm
    split
    · exact Locking.stop_nodeTimers _ locking
    · rfl
  cases choice with
  | act =>
    obtain ⟨i,hi⟩ := h.resolve_left (not_not.mpr rfl)
    simp only [Locking.body,hi]
    exact hconfirm i
  | late =>
    simp only [Locking.body]
    split
    · exact hlate _
    · rfl
  | _ => rfl

theorem Sound.body_suspect (hs : s.Sound cfg) {x : String}
    (hc : (s.doing t).sect = .suspectNode x) (hpc : s.locking.pc t = .inside (.suspectNode x)) :
    (s.body cfg fl enabled t).locking.Shows (s.body cfg fl enabled t).member := by
  let m := s.reads (s.doing t)
  let m' := (s.doing t).apply cfg fl m
  have hm : s.locking.Shows m := fun y =>
    (hs.shows y).trans ((reads_frame s (s.doing t)).2.2 y).symm
  have hname : (s.doing t).name = x := by
    cases hd : s.doing t <;> rw [hd] at hc <;> cases hc
    rfl
  have hbody : (s.body cfg fl enabled t).locking =
      s.locking.body t (.suspectNode x) (choice (s.doing t) m m') := by
    rw [← Locking.step_inside hpc]
    simp only [body]
    split <;> rfl
  have hmember : (s.body cfg fl enabled t).member = m' ∨ (s.body cfg fl enabled t).member = m := by
    simp only [body]
    split
    · exact Or.inr rfl
    · exact Or.inl rfl
  have hkept (hn : (s.locking.body t (.suspectNode x) (choice (s.doing t) m m')).nodeTimers =
      s.locking.nodeTimers) (hm' : s.locking.Shows m') :
      (s.body cfg fl enabled t).locking.Shows (s.body cfg fl enabled t).member := by
    intro y
    rw [hbody,hn]
    rcases hmember with h | h
    · rw [h]
      exact hm' y
    · rw [h]
      exact hm y
  rcases LockedCall.apply_nodeTimers (s.doing t) m with h |
    ⟨timer,h,⟨hc',-⟩ | ⟨-,htimer⟩⟩
  · refine hkept (body_suspectNode_nodeTimers (Or.inl ?_)) fun y => ?_
    · rw [choice]
      split
      · simp
      · rw [if_pos (congrFun h _)]
        simp
    · rw [show m'.nodeTimers = m.nodeTimers from h]
      exact hm y
  · rcases hc' with h' | h' <;> cases h'.symm.trans hc
  · rw [hname] at h
    cases hi : s.locking.nodeTimers x with
    | some i =>
      refine hkept (body_suspectNode_nodeTimers (Or.inr ⟨i,hi⟩)) fun y => ?_
      rw [show m'.nodeTimers = _ from h]
      by_cases hy : y = x
      · rw [hy,hi,Function.update_self,htimer]
        rfl
      · rw [Function.update_of_ne hy]
        exact hm y
    | none =>
      have hnone : m.nodeTimers x = none := by
        have := hm x
        rw [hi] at this
        exact Option.isNone_iff_eq_none.mp (by simpa using this.symm)
      have hchoice : choice (s.doing t) m m' = .act := by
        rw [choice,if_neg,if_neg]
        · rw [hname,show m'.nodeTimers = _ from h,Function.update_self,hnone]
          rintro rfl
          cases htimer
        · exact fun hlate => LockedCall.late_timer hc hlate hnone
      have hnew : s.locking.body t (.suspectNode x) .act = s.locking.newSuspicion t x := by
        simp only [Locking.body,hi]
      have hstep : s.locking.step enabled ⟨t,.act⟩ = s.locking.body t (.suspectNode x) .act :=
        Locking.step_inside hpc .act
      have hpc' : (s.locking.newSuspicion t x).pc t = .unlock false := Locking.goto_pc_self _
      have hmember : (s.body cfg fl enabled t).member = m' := by
        have hchoice : choice (s.doing t) (s.reads (s.doing t))
            ((s.doing t).apply cfg fl (s.reads (s.doing t))) = .act := hchoice
        simp only [body,hchoice,hstep,hnew,hpc']
        rfl
      rw [hbody,hchoice,hnew,hmember]
      exact hm.update (i := some s.locking.next) htimer.symm rfl h

/-- The thread `t` makes a step, and the calls keep up with it. -/
structure Moved (enabled : Periodic → Bool) (t : Tid) (choice : Choice) (s s' : Host) : Prop where
  locking : s'.locking = s.locking.step enabled ⟨t,choice⟩
  others : ∀ t' ≠ t, s'.doing t' = s.doing t'
  same : s.locking.pc t ≠ .free → s.locking.pc t ≠ .inside .check → s'.doing t = s.doing t
  called : ∀ c, s.locking.pc t = .free → choice = .call c → (s'.doing t).sect = c
  checked : ∀ i, t = .suspicion i → s.locking.pc t = .inside .check → choice = .act →
    (s'.doing t).sect = .deadNode (s.locking.node i)
  member : ¬(s.locking.pc t).Holds → s'.member = s.member

section Moved

variable {choice : Choice} {s' : Host}

theorem Moved.node (h : Moved enabled t choice s s') (hs : s.Sound cfg) {i : ℕ}
    (hi : s.locking.pc (.suspicion i) ≠ .ended) : s'.locking.node i = s.locking.node i := by
  have hlt : i < s.locking.next := (hs.attached.named _ i (hs.attached.living i hi)).2
  rw [h.locking]
  exact ((Locking.step_keeps enabled s.locking ⟨t,choice⟩).2 i hlt).1

theorem Moved.checks (h : Moved enabled t choice s s') (hs : s.Sound cfg) {t' : Tid}
    (hsect : (s'.locking.pc t').sect = some .check) : ∃ i, t' = .suspicion i := by
  rw [h.locking] at hsect
  by_cases ht : t' = t
  · subst ht
    rcases hs.attached.step_sect hsect with hsect | ⟨hfree,hcall,-⟩ | ⟨i,hi,-⟩
    · exact hs.checks t' hsect
    · have := h.called .check hfree hcall
      cases hd : s'.doing t' <;> rw [hd] at this <;> cases this
    · exact ⟨i,hi⟩
  · rcases Locking.step_other enabled s.locking ⟨t,choice⟩ ht with hpc | hpc
    · exact hs.checks t' (hpc ▸ hsect)
    · rw [hpc] at hsect
      cases hsect

theorem Moved.own (h : Moved enabled t choice s s') (hs : s.Sound cfg) {i : ℕ} {c : Section}
    (hsect : (s'.locking.pc (.suspicion i)).sect = some c) :
    c = .check ∨ c = .deadNode (s'.locking.node i) := by
  have hkept (hne : s.locking.pc (.suspicion i) ≠ .ended)
      (h' : c = .check ∨ c = .deadNode (s.locking.node i)) :
      c = .check ∨ c = .deadNode (s'.locking.node i) := by
    rwa [h.node hs hne]
  have hold (hsect : (s.locking.pc (.suspicion i)).sect = some c) :
      c = .check ∨ c = .deadNode (s'.locking.node i) := by
    refine hkept ?_ (hs.own i c hsect)
    intro h'
    rw [h'] at hsect
    cases hsect
  rw [h.locking] at hsect
  by_cases ht : .suspicion i = t
  · subst ht
    rcases hs.attached.step_sect hsect with hsect | ⟨-,-,hcalls⟩ |
      ⟨j,hj,⟨-,hcheck⟩ | ⟨hverdict,hdead⟩⟩
    · exact hold hsect
    · cases c <;> cases hcalls
    · exact Or.inl hcheck
    · cases hj
      exact hkept (by simp [hverdict]) (Or.inr hdead)
  · rcases Locking.step_other enabled s.locking ⟨t,choice⟩ ht with hpc | hpc
    · exact hold (hpc ▸ hsect)
    · rw [hpc] at hsect
      cases hsect

theorem Moved.doing (h : Moved enabled t choice s s') (hs : s.Sound cfg) {t' : Tid} {c : Section}
    (hsect : (s'.locking.pc t').sect = some c) (hc : c ≠ .check) : (s'.doing t').sect = c := by
  rw [h.locking] at hsect
  by_cases ht : t' = t
  · subst ht
    rcases hs.attached.step_sect hsect with hsect | ⟨hfree,hcall,-⟩ |
      ⟨i,rfl,⟨hsleep,rfl⟩ | ⟨hverdict,rfl⟩⟩
    · have hne : s.locking.pc t' ≠ .inside .check := by
        intro h'
        rw [h'] at hsect
        exact hc (Option.some.inj hsect).symm
      have hfree : s.locking.pc t' ≠ .free := by
        intro h'
        rw [h'] at hsect
        cases hsect
      rw [h.same hfree hne]
      exact hs.doing t' c hsect hc
    · exact h.called c hfree hcall
    · exact absurd rfl hc
    · rw [h.same (by simp [hverdict]) (by simp [hverdict])]
      exact hs.condemned i (by rw [hverdict]; trivial)
  · rw [h.others t' ht]
    rcases Locking.step_other enabled s.locking ⟨t,choice⟩ ht with hpc | hpc
    · exact hs.doing t' c (hpc ▸ hsect) hc
    · rw [hpc] at hsect
      cases hsect

theorem Moved.condemned (h : Moved enabled t choice s s') (hs : s.Sound cfg) {i : ℕ}
    (hpc : (s'.locking.pc (.suspicion i)).Condemns) :
    (s'.doing (.suspicion i)).sect = .deadNode (s'.locking.node i) := by
  have hne (hcond : (s.locking.pc (.suspicion i)).Condemns) :
      s.locking.pc (.suspicion i) ≠ .ended := by
    intro h'
    rw [h'] at hcond
    exact hcond
  rw [h.locking] at hpc
  by_cases ht : .suspicion i = t
  · subst ht
    rcases hs.attached.step_condemns hpc with hcond | ⟨hcheck,hact⟩
    · rw [h.node hs (hne hcond),h.same ?_ ?_]
      · exact hs.condemned i hcond
      · intro h'
        rw [h'] at hcond
        exact hcond
      · intro h'
        rw [h'] at hcond
        exact hcond
    · rw [h.node hs (by simp [hcheck])]
      exact h.checked i rfl hcheck hact
  · rw [h.others _ ht]
    rcases Locking.step_other enabled s.locking ⟨t,choice⟩ ht with hpc' | hpc'
    · have hcond : (s.locking.pc (.suspicion i)).Condemns := by
        rw [← hpc']
        exact hpc
      rw [h.node hs (hne hcond)]
      exact hs.condemned i hcond
    · rw [hpc'] at hpc
      cases hpc

theorem Moved.erasing (h : Moved enabled t choice s s') (hs : s.Sound cfg) {t' : Tid}
    (ht : t' ≠ t) {c : Section} {u : Tid} {x : String} (hjoin : s'.locking.pc t' = .join c u)
    (hc : c.Erases x) : (s'.doing t').Reaches cfg s'.member := by
  rw [h.locking] at hjoin
  have hbefore : s.locking.pc t' = .join c u := by
    rcases Locking.step_other enabled s.locking ⟨t,choice⟩ ht with hpc | hpc
    · exact hpc.symm.trans hjoin
    · cases hpc.symm.trans hjoin
  have hout : ¬(s.locking.pc t).Holds :=
    hs.attached.sole (show (s.locking.pc t').Holds by rw [hbefore]; trivial) (Ne.symm ht)
  rw [h.others t' ht,h.member hout]
  exact hs.erasing t' c u x hbefore hc

end Moved

theorem Sound.verdict_node (hs : s.Sound cfg) {i : ℕ} {d : Broadcast}
    (h : s.verdict cfg i = some d) : d.dead.node = s.locking.node i := by
  obtain ⟨timer,ht,hcheck⟩ := Option.bind_eq_some_iff.mp h
  obtain ⟨-,r,-,-,hnode,-⟩ := (hs.settled.timed (s.locking.node i)).episode timer ht
  obtain ⟨r,-,-,-,rfl⟩ := Member.timeoutCheck_some hcheck
  exact hnode

theorem moved_move {choice : Choice} (hfree : ∀ c, s.locking.pc t = .free → choice ≠ .call c)
    (hcheck : s.locking.pc t ≠ .inside .check) :
    Moved enabled t choice s (s.move enabled ⟨t,choice⟩) where
  locking := rfl
  others _ _ := rfl
  same _ _ := rfl
  called c h hc := absurd hc (hfree c h)
  checked _ _ h _ := absurd h hcheck
  member _ := rfl

theorem Sound.moved_check (hs : s.Sound cfg) (i : ℕ) (e : Env)
    (hpc : s.locking.pc (.suspicion i) = .inside .check) :
    ∃ choice, Moved enabled (.suspicion i) choice s (s.check cfg enabled i e) ∧
      (s.check cfg enabled i e).member = s.member := by
  unfold check
  cases hd : s.verdict cfg i with
  | some d =>
    refine ⟨.act,⟨rfl,fun t' ht => Function.update_of_ne ht _ _,fun _ h => absurd hpc h,
      fun c h => ?_,fun j hj _ _ => ?_,fun _ => rfl⟩,rfl⟩
    · cases hpc.symm.trans h
    · cases hj
      have hnode := hs.verdict_node hd
      simp [LockedCall.sect,hnode]
  | none =>
    refine ⟨.go,⟨rfl,fun _ _ => rfl,fun _ _ => rfl,fun c h => ?_,fun j _ _ h => ?_,fun _ => rfl⟩,rfl⟩
    · cases hpc.symm.trans h
    · cases h

theorem moved_body {c : Section} (hpc : s.locking.pc t = .inside c)
    (hcheck : ∀ i, t = .suspicion i → c ≠ .check) :
    ∃ choice, Moved enabled t choice s (s.body cfg fl enabled t) := by
  have hbody (m m' : Member) : (s.body cfg fl enabled t).doing = s.doing := by
    simp only [body]
    split <;> rfl
  let m := s.reads (s.doing t)
  refine ⟨choice (s.doing t) m ((s.doing t).apply cfg fl m),?_,fun t' _ => ?_,fun _ _ => ?_,
    fun c' h => ?_,fun i hi h _ => ?_,fun h => ?_⟩
  · simp only [body]
    split <;> rfl
  · rw [hbody m m]
  · rw [hbody m m]
  · cases hpc.symm.trans h
  · cases hpc.symm.trans h
    exact absurd rfl (hcheck i hi)
  · rw [hpc] at h
    exact absurd trivial h

theorem moved_call {c : LockedCall} (hfree : s.locking.pc t = .free)
    (hcalls : t.calls c.sect = true) :
    Moved enabled t (.call c.sect) s (s.step cfg fl enabled (.call t c)) := by
  simp only [step,if_pos (And.intro hfree hcalls)]
  refine ⟨rfl,fun t' ht => Function.update_of_ne ht _ _,fun hf => absurd hfree hf,
    fun c' _ hc' => ?_,fun i _ hi => ?_,fun _ => rfl⟩
  · cases hc'
    simp
  · cases hfree.symm.trans hi

theorem moved_joined {c : Section} {u : Tid} (hpc : s.locking.pc t = .join c u)
    (choice : Choice) : Moved enabled t choice s
      { s.move enabled ⟨t,choice⟩ with member := (s.doing t).apply cfg fl s.member } := by
  refine ⟨rfl,fun _ _ => rfl,fun _ _ => rfl,fun c' h => ?_,fun i _ h => ?_,fun h => ?_⟩
  · cases hpc.symm.trans h
  · cases hpc.symm.trans h
  · rw [hpc] at h
    exact absurd trivial h

theorem Sound.go_cases (hs : s.Sound cfg) (t : Tid) (choice : Choice) (e : Env) :
    s.step cfg fl enabled (.go t choice e) = s ∨
      ∃ choice', Moved enabled t choice' s (s.step cfg fl enabled (.go t choice e)) := by
  have hmoved (hfree : s.locking.pc t ≠ .free) (hcheck : s.locking.pc t ≠ .inside .check) :
      ∃ choice', Moved enabled t choice' s (s.move enabled ⟨t,choice⟩) :=
    ⟨choice,moved_move (fun _ h => absurd h hfree) hcheck⟩
  simp only [step]
  cases hpc : s.locking.pc t with
  | free =>
    simp only
    split
    · exact Or.inl rfl
    · next hchoice => exact Or.inr ⟨choice,moved_move (fun c _ => hchoice c) (by simp [hpc])⟩
  | inside c =>
    simp only [inside]
    split
    · next i =>
      obtain ⟨choice',h,-⟩ := hs.moved_check i e hpc
      exact Or.inr ⟨choice',h⟩
    · next hcheck => exact Or.inr (moved_body hpc fun i hi hc => hcheck i hc hi)
  | join c u =>
    simp only
    split
    · exact Or.inr ⟨choice,moved_joined hpc choice⟩
    · exact Or.inl rfl
  | _ => exact Or.inr (hmoved (by simp [hpc]) (by simp [hpc]))

theorem Sound.body_shows (hs : s.Sound cfg) {c : Section} (hpc : s.locking.pc t = .inside c)
    (hc : (s.doing t).sect = c) :
    (s.body cfg fl enabled t).locking.Shows (s.body cfg fl enabled t).member := by
  have herase {x : String} (hx : (s.doing t).sect.Erases x) :
      (s.body cfg fl enabled t).locking.Shows (s.body cfg fl enabled t).member := by
    rcases hs.body_erase hx (hc ▸ hpc) with
      ⟨-,hm,i,hi,hl⟩ | ⟨-,hm,hl⟩
    · intro y
      rw [hm,hl,Locking.eraseTimer,hi]
      simp only [Locking.goto,Locking.stop_nodeTimers]
      exact hs.shows y
    · intro y
      rw [hm,hl]
      exact hs.shows y
  have hplain (hplain : c = .plain ∨ c = .check ∨ c = .shutDown) :
      (s.body cfg fl enabled t).locking.Shows (s.body cfg fl enabled t).member := by
    have hreads : s.reads (s.doing t) = s.member :=
      reads_of_ne fun y h => by rcases hplain with h' | h' | h' <;> rw [h'] at hc <;> cases hc.symm.trans h
    have hmember : (s.body cfg fl enabled t).member.nodeTimers = s.member.nodeTimers := by
      have happly : ((s.doing t).apply cfg fl s.member).nodeTimers = s.member.nodeTimers := by
        rcases LockedCall.apply_nodeTimers (s.doing t) s.member with h |
          ⟨timer,-,⟨h | h,-⟩ | ⟨h,-⟩⟩
        · exact h
        all_goals
          rw [hc] at h
          rcases hplain with h' | h' | h' <;> rw [h'] at h <;> cases h
      simp only [body,hreads]
      split
      · rfl
      · exact happly
    have hlocking : (s.body cfg fl enabled t).locking.nodeTimers = s.locking.nodeTimers := by
      have h (choice : Choice) : (s.locking.step enabled ⟨t,choice⟩).nodeTimers =
          s.locking.nodeTimers := by
        rw [Locking.step_inside hpc]
        exact Locking.body_nodeTimers hplain choice
      simp only [body]
      split <;> exact h _
    intro y
    rw [hmember,hlocking]
    exact hs.shows y
  cases c with
  | aliveNode x => exact herase (x := x) (Or.inl hc)
  | deadNode x => exact herase (x := x) (Or.inr hc)
  | suspectNode x => exact hs.body_suspect hc hpc
  | plain => exact hplain (Or.inl rfl)
  | check => exact hplain (Or.inr (Or.inl rfl))
  | shutDown => exact hplain (Or.inr (Or.inr rfl))

/-- The timer goes on both sides, when its thread has ended. -/
theorem Sound.joined_shows (hs : s.Sound cfg) {c : Section} {u : Tid}
    (hpc : s.locking.pc t = .join c u) :
    (s.locking.joined t c u).Shows ((s.doing t).apply cfg fl s.member) := by
  have hc : (s.doing t).sect = c := by
    refine hs.doing t c (by rw [hpc]; rfl) ?_
    rintro rfl
    exact hs.attached.joining t .check u hpc
  have htarget := hs.attached.joining t c u hpc
  have hsome {x : String} {i : ℕ} (hi : s.locking.nodeTimers x = some i) :
      s.member.nodeTimers x ≠ none := by
    have := hs.shows x
    rw [hi] at this
    exact Option.isSome_iff_ne_none.mp this.symm
  have happly := @LockedCall.apply_nodeTimers cfg fl (s.doing t) s.member
  have herase {x : String} (hx : c.Erases x) (ht : ∃ i, u = .suspicion i ∧
      s.locking.nodeTimers x = some i) (hl : (s.locking.joined t c u).nodeTimers =
        Function.update s.locking.nodeTimers x none) :
      (s.locking.joined t c u).Shows ((s.doing t).apply cfg fl s.member) := by
    obtain ⟨i,-,hi⟩ := ht
    have hx' : (s.doing t).sect.Erases x := hc ▸ hx
    have hname := LockedCall.erases_name hx'
    obtain ⟨-,hnone⟩ : (s.doing t).Reaches cfg s.member ∧
        ((s.doing t).apply cfg fl s.member).nodeTimers x = none :=
      (LockedCall.erase_timer hx' hs.settled (hsome hi)).resolve_right fun h =>
        h.1 (hs.erasing t c u x hpc hx)
    rcases happly with h | ⟨timer,h,-⟩
    · rw [h] at hnone
      exact absurd hnone (hsome hi)
    · rw [hname] at h
      rw [h,Function.update_self] at hnone
      exact hs.shows.update (by rw [hnone]; rfl) hl h
  cases c with
  | aliveNode x => exact herase (Or.inl rfl) htarget rfl
  | deadNode x => exact herase (Or.inr rfl) htarget rfl
  | suspectNode x =>
    obtain ⟨i,rfl,hi⟩ := htarget
    intro y
    show (s.locking.nodeTimers y).isSome = _
    rcases happly with h | ⟨timer,h,⟨h',-⟩ | ⟨hsect,htimer⟩⟩
    · rw [h]
      exact hs.shows y
    · rcases h' with h' | h' <;> cases h'.symm.trans hc
    · rw [h,← Section.suspectNode.inj (hc.symm.trans hsect)]
      by_cases hy : y = x
      · rw [hy,hi,Function.update_self,htimer]
        rfl
      · rw [Function.update_of_ne hy]
        exact hs.shows y
  | shutDown =>
    obtain ⟨p,rfl⟩ := htarget
    have hm : (s.doing t).apply cfg fl s.member = s.member := by
      cases hd : s.doing t <;> rw [hd] at hc <;> cases hc
      rfl
    rw [hm]
    exact hs.shows
  | plain => exact htarget.elim
  | check => exact htarget.elim

theorem Sound.go_shows (hs : s.Sound cfg) (t : Tid) (choice : Choice) (e : Env) :
    (s.step cfg fl enabled (.go t choice e)).locking.Shows
      (s.step cfg fl enabled (.go t choice e)).member := by
  have hmove (hinside : ∀ c, s.locking.pc t ≠ .inside c)
      (hjoin : ∀ c u, s.locking.pc t ≠ .join c u) :
      (s.move enabled ⟨t,choice⟩).locking.Shows (s.move enabled ⟨t,choice⟩).member := by
    intro y
    rw [move,Locking.step_nodeTimers hinside hjoin]
    exact hs.shows y
  simp only [step]
  cases hpc : s.locking.pc t with
  | free =>
    simp only
    split
    · exact hs.shows
    · exact hmove (by simp [hpc]) (by simp [hpc])
  | inside c =>
    simp only [inside]
    have hbody (hc : c ≠ .check) :
        (s.body cfg fl enabled t).locking.Shows (s.body cfg fl enabled t).member :=
      hs.body_shows hpc (hs.doing t c (by rw [hpc]; rfl) hc)
    split
    · next i =>
      obtain ⟨choice',hmoved,hm⟩ := hs.moved_check i e hpc
      intro y
      rw [hmoved.locking,hm,Locking.step_inside hpc]
      exact hs.shows y
    · next hcheck =>
      refine hbody ?_
      rintro rfl
      obtain ⟨i,rfl⟩ := hs.checks t (by rw [hpc]; rfl)
      exact hcheck i rfl rfl
  | join c u =>
    simp only
    split
    · next hended =>
      simp only [move,Locking.step_join hpc hended]
      exact hs.joined_shows hpc
    · exact hs.shows
  | _ => exact hmove (by simp [hpc]) (by simp [hpc])

theorem Sound.go_erasing (hs : s.Sound cfg) {choice : Choice} {e : Env} {c : Section} {u : Tid}
    {x : String} (hc : c.Erases x)
    (hjoin : (s.step cfg fl enabled (.go t choice e)).locking.pc t = .join c u) :
    ((s.step cfg fl enabled (.go t choice e)).doing t).Reaches cfg
      (s.step cfg fl enabled (.go t choice e)).member := by
  have hdown : c ≠ .shutDown := by rcases hc with rfl | rfl <;> simp
  have hcheck : c ≠ .check := by rcases hc with rfl | rfl <;> simp
  have hnot (hinside : ∀ c, s.locking.pc t ≠ .inside c)
      (hjoin : ∀ c u, s.locking.pc t ≠ .join c u) :
      (s.move enabled ⟨t,choice⟩).locking.pc t ≠ .join c u := by
    intro h
    rcases hs.attached.before_join hdown h with h | h
    · exact hinside c h
    · exact hjoin c u h
  simp only [step] at hjoin ⊢
  cases hpc : s.locking.pc t with
  | free =>
    simp only [hpc] at hjoin
    split at hjoin
    · cases hpc.symm.trans hjoin
    · exact absurd hjoin (hnot (by simp [hpc]) (by simp [hpc]))
  | inside c' =>
    simp only [hpc,inside] at hjoin ⊢
    split at hjoin
    · next i =>
      obtain ⟨choice',hmoved,-⟩ := hs.moved_check i e hpc
      rw [hmoved.locking] at hjoin
      rcases hs.attached.before_join hdown hjoin with h | h
      · cases hpc.symm.trans h
        exact absurd rfl hcheck
      · cases hpc.symm.trans h
    · next hcheck' =>
      obtain ⟨choice',hmoved⟩ := moved_body hpc
        fun i hi hc => hcheck' i hc hi
      have hinside : s.locking.pc t = .inside c := by
        rw [hmoved.locking] at hjoin
        rcases hs.attached.before_join hdown hjoin with h | h
        · exact h
        · cases hpc.symm.trans h
      have hsect : (s.doing t).sect = c := hs.doing t c (by rw [hinside]; rfl) hcheck
      have hx : (s.doing t).sect.Erases x := hsect ▸ hc
      rcases hs.body_erase hx (hsect ▸ hinside) with
        ⟨hreaches,hm,-⟩ | ⟨-,-,hl⟩
      · rw [hm,hmoved.same (by simp [hpc]) (by rw [hinside]; simp [hcheck])]
        exact hreaches
      · rw [hl,Locking.goto_pc_self] at hjoin
        cases hjoin
  | join c' u' =>
    simp only [hpc] at hjoin ⊢
    split at hjoin
    · next hended =>
      have hstep : (s.locking.step enabled ⟨t,choice⟩).pc t = .join c u := hjoin
      simp only [move,Locking.step_join hpc hended] at hjoin
      rcases hs.attached.before_join hdown hstep with h | h
      · cases hpc.symm.trans h
      · cases hpc.symm.trans h
        rcases hc with rfl | rfl <;> cases (Locking.goto_pc_self _).symm.trans hjoin
    · next hended =>
      rw [if_neg hended]
      exact hs.erasing t c u x hjoin hc
  | _ =>
    simp only [hpc] at hjoin
    exact absurd hjoin (hnot (by simp [hpc]) (by simp [hpc]))

theorem Sound.aside (hs : s.Sound cfg) (o : Aside)
    (hsettled : (o.apply cfg fl s.member).Settled cfg) :
    Sound cfg { s with member := o.apply cfg fl s.member } := by
  obtain ⟨htable,htimers,hdead⟩ := o.apply_frame cfg fl s.member
  refine ⟨hsettled,hs.attached,fun y => ?_,hs.checks,hs.own,hs.doing,hs.condemned,
    fun t c u x hjoin hc => ?_⟩
  · rw [htimers]
    exact hs.shows y
  · have hreaches := hs.erasing t c u x hjoin hc
    exact (LockedCall.reaches_congr hdead (by rw [Member.find,htable]; rfl)).mpr hreaches

theorem Sound.step (hs : s.Sound cfg) (ev : HostEvent)
    (hsettled : (s.step cfg fl enabled ev).member.Settled cfg) :
    (s.step cfg fl enabled ev).Sound cfg := by
  have hattached : (s.step cfg fl enabled ev).locking.Attached := by
    rcases step_locking s ev with h | ⟨m,h⟩
    · exact h ▸ hs.attached
    · exact h ▸ hs.attached.step m
  cases ev with
  | aside o => exact hs.aside o hsettled
  | call t c =>
    by_cases h : s.locking.pc t = .free ∧ t.calls c.sect = true
    · have hmoved : Moved enabled t (.call c.sect) s (s.step cfg fl enabled (.call t c)) :=
        moved_call h.1 h.2
      have hmember := hmoved.member (by rw [h.1]; simp [Pc.Holds])
      refine ⟨hsettled,hattached,fun y => ?_,fun t' h => hmoved.checks hs h,
        fun i c h => hmoved.own hs h,fun t' c h hc => hmoved.doing hs h hc,fun i h => hmoved.condemned hs h,
        fun t' c u x hjoin hc => ?_⟩
      · rw [hmember,hmoved.locking,Locking.step_nodeTimers (by simp [h.1]) (by simp [h.1])]
        exact hs.shows y
      · by_cases ht : t' = t
        · subst ht
          rw [hmoved.locking] at hjoin
          have hdown : c ≠ .shutDown := by rcases hc with rfl | rfl <;> simp
          rcases hs.attached.before_join hdown hjoin with h' | h' <;> cases h.1.symm.trans h'
        · exact hmoved.erasing hs ht hjoin hc
    · rw [Host.step,if_neg h]
      exact hs
  | go t choice e =>
    rcases hs.go_cases t choice e with h | ⟨choice',hmoved⟩
    · rw [h]
      exact hs
    · refine ⟨hsettled,hattached,hs.go_shows t choice e,fun t' h => hmoved.checks hs h,
        fun i c h => hmoved.own hs h,fun t' c h hc => hmoved.doing hs h hc,fun i h => hmoved.condemned hs h,
        fun t' c u x hjoin hc => ?_⟩
      by_cases ht : t' = t
      · subst ht
        exact hs.go_erasing hc hjoin
      · exact hmoved.erasing hs ht hjoin hc

theorem run_sound (cfg : Config) (fl : Floats) (enabled : Periodic → Bool) (leaveFd : ℤ)
    (e : Env) (evs : List HostEvent) : (run cfg fl enabled leaveFd e evs).Sound cfg := by
  refine Transitions.run_history (s := start cfg enabled leaveFd e)
    (P := fun _ s => s.Sound cfg) (start_sound cfg enabled leaveFd e) (fun evs ev hs => ?_) evs
  refine hs.step ev ?_
  have h := run_settled cfg fl enabled leaveFd e (evs ++ [ev])
  rwa [run,Transitions.run_snoc] at h

theorem Sound.joins_itself (hs : s.Sound cfg) {i : ℕ} {c : Section} {u : Tid}
    (hpc : s.locking.pc (.suspicion i) = .join c u) : u = .suspicion i := by
  have hne : c ≠ .check := by
    rintro rfl
    exact hs.attached.joining _ _ u hpc
  obtain rfl := (hs.own i c (by rw [hpc]; rfl)).resolve_left hne
  obtain ⟨j,rfl,hj⟩ := hs.attached.joining _ _ u hpc
  rw [hs.attached.unique hj (by simp [hpc])]

/-- The thread of a suspicion changes nothing: what it does to the member would come after it
has joined itself. -/
theorem Sound.callback_member (hs : s.Sound cfg) (i : ℕ) (choice : Choice) (e : Env) :
    (s.step cfg fl enabled (.go (.suspicion i) choice e)).member = s.member := by
  have hname {c : Section} (hsect : (s.locking.pc (.suspicion i)).sect = some c)
      (hcheck : c ≠ .check) : (s.doing (.suspicion i)).sect.Erases (s.locking.node i) :=
    Or.inr ((hs.doing _ c hsect hcheck).trans ((hs.own i c hsect).resolve_left hcheck))
  simp only [Host.step]
  cases hpc : s.locking.pc (.suspicion i) with
  | free =>
    simp only
    split <;> rfl
  | inside c =>
    by_cases hne : c = .check
    · obtain rfl := hne
      obtain ⟨-,-,hm⟩ := hs.moved_check i e hpc
      exact hm
    · have hbody : s.inside cfg fl enabled (.suspicion i) c e =
          s.body cfg fl enabled (.suspicion i) := by
        cases c <;> first | rfl | exact absurd rfl hne
      simp only [hbody]
      have hx := hname (by rw [hpc]; rfl) hne
      have hown := hs.own_timer (i := i) (by simp [hpc])
      have hsect := hs.doing _ c (by rw [hpc]; rfl) hne
      rcases hs.body_erase hx (hsect ▸ hpc) with
        ⟨-,hm,-⟩ | ⟨hm,ht,-⟩
      · exact hm
      · rcases LockedCall.erase_timer hx hs.settled hown with ⟨-,hnone⟩ | ⟨-,hsame⟩
        · rw [← hm,ht] at hnone
          exact absurd hnone hown
        · exact hm.trans hsame
  | join c u =>
    obtain rfl := hs.joins_itself hpc
    simp only
    rw [if_neg (by simp [hpc])]
  | _ => rfl

/-- A thread that holds the lock and does not get on stays where it is, and so does the member. -/
theorem Sound.jammed (hs : s.Sound cfg) (hholds : (s.locking.pc t).Holds)
    (hself : ∀ choice e, s.step cfg fl enabled (.go t choice e) = s) (ev : HostEvent) :
    (s.step cfg fl enabled ev).locking.pc t = s.locking.pc t ∧
      (s.step cfg fl enabled ev).member.table = s.member.table ∧
      (s.step cfg fl enabled ev).member.nodeTimers = s.member.nodeTimers := by
  have hmoved {t' : Tid} {choice : Choice} {s' : Host} (hm : Moved enabled t' choice s s')
      (ht : t ≠ t') : s'.locking.pc t = s.locking.pc t ∧ s'.member.table = s.member.table ∧
        s'.member.nodeTimers = s.member.nodeTimers := by
    have hout : ¬(s.locking.pc t').Holds := hs.attached.sole hholds ht.symm
    have hstill : (s.locking.step enabled ⟨t',choice⟩).pc t = s.locking.pc t :=
      Locking.step_still enabled (fun c h => hout (by rw [h]; trivial))
        (fun c u h => hout (by rw [h]; trivial)) ht
    rw [hm.locking,hm.member hout,hstill]
    exact ⟨rfl,rfl,rfl⟩
  cases ev with
  | aside o =>
    obtain ⟨htable,htimers,-⟩ := o.apply_frame cfg fl s.member
    exact ⟨rfl,htable,htimers⟩
  | call t' c' =>
    by_cases h : s.locking.pc t' = .free ∧ t'.calls c'.sect = true
    · refine hmoved (moved_call h.1 h.2) ?_
      rintro rfl
      rw [h.1] at hholds
      exact hholds
    · rw [Host.step,if_neg h]
      exact ⟨rfl,rfl,rfl⟩
  | go t' choice e =>
    by_cases ht : t = t'
    · subst ht
      rw [hself]
      exact ⟨rfl,rfl,rfl⟩
    · rcases hs.go_cases t' choice e with h | ⟨choice',h⟩
      · rw [h]
        exact ⟨rfl,rfl,rfl⟩
      · exact hmoved h ht

/-- A thread that joins itself waits for good. -/
theorem go_joins_itself {c : Section} (hpc : s.locking.pc t = .join c t) (choice : Choice)
    (e : Env) : s.step cfg fl enabled (.go t choice e) = s := by
  simp only [Host.step,hpc]
  exact if_neg (by simp)

/-- Nobody is buried by a timeout: the thread of a suspicion changes nothing, and where it gets
to the join, it joins itself and no record and no timer ever changes again. -/
theorem callback_buries_nobody (cfg : Config) (fl : Floats) (enabled : Periodic → Bool)
    (leaveFd : ℤ) (e : Env) (evs : List HostEvent) (i : ℕ) (choice : Choice) (env : Env) :
    let s := run cfg fl enabled leaveFd e evs
    (s.step cfg fl enabled (.go (.suspicion i) choice env)).member = s.member ∧
      ∀ c u, s.locking.pc (.suspicion i) = .join c u → u = .suspicion i ∧ ∀ more,
        (run cfg fl enabled leaveFd e (evs ++ more)).member.table = s.member.table ∧
          (run cfg fl enabled leaveFd e (evs ++ more)).member.nodeTimers =
            s.member.nodeTimers := by
  intro s
  have hs : s.Sound cfg := run_sound cfg fl enabled leaveFd e evs
  refine ⟨hs.callback_member i choice env,fun c u hpc => ?_⟩
  obtain rfl : u = .suspicion i := hs.joins_itself hpc
  refine ⟨rfl,fun more => ?_⟩
  suffices hrun : (Transitions.run (step cfg fl enabled) s more).locking.pc (.suspicion i) =
        .join c (.suspicion i) ∧
      (Transitions.run (step cfg fl enabled) s more).member.table = s.member.table ∧
      (Transitions.run (step cfg fl enabled) s more).member.nodeTimers = s.member.nodeTimers by
    rw [run,Transitions.run_append]
    exact hrun.2
  refine Transitions.run_history (s := s)
    (P := fun _ s' => s'.locking.pc (.suspicion i) = .join c (.suspicion i) ∧
      s'.member.table = s.member.table ∧ s'.member.nodeTimers = s.member.nodeTimers)
    ⟨hpc,rfl,rfl⟩ ?_ more
  · rintro more ev ⟨hpc,htable,htimers⟩
    have hs' : (Transitions.run (Host.step cfg fl enabled) s more).Sound cfg := by
      have h := run_sound cfg fl enabled leaveFd e (evs ++ more)
      rwa [run,Transitions.run_append] at h
    obtain ⟨h₁,h₂,h₃⟩ := hs'.jammed (by rw [hpc]; trivial)
      (go_joins_itself hpc) ev
    exact ⟨h₁.trans hpc,h₂.trans htable,h₃.trans htimers⟩

/-- `b` is suspected, its timer fires, and the check finds the episode. -/
def checkedRun : List HostEvent :=
  let w : Tid := .worker 0
  HostEvent.handled w (.alive (genAliveBroadcast ⟨1,"b","10.0.0.2",6666⟩) (-1) ⟨0,0,1,2,[],[]⟩) ++
    HostEvent.handled w (.suspect (genSuspectBroadcast ⟨1,"b","c"⟩) ⟨0,0,3,4,[],[]⟩) ++
    List.replicate 5 (.goOn (.suspicion 0))

/-- The timeout is over, the callback calls `deadNode`, and `b` stays suspect. -/
theorem callback_buries_nobody_late :
    let node := defaultLANConfig "node"
    let run := run node .small (fun _ => true) 3 ⟨0,0,0,0,[],[]⟩
    let late := checkedRun ++ List.replicate 4 (.go (.suspicion 0) .go ⟨0,0,5,6,[],[]⟩)
    (run late).locking.pc (.suspicion 0) = .join (.deadNode "b") (.suspicion 0) ∧
      (run late).member.find "b" = some ⟨⟨"b","10.0.0.2",6666⟩,1,.stateSuspect,3⟩ ∧
      ∀ more, (run (late ++ more)).member.table = (run late).member.table := by
  intro node run late
  have hjoin : (run late).locking.pc (.suspicion 0) = .join (.deadNode "b") (.suspicion 0) := by
    decide +kernel
  have hfind : (run late).member.find "b" =
      some ⟨⟨"b","10.0.0.2",6666⟩,1,.stateSuspect,3⟩ := by
    decide +kernel
  have h := callback_buries_nobody node .small (fun _ => true) 3 ⟨0,0,0,0,[],[]⟩ late 0 .go
    ⟨0,0,0,0,[],[]⟩
  clear_value late node
  exact ⟨hjoin,hfind,fun more => ((h.2 _ _ hjoin).2 more).1⟩

end Host

end GossipMemberlist
