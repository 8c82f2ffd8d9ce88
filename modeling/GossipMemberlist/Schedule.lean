import GossipMemberlist.RepeatTimer
import GossipMemberlist.Locking

/-!
# The background tasks

`schedule` makes a repeat timer for each task whose interval is positive and runs it,
`deschedule` destroys the timers one after the other. Each call holds `tickerLock`
from its start to its end, so there is one caller; the threads of the timers take their
steps between the caller's.
-/

namespace GossipMemberlist

inductive TickerPc
  | free | schedule (ps : List Periodic) | deschedule (ps : List Periodic)
  deriving DecidableEq

structure Ticker where
  scheduled : Bool
  scheduleTimer : Periodic → Option RepeatTimer
  pc : TickerPc

namespace Ticker

open RepeatTimer

inductive Event
  | schedule | deschedule | caller
  | runner (p : Periodic) (m : RepeatTimer.Move)

def initial : Ticker := ⟨false,fun _ => none,.free⟩

def setTimer (p : Periodic) (tm : Option RepeatTimer) (s : Ticker) : Ticker :=
  { s with scheduleTimer := Function.update s.scheduleTimer p tm }

/-- The next step of `schedule` for the timer of `p`. Only `pushPull` has a scalable timer. -/
def launch (interval : Periodic → ℤ) (p : Periodic) (ps : List Periodic) (s : Ticker) : Ticker :=
  if 0 < interval p then
    match s.scheduleTimer p with
    | none =>
      s.setTimer p (some ((RepeatTimer.new (interval p) true (p = .pushPull)).step (.call .run)))
    | some tm =>
      if tm.pc = .free then { s with pc := .schedule ps } else s.setTimer p (some (tm.step .caller))
  else { s with pc := .schedule ps }

/-- The next step of `deschedule` for the timer of `p`. -/
def reset (interval : Periodic → ℤ) (p : Periodic) (ps : List Periodic) (s : Ticker) : Ticker :=
  if 0 < interval p then
    match s.scheduleTimer p with
    | none => { s with pc := .deschedule ps }
    | some tm =>
      match tm.pc with
      | .free => s.setTimer p (some (tm.step (.call .destructor)))
      | .destroyed => { s.setTimer p none with pc := .deschedule ps }
      | _ => s.setTimer p (some (tm.step .caller))
  else { s with pc := .deschedule ps }

def step (interval : Periodic → ℤ) (s : Ticker) : Event → Ticker
  | .schedule =>
    if s.pc = .free ∧ s.scheduled = false then
      { s with scheduled := true, pc := .schedule [.probe,.pushPull,.gossip] }
    else s
  | .deschedule =>
    if s.pc = .free ∧ s.scheduled = true then
      { s with scheduled := false, pc := .deschedule [.probe,.pushPull,.gossip] }
    else s
  | .caller =>
    match s.pc with
    | .free => s
    | .schedule [] | .deschedule [] => { s with pc := .free }
    | .schedule (p::ps) => s.launch interval p ps
    | .deschedule (p::ps) => s.reset interval p ps
  | .runner p m => s.setTimer p ((s.scheduleTimer p).map (·.step (.runner m)))

def Up (tm : RepeatTimer) : Prop := tm.Inv ∧ tm.pc = .free ∧ tm.running = true

def Launching (tm : RepeatTimer) : Prop :=
  tm.Inv ∧ tm.task = true ∧ (tm.pc = .runLoad ∧ tm.running = false ∨ tm.pc = .runStore ∨
    tm.pc = .join ∨ tm.pc = .create ∨ tm.pc = .free ∧ tm.running = true)

def Ending (tm : RepeatTimer) : Prop :=
  tm.Inv ∧ (tm.pc = .stopLoad .destructor ∨ tm.pc = .stopCancel .destructor ∨
    tm.pc = .stopStore .destructor ∨ tm.pc = .lastJoin ∨ tm.pc = .destroyed)

variable {interval : Periodic → ℤ} {s : Ticker} {tm : RepeatTimer}

theorem runner_frame (tm : RepeatTimer) (m : RepeatTimer.Move) :
    (tm.step (.runner m)).pc = tm.pc ∧ (tm.step (.runner m)).running = tm.running ∧
      (tm.step (.runner m)).task = tm.task := by
  simp only [RepeatTimer.step]
  split
  · exact ⟨rfl,rfl,rfl⟩
  · unfold RepeatTimer.runner
    repeat' split
    all_goals exact ⟨rfl,rfl,rfl⟩

theorem Up.runner (h : Up tm) (m : RepeatTimer.Move) : Up (tm.step (.runner m)) := by
  obtain ⟨hpc,hrun,-⟩ := runner_frame tm m
  exact ⟨h.1.step _,hpc.trans h.2.1,hrun.trans h.2.2⟩

theorem Launching.runner (h : Launching tm) (m : RepeatTimer.Move) :
    Launching (tm.step (.runner m)) := by
  obtain ⟨hpc,hrun,htask⟩ := runner_frame tm m
  rw [Launching,hpc,hrun,htask]
  exact ⟨h.1.step _,h.2⟩

theorem Ending.runner (h : Ending tm) (m : RepeatTimer.Move) : Ending (tm.step (.runner m)) := by
  rw [Ending,(runner_frame tm m).1]
  exact ⟨h.1.step _,h.2⟩

theorem Launching.new {p : Periodic} (hp : 0 < interval p) :
    Launching ((RepeatTimer.new (interval p) true (p = .pushPull)).step (.call .run)) :=
  ⟨(Inv.new hp _ _).step _,rfl,Or.inl ⟨rfl,rfl⟩⟩

theorem Launching.caller (h : Launching tm) : Launching (tm.step .caller) := by
  obtain ⟨hinv,htask,hpc⟩ := h
  refine ⟨hinv.step _,?_⟩
  rcases hpc with ⟨hpc,hrun⟩ | hpc | hpc | hpc | ⟨hpc,hrun⟩
  · simp [RepeatTimer.step,RepeatTimer.caller,hpc,hrun,htask]
  · simp [RepeatTimer.step,RepeatTimer.caller,hpc,htask]
  · simp only [RepeatTimer.step,RepeatTimer.caller,hpc]
    split <;> simp [htask,hpc]
  · have hrun := hinv.raised (Or.inr hpc)
    simp [RepeatTimer.step,RepeatTimer.caller,hpc,hrun,htask]
  · simp [RepeatTimer.step,RepeatTimer.caller,hpc,hrun,htask]

theorem Launching.up (h : Launching tm) (hpc : tm.pc = .free) : Up tm := by
  obtain ⟨hinv,-,h⟩ := h
  rcases h with ⟨h,-⟩ | h | h | h | ⟨-,hrun⟩
  · cases hpc.symm.trans h
  · cases hpc.symm.trans h
  · cases hpc.symm.trans h
  · cases hpc.symm.trans h
  · exact ⟨hinv,hpc,hrun⟩

theorem Up.ending (h : Up tm) : Ending (tm.step (.call .destructor)) := by
  refine ⟨h.1.step _,Or.inl ?_⟩
  simp only [RepeatTimer.step,h.2.1,if_true]
  rfl

theorem Ending.caller (h : Ending tm) : Ending (tm.step .caller) := by
  obtain ⟨hinv,hpc⟩ := h
  refine ⟨hinv.step _,?_⟩
  rcases hpc with hpc | hpc | hpc | hpc | hpc
  · simp only [RepeatTimer.step,RepeatTimer.caller,hpc]
    split <;> simp [stopped]
  · simp [RepeatTimer.step,RepeatTimer.caller,hpc]
  · simp [RepeatTimer.step,RepeatTimer.caller,hpc,stopped]
  · simp only [RepeatTimer.step,RepeatTimer.caller,hpc]
    split <;> simp [hpc]
  · simp [RepeatTimer.step,RepeatTimer.caller,hpc]

def Raised (o : Option RepeatTimer) : Prop := ∃ tm, o = some tm ∧ Up tm

/-- What the timer of `p` looks like: those that the caller is done with are up after `schedule`
and gone after `deschedule`, and those that come later the other way round. -/
def Slot (p : Periodic) (scheduled : Bool) (o : Option RepeatTimer) : TickerPc → Prop
  | .free => if scheduled then Raised o else o = none
  | .schedule ps => scheduled = true ∧ (p ∉ ps ∧ Raised o ∨
    ps.head? = some p ∧ (∀ tm, o = some tm → Launching tm) ∨ p ∈ ps.tail ∧ o = none)
  | .deschedule ps => scheduled = false ∧ (p ∉ ps ∧ o = none ∨
    ps.head? = some p ∧ (∃ tm, o = some tm ∧ (Up tm ∨ Ending tm)) ∨ p ∈ ps.tail ∧ Raised o)

structure Placed (interval : Periodic → ℤ) (s : Ticker) : Prop where
  enabled : ∀ p, 0 < interval p → Slot p s.scheduled (s.scheduleTimer p) s.pc
  disabled : ∀ p, interval p ≤ 0 → s.scheduleTimer p = none
  nodup : ∀ ps, s.pc = .schedule ps ∨ s.pc = .deschedule ps → ps.Nodup

theorem Raised.runner {o : Option RepeatTimer} (h : Raised o) (m : RepeatTimer.Move) :
    Raised (o.map (·.step (.runner m))) := by
  obtain ⟨tm,rfl,hup⟩ := h
  exact ⟨_,rfl,hup.runner m⟩

theorem Slot.runner {p : Periodic} {scheduled : Bool} {o : Option RepeatTimer} {pc : TickerPc}
    (h : Slot p scheduled o pc) (m : RepeatTimer.Move) :
    Slot p scheduled (o.map (·.step (.runner m))) pc := by
  cases pc with
  | free =>
    simp only [Slot] at h ⊢
    split
    · rename_i hs
      rw [if_pos hs] at h
      exact h.runner m
    · rename_i hs
      rw [if_neg hs] at h
      rw [h,Option.map_none]
  | schedule ps =>
    obtain ⟨hs,⟨hp,hup⟩ | ⟨hp,hl⟩ | ⟨hp,rfl⟩⟩ := h
    · exact ⟨hs,Or.inl ⟨hp,hup.runner m⟩⟩
    · refine ⟨hs,Or.inr (Or.inl ⟨hp,fun tm htm => ?_⟩)⟩
      obtain ⟨tm',htm',rfl⟩ := Option.map_eq_some_iff.mp htm
      exact (hl tm' htm').runner m
    · exact ⟨hs,Or.inr (Or.inr ⟨hp,rfl⟩)⟩
  | deschedule ps =>
    obtain ⟨hs,⟨hp,rfl⟩ | ⟨hp,tm,rfl,htm⟩ | ⟨hp,hup⟩⟩ := h
    · exact ⟨hs,Or.inl ⟨hp,rfl⟩⟩
    · exact ⟨hs,Or.inr (Or.inl ⟨hp,_,rfl,htm.imp (·.runner m) (·.runner m)⟩)⟩
    · exact ⟨hs,Or.inr (Or.inr ⟨hp,hup.runner m⟩)⟩

theorem Slot.scheduled {p q : Periodic} {ps : List Periodic} {scheduled : Bool}
    {o : Option RepeatTimer} (h : Slot p scheduled o (.schedule (q::ps))) (hps : (q::ps).Nodup)
    (hq : p = q → Raised o) : Slot p scheduled o (.schedule ps) := by
  obtain ⟨hs,⟨hp,hup⟩ | ⟨hp,-⟩ | ⟨hp,hnone⟩⟩ := h
  · exact ⟨hs,Or.inl ⟨(List.ne_and_not_mem_of_not_mem_cons hp).2,hup⟩⟩
  · cases hp
    exact ⟨hs,Or.inl ⟨(List.nodup_cons.mp hps).1,hq rfl⟩⟩
  · cases ps with
    | nil => cases hp
    | cons r ps =>
      rcases List.mem_cons.mp hp with rfl | hp
      · exact ⟨hs,Or.inr (Or.inl ⟨rfl,fun tm htm => by rw [hnone] at htm; cases htm⟩)⟩
      · exact ⟨hs,Or.inr (Or.inr ⟨hp,hnone⟩)⟩

theorem Slot.descheduled {p q : Periodic} {ps : List Periodic} {scheduled : Bool}
    {o : Option RepeatTimer} (h : Slot p scheduled o (.deschedule (q::ps))) (hps : (q::ps).Nodup)
    (hq : p = q → o = none) : Slot p scheduled o (.deschedule ps) := by
  obtain ⟨hs,⟨hp,hnone⟩ | ⟨hp,-⟩ | ⟨hp,hup⟩⟩ := h
  · exact ⟨hs,Or.inl ⟨(List.ne_and_not_mem_of_not_mem_cons hp).2,hnone⟩⟩
  · cases hp
    exact ⟨hs,Or.inl ⟨(List.nodup_cons.mp hps).1,hq rfl⟩⟩
  · cases ps with
    | nil => cases hp
    | cons r ps =>
      rcases List.mem_cons.mp hp with rfl | hp
      · obtain ⟨tm,htm,hup⟩ := hup
        exact ⟨hs,Or.inr (Or.inl ⟨rfl,tm,htm,Or.inl hup⟩)⟩
      · exact ⟨hs,Or.inr (Or.inr ⟨hp,hup⟩)⟩

theorem Placed.initial (interval : Periodic → ℤ) : Placed interval initial where
  enabled _ _ := rfl
  disabled _ _ := rfl
  nodup ps h := by rcases h with h | h <;> cases h

theorem Placed.setTimer (hs : Placed interval s) {p : Periodic} {o : Option RepeatTimer}
    (hp : 0 < interval p) (ho : Slot p s.scheduled o s.pc) : Placed interval (s.setTimer p o) where
  enabled q hq := by
    by_cases hqp : q = p
    · subst hqp
      simp only [Ticker.setTimer,Function.update_self]
      exact ho
    · simp only [Ticker.setTimer,Function.update_of_ne hqp]
      exact hs.enabled q hq
  disabled q hq := by
    have hqp : q ≠ p := by
      rintro rfl
      exact absurd hp (not_lt.mpr hq)
    simp only [Ticker.setTimer,Function.update_of_ne hqp]
    exact hs.disabled q hq
  nodup := hs.nodup

theorem Placed.launch (hs : Placed interval s) {p : Periodic} {ps : List Periodic}
    (hpc : s.pc = .schedule (p::ps)) : Placed interval (s.launch interval p ps) := by
  have hnodup := hs.nodup _ (Or.inl hpc)
  have hrest : ∀ ps', TickerPc.schedule ps = .schedule ps' ∨ TickerPc.schedule ps = .deschedule ps' →
      ps'.Nodup := by
    rintro ps' (h | h)
    · cases h
      exact (List.nodup_cons.mp hnodup).2
    · cases h
  have hgo (hup : 0 < interval p → Raised (s.scheduleTimer p)) :
      Placed interval { s with pc := .schedule ps } := by
    refine ⟨fun q hq => ?_,hs.disabled,hrest⟩
    have hslot := hs.enabled q hq
    rw [hpc] at hslot
    refine hslot.scheduled hnodup ?_
    rintro rfl
    exact hup hq
  unfold Ticker.launch
  split
  · rename_i hp
    have hslot := hs.enabled p hp
    rw [hpc] at hslot
    obtain ⟨hsched,⟨hnot,-⟩ | ⟨-,hl⟩ | ⟨htail,-⟩⟩ := hslot
    · exact absurd List.mem_cons_self hnot
    · have hset {tm : RepeatTimer} (htm : Launching tm) : Placed interval (s.setTimer p (some tm)) := by
        refine hs.setTimer hp ?_
        rw [hpc]
        exact ⟨hsched,Or.inr (Or.inl ⟨rfl,fun tm' h => by cases h; exact htm⟩)⟩
      split
      · exact hset (.new hp)
      · rename_i tm htm
        split
        · rename_i hfree
          exact hgo fun _ => ⟨tm,htm,(hl tm htm).up hfree⟩
        · exact hset (hl tm htm).caller
    · exact absurd htail (List.nodup_cons.mp hnodup).1
  · rename_i hp
    exact hgo fun h => absurd h hp

theorem Placed.reset (hs : Placed interval s) {p : Periodic} {ps : List Periodic}
    (hpc : s.pc = .deschedule (p::ps)) : Placed interval (s.reset interval p ps) := by
  have hnodup := hs.nodup _ (Or.inr hpc)
  have hrest : ∀ ps', TickerPc.deschedule ps = .schedule ps' ∨
      TickerPc.deschedule ps = .deschedule ps' → ps'.Nodup := by
    rintro ps' (h | h)
    · cases h
    · cases h
      exact (List.nodup_cons.mp hnodup).2
  have hothers : ∀ q, 0 < interval q → q ≠ p →
      Slot q s.scheduled (s.scheduleTimer q) (.deschedule ps) := by
    intro q hq hqp
    have hslot := hs.enabled q hq
    rw [hpc] at hslot
    exact hslot.descheduled hnodup fun h => absurd h hqp
  unfold Ticker.reset
  split
  · rename_i hp
    have hslot := hs.enabled p hp
    rw [hpc] at hslot
    obtain ⟨hsched,⟨hnot,-⟩ | ⟨-,tm,htm,hend⟩ | ⟨htail,-⟩⟩ := hslot
    · exact absurd List.mem_cons_self hnot
    · have hset {tm : RepeatTimer} (htm : Ending tm) : Placed interval (s.setTimer p (some tm)) := by
        refine hs.setTimer hp ?_
        rw [hpc]
        exact ⟨hsched,Or.inr (Or.inl ⟨rfl,_,rfl,Or.inr htm⟩)⟩
      rw [htm]
      dsimp only
      split
      · rename_i hfree
        rcases hend with hup | hend
        · exact hset hup.ending
        · obtain ⟨-,h | h | h | h | h⟩ := hend <;> cases hfree.symm.trans h
      · refine ⟨fun q hq => ?_,fun q hq => ?_,hrest⟩
        · by_cases hqp : q = p
          · subst hqp
            simp only [Ticker.setTimer,Function.update_self]
            exact ⟨hsched,Or.inl ⟨(List.nodup_cons.mp hnodup).1,rfl⟩⟩
          · simp only [Ticker.setTimer,Function.update_of_ne hqp]
            exact hothers q hq hqp
        · by_cases hqp : q = p
          · subst hqp
            simp only [Ticker.setTimer,Function.update_self]
          · simp only [Ticker.setTimer,Function.update_of_ne hqp]
            exact hs.disabled q hq
      · rename_i hbusy _
        rcases hend with hup | hend
        · exact absurd hup.2.1 hbusy
        · exact hset hend.caller
    · exact absurd htail (List.nodup_cons.mp hnodup).1
  · rename_i hp
    refine ⟨fun q hq => hothers q hq ?_,hs.disabled,hrest⟩
    rintro rfl
    exact hp hq

theorem Placed.step (hs : Placed interval s) (e : Event) : Placed interval (s.step interval e) := by
  have hfree : ∀ ps, TickerPc.free = .schedule ps ∨ TickerPc.free = .deschedule ps → ps.Nodup := by
    rintro ps (h | h) <;> cases h
  cases e with
  | schedule =>
    simp only [Ticker.step]
    split
    · rename_i h
      refine ⟨fun p hp => ?_,hs.disabled,?_⟩
      · have hslot := hs.enabled p hp
        rw [h.1,h.2] at hslot
        have hnone : s.scheduleTimer p = none := hslot
        refine ⟨rfl,Or.inr ?_⟩
        cases p with
        | probe => exact Or.inl ⟨rfl,fun tm htm => by rw [hnone] at htm; cases htm⟩
        | pushPull | gossip => exact Or.inr ⟨by decide,hnone⟩
      · rintro ps (h | h)
        · cases h
          decide
        · cases h
    · exact hs
  | deschedule =>
    simp only [Ticker.step]
    split
    · rename_i h
      refine ⟨fun p hp => ?_,hs.disabled,?_⟩
      · have hslot := hs.enabled p hp
        rw [h.1,h.2] at hslot
        have hup : Raised (s.scheduleTimer p) := hslot
        refine ⟨rfl,Or.inr ?_⟩
        cases p with
        | probe =>
          obtain ⟨tm,htm,hup⟩ := hup
          exact Or.inl ⟨rfl,tm,htm,Or.inl hup⟩
        | pushPull | gossip => exact Or.inr ⟨by decide,hup⟩
      · rintro ps (h | h)
        · cases h
        · cases h
          decide
    · exact hs
  | caller =>
    simp only [Ticker.step]
    split
    · exact hs
    · rename_i hpc
      refine ⟨fun p hp => ?_,hs.disabled,hfree⟩
      have hslot := hs.enabled p hp
      rw [hpc] at hslot
      obtain ⟨hsched,⟨-,hup⟩ | ⟨h,-⟩ | ⟨h,-⟩⟩ := hslot
      · rw [Slot,if_pos hsched]
        exact hup
      · cases h
      · cases h
    · rename_i hpc
      refine ⟨fun p hp => ?_,hs.disabled,hfree⟩
      have hslot := hs.enabled p hp
      rw [hpc] at hslot
      obtain ⟨hsched,⟨-,hnone⟩ | ⟨h,-⟩ | ⟨h,-⟩⟩ := hslot
      · rw [Slot,if_neg (by simp [hsched])]
        exact hnone
      · cases h
      · cases h
    · rename_i p ps hpc
      exact hs.launch hpc
    · rename_i p ps hpc
      exact hs.reset hpc
  | runner p m =>
    simp only [Ticker.step]
    by_cases hp : 0 < interval p
    · exact hs.setTimer hp ((hs.enabled p hp).runner m)
    · have hnone := hs.disabled p (not_lt.mp hp)
      have hsame : s.setTimer p ((s.scheduleTimer p).map (·.step (.runner m))) = s := by
        rw [hnone,Option.map_none,Ticker.setTimer,← hnone,Function.update_eq_self]
      rw [hsame]
      exact hs

theorem Slot.inv {p : Periodic} {scheduled : Bool} {pc : TickerPc}
    (h : Slot p scheduled (some tm) pc) : tm.Inv := by
  have hraised (h : Raised (some tm)) : tm.Inv := by
    obtain ⟨tm',htm,hup⟩ := h
    cases htm
    exact hup.1
  cases pc with
  | free =>
    simp only [Slot] at h
    split at h
    · exact hraised h
    · cases h
  | schedule ps =>
    obtain ⟨-,⟨-,hup⟩ | ⟨-,hl⟩ | ⟨-,hnone⟩⟩ := h
    · exact hraised hup
    · exact (hl tm rfl).1
    · cases hnone
  | deschedule ps =>
    obtain ⟨-,⟨-,hnone⟩ | ⟨-,tm',htm,hend⟩ | ⟨-,hup⟩⟩ := h
    · cases hnone
    · cases htm
      exact hend.elim (·.1) (·.1)
    · exact hraised hup

/-- Whatever the calls of `schedule` and `deschedule` and the steps of the threads between
theirs: after `schedule` each task with a positive interval has the one thread that nobody has
cancelled, and `deschedule` returns when no thread is left. -/
theorem ticker_contract (interval : Periodic → ℤ) (evs : List Event) :
    let s := Transitions.run (step interval) initial evs
    (∀ p tm, s.scheduleTimer p = some tm → 0 < interval p ∧ tm.Contract) ∧
      (s.pc = .free → ∀ p, if s.scheduled = true ∧ 0 < interval p then
          ∃ tm th, s.scheduleTimer p = some tm ∧ tm.t = some th ∧ th.cancelled = false
        else s.scheduleTimer p = none) := by
  intro s
  have hs : Placed interval s :=
    Transitions.run_invariant (Placed.initial interval) (fun s e hs => hs.step e) evs
  refine ⟨fun p tm htm => ?_,fun hpc p => ?_⟩
  · have hp : 0 < interval p := by
      by_contra hp
      cases htm.symm.trans (hs.disabled p (not_lt.mp hp))
    have hslot := hs.enabled p hp
    rw [htm] at hslot
    exact ⟨hp,hslot.inv.toContract⟩
  · split
    · rename_i h
      have hslot := hs.enabled p h.2
      rw [hpc,h.1] at hslot
      obtain ⟨tm,htm,hinv,hfree,hrun⟩ : Raised (s.scheduleTimer p) := hslot
      rcases hinv.kept hrun with h | h | ⟨w,h⟩ | ⟨th,ht,hc⟩
      · cases hfree.symm.trans h
      · cases hfree.symm.trans h
      · cases hfree.symm.trans h
      · exact ⟨tm,th,htm,ht,hc⟩
    · rename_i h
      by_cases hp : 0 < interval p
      · have hslot := hs.enabled p hp
        rw [hpc] at hslot
        have hsched : s.scheduled = false := by
          by_contra hsched
          exact h ⟨by simpa using hsched,hp⟩
        rw [Slot,if_neg (by simp [hsched])] at hslot
        exact hslot
      · exact hs.disabled p (not_lt.mp hp)

end Ticker
end GossipMemberlist
