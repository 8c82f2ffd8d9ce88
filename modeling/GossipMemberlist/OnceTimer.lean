import GossipMemberlist.Library.Transitions
import Mathlib.Algebra.Order.Ring.Int
import Mathlib.Data.Nat.Log
import Mathlib.Tactic.Positivity
import Mathlib.Tactic.SplitIfs

/-!
# The once timer

The thread of a `onceTimer` sleeps, calls the task and clears `running`. `Run`, `Stop`
and `Restart` come from one caller at a time, in atomic steps between those of the
thread. A cancelled thread ends in its sleep or at a cancellation point of the task.
-/

namespace GossipMemberlist

def pushPullScaleThreshold : ℕ := 32

def pushPullScale (timeinterval_ : ℤ) (n : ℕ) : ℤ :=
  if n ≤ pushPullScaleThreshold then timeinterval_
  else
    -- `ceil(log2(n) - log2(pushPullScaleThreshold)) + 1`
    let multiplier := Nat.clog 2 n - Nat.clog 2 pushPullScaleThreshold + 1
    timeinterval_ * multiplier

theorem pushPullScale_pos {timeinterval_ : ℤ} {n : ℕ} :
    0 < pushPullScale timeinterval_ n ↔ 0 < timeinterval_ := by
  unfold pushPullScale
  split
  · rfl
  · exact mul_pos_iff_of_pos_right (by positivity)

/-- Where the thread is. It is `halted` when it was cancelled in its sleep, and `ended` when it
was cancelled in the task or has run to its end. -/
inductive TimerStage
  | created | asleep | halted | awake | inTask | finished | ended
  deriving DecidableEq

/-- The thread in `t`, with the number of the `Run` that created it. -/
structure TimerThread where
  run : ℕ
  stage : TimerStage
  cancelled : Bool
  deriving DecidableEq

/-- The next step of the caller. A `Stop` that belongs to a `Restart` carries its argument. -/
inductive TimerPc
  | free
  | stopLoad (restart : Option ℤ) | stopCancel (restart : Option ℤ) | stopStore (restart : Option ℤ)
  | setInterval (timeinterval_ : ℤ)
  | runLoad | runStore | join | create
  deriving DecidableEq

/-- The thread of a `Run` starts the task; a `Stop` of that `Run` returns true. -/
inductive TimerMark
  | starts (run : ℕ) | stops (run : ℕ)
  deriving DecidableEq

/-- `task` says whether there is one. A thread is joined before another takes its place. -/
structure OnceTimer where
  running : Bool
  scalable : Bool
  timeinterval : ℤ
  task : Bool
  t : Option TimerThread
  runs : ℕ
  pc : TimerPc
  log : List TimerMark
  deriving DecidableEq

def TimerPc.storing : TimerPc → Bool
  | .stopStore _ => true
  | _ => false

namespace TimerStage

def started : TimerStage → Bool
  | .inTask | .finished | .ended => true
  | _ => false

def exited : TimerStage → Bool
  | .halted | .ended => true
  | _ => false

end TimerStage

/-- Whether the thread may still start the task. A sleep of no length is no cancellation point. -/
def TimerThread.mayStart (timeinterval : ℤ) (th : TimerThread) : Bool :=
  match th.stage with
  | .created => !th.cancelled || decide (timeinterval ≤ 0)
  | .asleep => !th.cancelled
  | .awake => true
  | _ => false

namespace OnceTimer

inductive Call
  | run | stop | restart (timeinterval_ : ℤ)

/-- The steps of the thread. `read` comes with the answer of `estNumNodes`, and `point` is a
cancellation point. -/
inductive Move
  | read (n : ℕ) | wake | start | finish | clear | point
  deriving DecidableEq

inductive Event
  | call (c : Call)
  | caller
  | runner (m : Move)

def new (timeinterval_ : ℤ) (task_ scalable_ : Bool) : OnceTimer :=
  ⟨false,scalable_,timeinterval_,task_,none,0,.free,[]⟩

def waitTime (n : ℕ) (s : OnceTimer) : ℤ :=
  if s.scalable then pushPullScale s.timeinterval n else s.timeinterval

def goto (th : TimerThread) (stage : TimerStage) (s : OnceTimer) : OnceTimer :=
  { s with t := some { th with stage } }

def runner (th : TimerThread) (m : Move) (s : OnceTimer) : OnceTimer :=
  match m, th.stage with
  | .read n, .created => s.goto th (if 0 < s.waitTime n then .asleep else .awake)
  | .wake, .asleep => if th.cancelled then s else s.goto th .awake
  | .start, .awake => { s.goto th .inTask with log := s.log ++ [.starts th.run] }
  | .finish, .inTask => s.goto th .finished
  | .clear, .finished => { s.goto th .ended with running := false }
  | .point, .asleep => if th.cancelled then s.goto th .halted else s
  | .point, .inTask => if th.cancelled then s.goto th .ended else s
  | _, _ => s

def stopped : Option ℤ → TimerPc
  | none => .free
  | some timeinterval_ => .setInterval timeinterval_

def caller (s : OnceTimer) : OnceTimer :=
  match s.pc with
  | .free => s
  | .stopLoad r => { s with pc := if s.running then .stopCancel r else stopped r }
  | .stopCancel r =>
    { s with t := s.t.map fun th => { th with cancelled := true }, pc := .stopStore r }
  | .stopStore r =>
    { s with
      running := false
      pc := stopped r
      log := s.log ++ (s.t.map fun th => .stops th.run).toList }
  | .setInterval timeinterval_ =>
    { s with
      timeinterval := if 0 < timeinterval_ then timeinterval_ else s.timeinterval
      pc := .runLoad }
  | .runLoad => { s with pc := if s.running || !s.task then .free else .runStore }
  | .runStore => { s with running := true, pc := .join }
  | .join =>
    -- `join` waits for the thread
    if s.t.all fun th => th.stage.exited then { s with t := none, pc := .create } else s
  | .create => { s with t := some ⟨s.runs,.created,false⟩, runs := s.runs + 1, pc := .free }

def step (s : OnceTimer) : Event → OnceTimer
  | .call .run => if s.pc = .free then { s with pc := .runLoad } else s
  | .call .stop => if s.pc = .free then { s with pc := .stopLoad none } else s
  | .call (.restart timeinterval_) =>
    if s.pc = .free then { s with pc := .stopLoad (some timeinterval_) } else s
  | .caller => s.caller
  | .runner m =>
    match s.t with
    | none => s
    | some th => s.runner th m

/-- Each `Run` starts the task once at most, and not after a `Stop` of it has returned true;
`running` is set while a thread may still start the task. -/
structure Contract (s : OnceTimer) : Prop where
  once : ∀ i, s.log.count (.starts i) ≤ 1
  after : s.log.Pairwise fun a b => ∀ i, a = .stops i → b ≠ .starts i
  flagged : ∀ th, s.t = some th → th.mayStart s.timeinterval = true → s.running = true

/-- Nor has the task been started by a `Run` of which a `Stop` has returned true. -/
def Exclusive (s : OnceTimer) : Prop := ∀ i, .stops i ∈ s.log → .starts i ∉ s.log

/-- A `Stop` does not return true between the sleep and the call of the task, and no thread
clears `running` when a `Run` has set it and waits to join. -/
def Careful (s : OnceTimer) : Event → Prop
  | .call _ => True
  | .caller => s.pc.storing = true → ∀ th ∈ s.t,
      th.stage ≠ .awake ∧ (th.stage = .created → 0 < s.timeinterval)
  | .runner m => m = .clear → ∀ th ∈ s.t, th.stage = .finished → s.pc ≠ .join

/-- A `Stop` returns true only when the thread has not come past its sleep. -/
def Timely (s : OnceTimer) : Event → Prop
  | .caller => s.pc.storing = true → ∀ th ∈ s.t,
      th.stage = .asleep ∨ th.stage = .halted ∨ th.stage = .created ∧ 0 < s.timeinterval
  | _ => True

instance Careful.decidable : ∀ s e, Decidable (Careful s e)
  | _, .call _ => isTrue trivial
  | s, .caller => inferInstanceAs (Decidable (s.pc.storing = true → ∀ th ∈ s.t,
      th.stage ≠ .awake ∧ (th.stage = .created → 0 < s.timeinterval)))
  | s, .runner m =>
    inferInstanceAs (Decidable (m = .clear → ∀ th ∈ s.t, th.stage = .finished → s.pc ≠ .join))

instance Timely.decidable : ∀ s e, Decidable (Timely s e)
  | s, .caller => inferInstanceAs (Decidable (s.pc.storing = true → ∀ th ∈ s.t,
      th.stage = .asleep ∨ th.stage = .halted ∨ th.stage = .created ∧ 0 < s.timeinterval))
  | _, .call _ | _, .runner _ => isTrue trivial

variable {s s' : OnceTimer} {th : TimerThread}

theorem waitTime_pos {n : ℕ} : 0 < s.waitTime n ↔ 0 < s.timeinterval := by
  unfold waitTime
  split
  · exact pushPullScale_pos
  · rfl

inductive Moved (th : TimerThread) (m : Move) (s : OnceTimer) : OnceTimer → Prop
  | idle : Moved th m s s
  | slept (h : th.stage = .created) (hpos : 0 < s.timeinterval) : Moved th m s (s.goto th .asleep)
  | hurried (h : th.stage = .created) (hneg : s.timeinterval ≤ 0) : Moved th m s (s.goto th .awake)
  | woke (h : th.stage = .asleep) (hc : th.cancelled = false) : Moved th m s (s.goto th .awake)
  | called (h : th.stage = .awake) :
    Moved th m s { s.goto th .inTask with log := s.log ++ [.starts th.run] }
  | done (h : th.stage = .inTask) : Moved th m s (s.goto th .finished)
  | cleared (h : th.stage = .finished) (hm : m = .clear) :
    Moved th m s { s.goto th .ended with running := false }
  | halted (h : th.stage = .asleep) (hc : th.cancelled = true) : Moved th m s (s.goto th .halted)
  | cut (h : th.stage = .inTask) : Moved th m s (s.goto th .ended)

theorem runner_moved (th : TimerThread) (m : Move) (s : OnceTimer) :
    Moved th m s (s.runner th m) := by
  unfold runner
  split
  · rename_i n h
    split
    · rename_i hpos
      exact .slept h (waitTime_pos.mp hpos)
    · rename_i hneg
      exact .hurried h (not_lt.mp (mt waitTime_pos.mpr hneg))
  · rename_i h
    split
    · exact .idle
    · rename_i hc
      exact .woke h (by simpa using hc)
  · rename_i h
    exact .called h
  · rename_i h
    exact .done h
  · rename_i h
    exact .cleared h rfl
  · rename_i h
    split
    · rename_i hc
      exact .halted h hc
    · exact .idle
  · rename_i h
    split
    · exact .cut h
    · exact .idle
  · exact .idle

/-- What has to hold when the caller goes on to `pc` with nothing else changed. -/
def Entered (running : Bool) : TimerPc → Prop
  | .stopCancel _ => running = true
  | .runStore => running = false
  | .stopStore _ | .join | .create => False
  | _ => True

inductive Called (s : OnceTimer) : OnceTimer → Prop
  | idle : Called s s
  | went (pc : TimerPc) (hpc : s.pc ≠ .join ∧ s.pc ≠ .create) (hto : Entered s.running pc) :
    Called s { s with pc }
  | cancelled (r : Option ℤ) (hpc : s.pc = .stopCancel r) :
    Called s { s with t := s.t.map fun th => { th with cancelled := true }, pc := .stopStore r }
  | stopped (r : Option ℤ) (hpc : s.pc = .stopStore r) :
    Called s { s with
      running := false
      pc := stopped r
      log := s.log ++ (s.t.map fun th => .stops th.run).toList }
  | set (d : ℤ) (hpc : s.pc = .setInterval d) :
    Called s { s with timeinterval := if 0 < d then d else s.timeinterval, pc := .runLoad }
  | flagged (hpc : s.pc = .runStore) : Called s { s with running := true, pc := .join }
  | joined (hpc : s.pc = .join) (hexit : ∀ th, s.t = some th → th.stage.exited = true) :
    Called s { s with t := none, pc := .create }
  | created (hpc : s.pc = .create) :
    Called s { s with t := some ⟨s.runs,.created,false⟩, runs := s.runs + 1, pc := .free }

theorem caller_called (s : OnceTimer) : Called s s.caller := by
  unfold caller
  split
  · exact .idle
  · rename_i r hpc
    refine .went _ (by simp [hpc]) ?_
    split
    · assumption
    · cases r <;> trivial
  · rename_i r hpc
    exact .cancelled r hpc
  · rename_i r hpc
    exact .stopped r hpc
  · rename_i d hpc
    exact .set d hpc
  · rename_i hpc
    refine .went _ (by simp [hpc]) ?_
    split
    · trivial
    · rename_i h
      simp only [Bool.or_eq_true,not_or,Bool.not_eq_true] at h
      exact h.1
  · rename_i hpc
    exact .flagged hpc
  · rename_i hpc
    split
    · rename_i h
      exact .joined hpc fun th ht => by simpa [ht] using h
    · exact .idle
  · rename_i hpc
    exact .created hpc

theorem call_called (c : Call) (s : OnceTimer) : Called s (s.step (.call c)) := by
  cases c <;>
  · simp only [step]
    split_ifs with hpc
    · exact .went _ (by simp [hpc]) trivial
    · exact .idle

theorem call_busy (c : Call) (hpc : s.pc ≠ .free) : s.step (.call c) = s := by
  cases c <;> exact if_neg hpc

theorem step_runner {m : Move} (ht : s.t = some th) : s.step (.runner m) = s.runner th m := by
  simp [step,ht]

theorem step_runner_none {m : Move} (ht : s.t = none) : s.step (.runner m) = s := by
  simp [step,ht]

/-- What holds in every run: the thread in `t` is that of the last `Run`, and the log tells
whether it has started the task. -/
structure Base (s : OnceTimer) : Prop where
  fresh : ∀ i, s.runs ≤ i → .starts i ∉ s.log ∧ .stops i ∉ s.log
  below : ∀ th, s.t = some th → th.run < s.runs
  started : ∀ th, s.t = some th → (.starts th.run ∈ s.log ↔ th.stage.started = true)
  once : ∀ i, s.log.count (.starts i) ≤ 1
  armed : s.running = true → s.t.isSome = true ∨ s.pc = .join ∨ s.pc = .create
  loaded : ∀ r, s.pc = .stopCancel r → s.t.isSome = true
  handle : ∀ r, s.pc = .stopStore r → ∃ th, s.t = some th ∧ th.cancelled = true
  empty : s.pc = .create → s.t = none

theorem Base.new (timeinterval_ : ℤ) (task_ scalable_ : Bool) :
    (new timeinterval_ task_ scalable_).Base := by
  constructor <;> simp [OnceTimer.new]

theorem Base.goto (hs : s.Base) (ht : s.t = some th) {stage : TimerStage}
    (h : stage.started = th.stage.started) : (s.goto th stage).Base where
  fresh := hs.fresh
  below := by
    rintro _ ⟨⟩
    exact hs.below th ht
  started := by
    rintro _ ⟨⟩
    rw [h]
    exact hs.started th ht
  once := hs.once
  armed := fun _ => Or.inl rfl
  loaded := fun _ _ => rfl
  handle := fun r hr => by
    obtain ⟨th',ht',hc⟩ := hs.handle r hr
    obtain rfl := Option.some.inj (ht.symm.trans ht')
    exact ⟨_,rfl,hc⟩
  empty := fun h => by
    rw [hs.empty h] at ht
    cases ht

theorem Base.moved {m : Move} (hs : s.Base) (ht : s.t = some th) (h : Moved th m s s') :
    s'.Base := by
  cases h with
  | idle => exact hs
  | slept h | hurried h | woke h | done h | halted h | cut h => exact hs.goto ht (by rw [h]; rfl)
  | cleared h =>
    have hgoto : (s.goto th .ended).Base := hs.goto ht (by rw [h]; rfl)
    exact { hgoto with armed := fun h => by cases h }
  | called h =>
    have hnew : .starts th.run ∉ s.log := by
      rw [hs.started th ht,h]
      decide
    refine ⟨fun i hi => ?_,?_,?_,fun i => ?_,fun _ => Or.inl rfl,fun _ _ => rfl,fun r hr => ?_,
      fun hpc => ?_⟩
    · have hne : i ≠ th.run := fun he => absurd (hs.below th ht) (not_lt.mpr (he ▸ hi))
      simpa [hne] using hs.fresh i hi
    · rintro _ ⟨⟩
      exact hs.below th ht
    · rintro _ ⟨⟩
      simp [TimerStage.started]
    · rw [List.count_append]
      by_cases hi : i = th.run
      · rw [hi,List.count_eq_zero.mpr hnew]
        simp
      · have hlast : List.count (.starts i) [TimerMark.starts th.run] = 0 :=
          List.count_eq_zero.mpr (by simpa using hi)
        rw [hlast]
        exact hs.once i
    · obtain ⟨th',ht',hc⟩ := hs.handle r hr
      obtain rfl := Option.some.inj (ht.symm.trans ht')
      exact ⟨_,rfl,hc⟩
    · rw [hs.empty hpc] at ht
      cases ht

theorem Base.called (hs : s.Base) (h : Called s s') : s'.Base := by
  have harmed : s.running = true → s.pc ≠ .join ∧ s.pc ≠ .create → s.t.isSome = true :=
    fun hr hpc => (hs.armed hr).resolve_right (not_or.mpr hpc)
  cases h with
  | idle => exact hs
  | went pc hpc hto =>
    refine ⟨hs.fresh,hs.below,hs.started,hs.once,fun hr => Or.inl (harmed hr hpc),fun r h => ?_,
      fun r h => ?_,fun h => ?_⟩ <;> dsimp only at h <;> subst h
    · exact harmed hto hpc
    · exact hto.elim
    · exact hto.elim
  | cancelled r hpc =>
    obtain ⟨th,ht⟩ := Option.isSome_iff_exists.mp (hs.loaded r hpc)
    refine ⟨hs.fresh,?_,?_,hs.once,fun _ => Or.inl (by simp [ht]),by simp,
      fun _ _ => ⟨{ th with cancelled := true },by simp [ht],rfl⟩,by simp⟩
    all_goals
      intro th' ht'
      simp only [ht,Option.map_some,Option.some.injEq] at ht'
      subst ht'
    · exact hs.below th ht
    · exact hs.started th ht
  | stopped r hpc =>
    obtain ⟨th,ht,-⟩ := hs.handle r hpc
    refine ⟨fun i hi => ?_,hs.below,fun th' ht' => ?_,fun i => ?_,fun h => (by cases h),?_,?_,?_⟩
    · have hne : i ≠ th.run := fun he => absurd (hs.below th ht) (not_lt.mpr (he ▸ hi))
      simpa [ht,hne] using hs.fresh i hi
    · simpa [ht] using hs.started th' ht'
    · have hlast : List.count (.starts i) [TimerMark.stops th.run] = 0 :=
        List.count_eq_zero.mpr (by simp)
      simp only [ht,Option.map_some,Option.toList_some,List.count_append,hlast,Nat.add_zero]
      exact hs.once i
    all_goals cases r <;> simp [stopped]
  | set d hpc =>
    exact ⟨hs.fresh,hs.below,hs.started,hs.once,
      fun hr => Or.inl (harmed hr (by simp [hpc])),by simp,by simp,by simp⟩
  | flagged hpc =>
    exact ⟨hs.fresh,hs.below,hs.started,hs.once,fun _ => Or.inr (Or.inl rfl),by simp,by simp,
      by simp⟩
  | joined hpc hexit =>
    exact ⟨hs.fresh,by simp,by simp,hs.once,fun _ => Or.inr (Or.inr rfl),by simp,by simp,
      fun _ => rfl⟩
  | created hpc =>
    refine ⟨fun i hi => hs.fresh i (Nat.le_of_succ_le hi),?_,?_,hs.once,fun _ => Or.inl rfl,by simp,
      by simp,by simp⟩
    · rintro _ ⟨⟩
      exact Nat.lt_succ_self _
    · rintro _ ⟨⟩
      exact iff_of_false (hs.fresh s.runs (le_refl _)).1 Bool.false_ne_true

theorem Base.step (hs : s.Base) (e : Event) : (s.step e).Base := by
  cases e with
  | call c => exact hs.called (call_called c s)
  | caller => exact hs.called (caller_called s)
  | runner m =>
    cases ht : s.t with
    | none => rwa [step_runner_none ht]
    | some th =>
      rw [step_runner ht]
      exact hs.moved ht (runner_moved th m s)

/-- A thread that may not start the task never will: a step of it leaves that so, and starts the
task only if it may. -/
theorem Moved.mayStart {m : Move} (h : Moved th m s s') (ht : s.t = some th) :
    ∃ th', s'.t = some th' ∧ th'.run = th.run ∧
      (th'.mayStart s'.timeinterval = true → th.mayStart s.timeinterval = true) ∧
      (s'.log = s.log ∨
        th.mayStart s.timeinterval = true ∧ s'.log = s.log ++ [.starts th.run]) := by
  cases h with
  | idle => exact ⟨th,ht,rfl,id,Or.inl rfl⟩
  | slept h hpos =>
    refine ⟨_,rfl,rfl,fun hmay => ?_,Or.inl rfl⟩
    simp only [TimerThread.mayStart] at hmay
    simp [TimerThread.mayStart,h,hmay]
  | hurried h hneg => exact ⟨_,rfl,rfl,fun _ => by simp [TimerThread.mayStart,h,hneg],Or.inl rfl⟩
  | woke h hc => exact ⟨_,rfl,rfl,fun _ => by simp [TimerThread.mayStart,h,hc],Or.inl rfl⟩
  | called h =>
    have hmay : th.mayStart s.timeinterval = true := by simp [TimerThread.mayStart,h]
    exact ⟨_,rfl,rfl,fun _ => hmay,Or.inr ⟨hmay,rfl⟩⟩
  | done | cleared | halted | cut =>
    exact ⟨_,rfl,rfl,fun hmay => by simp [TimerThread.mayStart] at hmay,Or.inl rfl⟩

theorem mayStart_iff (ht : s.t = some th) : th.mayStart s.timeinterval = true ↔
    ∃ moves : List Move,
      (Transitions.run step s (moves.map .runner)).log = s.log ++ [.starts th.run] := by
  constructor
  · intro hmay
    cases hst : th.stage with
    | created =>
      by_cases hpos : 0 < s.timeinterval
      · have hc : th.cancelled = false := by
          simpa [TimerThread.mayStart,hst,not_le.mpr hpos] using hmay
        exact ⟨[.read 0,.wake,.start],by simp [step,runner,goto,ht,hst,waitTime_pos.mpr hpos,hc]⟩
      · have hwait : ¬0 < s.waitTime 0 := mt waitTime_pos.mp hpos
        exact ⟨[.read 0,.start],by simp [step,runner,goto,ht,hst,hwait]⟩
    | asleep =>
      have hc : th.cancelled = false := by simpa [TimerThread.mayStart,hst] using hmay
      exact ⟨[.wake,.start],by simp [step,runner,goto,ht,hst,hc]⟩
    | awake => exact ⟨[.start],by simp [step,runner,goto,ht,hst]⟩
    | _ => simp [TimerThread.mayStart,hst] at hmay
  · rintro ⟨moves,hlog⟩
    by_contra hno
    have hsame : (Transitions.run step s (moves.map .runner)).log = s.log := by
      clear hlog
      induction moves generalizing s th with
      | nil => rfl
      | cons m moves ih =>
        obtain ⟨th',ht',-,hmay,hlog⟩ := (runner_moved th m s).mayStart ht
        have hlog' := hlog.resolve_right fun h => hno h.1
        rw [List.map_cons,Transitions.run_cons,step_runner ht,ih ht' (mt hmay hno),hlog']
    simpa using hsame.symm.trans hlog

theorem Moved.frame {m : Move} (h : Moved th m s s') :
    s'.pc = s.pc ∧ (s'.running = s.running ∨
      m = .clear ∧ th.stage = .finished ∧ s'.running = false) := by
  cases h with
  | cleared h hm => exact ⟨rfl,Or.inr ⟨hm,h,rfl⟩⟩
  | _ => exact ⟨rfl,Or.inl rfl⟩

/-- The contract, and what it takes to keep it: a thread of which a `Stop` has returned true may
not start the task, and a `Run` on its way to a new thread has set `running`. -/
structure Inv (s : OnceTimer) : Prop extends s.Base, s.Contract where
  spent : ∀ th, s.t = some th → .stops th.run ∈ s.log → th.mayStart s.timeinterval = false
  launching : s.pc = .join ∨ s.pc = .create → s.running = true

theorem Inv.new (timeinterval_ : ℤ) (task_ scalable_ : Bool) :
    (new timeinterval_ task_ scalable_).Inv where
  toBase := Base.new timeinterval_ task_ scalable_
  after := List.Pairwise.nil
  flagged := by simp [OnceTimer.new]
  spent := by simp [OnceTimer.new]
  launching := by simp [OnceTimer.new]

theorem Inv.moved {m : Move} (hs : s.Inv) (ht : s.t = some th) (h : Moved th m s s')
    (hG : m = .clear → th.stage = .finished → s.pc ≠ .join) : s'.Inv := by
  obtain ⟨th',ht',hrun,hmay,hlog⟩ := h.mayStart ht
  obtain ⟨hpc,hflag⟩ := h.frame
  have hmem : .stops th.run ∈ s'.log → .stops th.run ∈ s.log := fun hx => by
    rcases hlog with hlog | ⟨-,hlog⟩
    · rwa [hlog] at hx
    · simpa [hlog] using hx
  refine { hs.toBase.moved ht h with after := ?_, flagged := ?_, spent := ?_, launching := ?_ }
  · rcases hlog with hlog | ⟨hstart,hlog⟩ <;> rw [hlog]
    · exact hs.after
    · refine List.pairwise_append.mpr
        ⟨hs.after,List.pairwise_singleton _ _,fun a ha b hb i hi => ?_⟩
      obtain rfl := List.mem_singleton.mp hb
      rintro ⟨⟩
      rw [hs.spent th ht (hi ▸ ha)] at hstart
      cases hstart
  · intro th'' ht'' hmay'
    obtain rfl := Option.some.inj (ht'.symm.trans ht'')
    rcases hflag with hflag | ⟨-,hfin,-⟩
    · rw [hflag]
      exact hs.flagged th ht (hmay hmay')
    · have hno : th.mayStart s.timeinterval = false := by simp [TimerThread.mayStart,hfin]
      rw [hmay hmay'] at hno
      cases hno
  · intro th'' ht'' hx
    obtain rfl := Option.some.inj (ht'.symm.trans ht'')
    rw [hrun] at hx
    exact Bool.eq_false_iff.mpr fun hmay' =>
      Bool.eq_false_iff.mp (hs.spent th ht (hmem hx)) (hmay hmay')
  · rw [hpc]
    intro hl
    rcases hflag with hflag | ⟨hm,hfin,-⟩
    · rw [hflag]
      exact hs.launching hl
    · rcases hl with hl | hl
      · exact absurd hl (hG hm hfin)
      · rw [hs.empty hl] at ht
        cases ht

/-- Neither a cancellation nor a new interval gives the thread another chance. -/
theorem mayStart_mono {timeinterval timeinterval' : ℤ} {c : Bool}
    (hc : th.cancelled = true → c = true) (hi : 0 < timeinterval → 0 < timeinterval')
    (h : TimerThread.mayStart timeinterval' { th with cancelled := c } = true) :
    th.mayStart timeinterval = true := by
  have hc' : c = false → th.cancelled = false := fun hf =>
    Bool.eq_false_iff.mpr fun ht => by simp [hc ht] at hf
  revert h
  cases hst : th.stage with
  | created =>
    simp only [TimerThread.mayStart,hst,Bool.or_eq_true,Bool.not_eq_true',decide_eq_true_eq]
    exact Or.imp hc' fun hle => not_lt.mp (mt hi (not_lt.mpr hle))
  | asleep => simpa [TimerThread.mayStart,hst] using hc'
  | _ => simp [TimerThread.mayStart,hst]

theorem mayStart_stays {timeinterval timeinterval' : ℤ} {c : Bool}
    (hc : th.cancelled = true → c = true) (hi : 0 < timeinterval → 0 < timeinterval')
    (h : th.mayStart timeinterval = false) :
    TimerThread.mayStart timeinterval' { th with cancelled := c } = false :=
  Bool.eq_false_iff.mpr fun hmay => Bool.eq_false_iff.mp h (mayStart_mono hc hi hmay)

theorem set_pos {d : ℤ} (h : 0 < s.timeinterval) : 0 < if 0 < d then d else s.timeinterval := by
  split_ifs <;> assumption

theorem Inv.called (hs : s.Inv) (h : Called s s') (hG : s.Careful .caller) : s'.Inv := by
  have hbase := hs.toBase.called h
  cases h with
  | idle => exact hs
  | went pc hpc hto =>
    refine { hbase,hs.toContract with spent := hs.spent, launching := ?_ }
    rintro (rfl | rfl) <;> exact hto.elim
  | cancelled r hpc =>
    refine { hbase with after := hs.after, flagged := ?_, spent := ?_, launching := by simp }
    · intro th' ht' hmay
      obtain ⟨th,ht,rfl⟩ := Option.map_eq_some_iff.mp ht'
      exact hs.flagged th ht (mayStart_mono (fun _ => rfl) id hmay)
    · intro th' ht' hx
      obtain ⟨th,ht,rfl⟩ := Option.map_eq_some_iff.mp ht'
      exact mayStart_stays (fun _ => rfl) id (hs.spent th ht hx)
  | stopped r hpc =>
    obtain ⟨th,ht,hc⟩ := hs.handle r hpc
    obtain ⟨hawake,hcreated⟩ := hG (by rw [hpc]; rfl) th ht
    have hno : th.mayStart s.timeinterval = false := by
      cases hst : th.stage with
      | awake => exact absurd hst hawake
      | created => simp [TimerThread.mayStart,hst,hc,hcreated hst]
      | _ => simp [TimerThread.mayStart,hst,hc]
    refine { hbase with after := ?_, flagged := ?_, spent := ?_, launching := ?_ }
    · refine List.pairwise_append.mpr ⟨hs.after,?_,fun a ha b hb i hi => ?_⟩
      · simp [ht]
      · simp only [ht,Option.map_some,Option.toList_some,List.mem_singleton] at hb
        simp [hb]
    · intro th' ht' hmay
      obtain rfl := Option.some.inj (ht.symm.trans ht')
      simp [hno] at hmay
    · intro th' ht' hx
      obtain rfl := Option.some.inj (ht.symm.trans ht')
      exact hno
    · cases r <;> simp [stopped]
  | set d hpc =>
    refine { hbase with after := hs.after, flagged := ?_, spent := ?_, launching := by simp }
    · exact fun th ht hmay => hs.flagged th ht (mayStart_mono id set_pos hmay)
    · exact fun th ht hx => mayStart_stays id set_pos (hs.spent th ht hx)
  | flagged hpc =>
    exact { hbase with
      after := hs.after, flagged := fun _ _ _ => rfl, spent := hs.spent, launching := fun _ => rfl }
  | joined hpc hexit =>
    exact { hbase with
      after := hs.after
      flagged := fun _ h => by cases h
      spent := fun _ h => by cases h
      launching := fun _ => hs.launching (Or.inl hpc) }
  | created hpc =>
    have hrun := hs.launching (Or.inr hpc)
    refine { hbase with
      after := hs.after, flagged := fun _ _ _ => hrun, spent := ?_, launching := by simp }
    rintro _ ⟨⟩ hx
    exact absurd hx (hs.fresh s.runs (le_refl _)).2

theorem Inv.step (hs : s.Inv) {e : Event} (hG : s.Careful e) : (s.step e).Inv := by
  cases e with
  | call c =>
    by_cases hpc : s.pc = .free
    · exact hs.called (call_called c s) fun h => by simp [hpc,TimerPc.storing] at h
    · rwa [call_busy c hpc]
  | caller => exact hs.called (caller_called s) hG
  | runner m =>
    cases ht : s.t with
    | none => rwa [step_runner_none ht]
    | some th =>
      rw [step_runner ht]
      exact hs.moved ht (runner_moved th m s) fun hm => hG hm th ht

/-- Where no `Stop` comes too late, a thread has nothing left to do when `running` is clear, or
set by a `Run` that waits to join it. -/
structure Quiet (s : OnceTimer) : Prop extends s.Inv where
  exclusive : s.Exclusive
  clear : s.pc = .runStore → s.running = false
  quiet : ∀ th, s.t = some th → s.running = false ∨ s.pc = .join →
    th.mayStart s.timeinterval = false ∧ th.stage ≠ .inTask ∧ th.stage ≠ .finished

theorem Quiet.new (timeinterval_ : ℤ) (task_ scalable_ : Bool) :
    (new timeinterval_ task_ scalable_).Quiet where
  toInv := Inv.new timeinterval_ task_ scalable_
  exclusive := by simp [Exclusive,OnceTimer.new]
  clear := fun _ => rfl
  quiet := by simp [OnceTimer.new]

theorem Quiet.careful (hs : s.Quiet) {e : Event} (hG : s.Timely e) : s.Careful e := by
  cases e with
  | call c => trivial
  | caller =>
    intro hpc th ht
    rcases hG hpc th ht with h | h | ⟨h,hpos⟩
    · simp [h]
    · simp [h]
    · simp [h,hpos]
  | runner m => exact fun _ th ht hfin hpc => (hs.quiet th ht (Or.inr hpc)).2.2 hfin

theorem Quiet.moved {m : Move} (hs : s.Quiet) (ht : s.t = some th) (h : Moved th m s s')
    (hs' : s'.Inv) : s'.Quiet := by
  obtain ⟨th',ht',-,hmay,hlog⟩ := h.mayStart ht
  obtain ⟨hpc,hflag⟩ := h.frame
  refine { hs' with exclusive := fun i hstop hstart => ?_, clear := ?_, quiet := ?_ }
  · rcases hlog with hlog | ⟨hyes,hlog⟩ <;> rw [hlog] at hstop hstart
    · exact hs.exclusive i hstop hstart
    · simp only [List.mem_append,List.mem_singleton,reduceCtorEq,or_false] at hstop
      rcases List.mem_append.mp hstart with hold | hnew
      · exact hs.exclusive i hstop hold
      · simp only [List.mem_singleton,TimerMark.starts.injEq] at hnew
        rw [hs.spent th ht (hnew ▸ hstop)] at hyes
        cases hyes
  · intro hstore
    rcases hflag with hflag | ⟨-,-,hflag⟩
    · rw [hflag,hs.clear (hpc.symm.trans hstore)]
    · exact hflag
  · intro th'' ht'' hor
    obtain rfl := Option.some.inj (ht'.symm.trans ht'')
    by_cases hold : s.running = false ∨ s.pc = .join
    · obtain ⟨hno,htask,hfin⟩ := hs.quiet th ht hold
      refine ⟨Bool.eq_false_iff.mpr fun h => by simp [hmay h] at hno,?_⟩
      cases h with
      | idle =>
        obtain rfl := Option.some.inj (ht.symm.trans ht')
        exact ⟨htask,hfin⟩
      | called hst => simp [TimerThread.mayStart,hst] at hno
      | done hst => exact absurd hst htask
      | _ =>
        obtain rfl := Option.some.inj ht'
        exact ⟨nofun,nofun⟩
    · cases h with
      | cleared hst =>
        obtain rfl := Option.some.inj ht'
        exact ⟨rfl,nofun,nofun⟩
      | _ => exact absurd hor hold

theorem Quiet.called (hs : s.Quiet) (h : Called s s') (hs' : s'.Inv)
    (hG : s.Timely .caller) : s'.Quiet := by
  cases h with
  | idle => exact hs
  | went pc hpc hto =>
    refine { hs' with exclusive := hs.exclusive, clear := ?_, quiet := fun th ht hor => ?_ }
    · rintro rfl
      exact hto
    · refine hs.quiet th ht (Or.inl (hor.resolve_right ?_))
      rintro rfl
      exact hto
  | cancelled r hpc =>
    refine { hs' with exclusive := hs.exclusive, clear := by simp, quiet := ?_ }
    intro th' ht' hor
    obtain ⟨th,ht,rfl⟩ := Option.map_eq_some_iff.mp ht'
    obtain ⟨hno,hstage⟩ := hs.quiet th ht (Or.inl (hor.resolve_right (by simp)))
    exact ⟨mayStart_stays (fun _ => rfl) id hno,hstage⟩
  | stopped r hpc =>
    obtain ⟨th,ht,-⟩ := hs.handle r hpc
    have hstage : th.stage.started = false ∧ th.stage ≠ .inTask ∧ th.stage ≠ .finished := by
      rcases hG (by rw [hpc]; rfl) th ht with h | h | ⟨h,-⟩ <;> rw [h] <;> decide
    refine { hs' with exclusive := fun i hstop hstart => ?_, clear := ?_, quiet := ?_ }
    · simp only [ht,Option.map_some,Option.toList_some,List.mem_append,List.mem_singleton,
        reduceCtorEq,or_false] at hstart
      simp only [ht,Option.map_some,Option.toList_some,List.mem_append,List.mem_singleton,
        TimerMark.stops.injEq] at hstop
      rcases hstop with hstop | rfl
      · exact hs.exclusive i hstop hstart
      · rw [hs.started th ht,hstage.1] at hstart
        cases hstart
    · cases r <;> simp [stopped]
    · intro th' ht' _
      obtain rfl := Option.some.inj (ht.symm.trans ht')
      exact ⟨Bool.eq_false_iff.mpr fun h => Bool.false_ne_true (hs'.flagged th ht h),hstage.2⟩
  | set d hpc =>
    refine { hs' with exclusive := hs.exclusive, clear := by simp, quiet := fun th ht hor => ?_ }
    obtain ⟨hno,hstage⟩ := hs.quiet th ht (Or.inl (hor.resolve_right (by simp)))
    exact ⟨mayStart_stays id set_pos hno,hstage⟩
  | flagged hpc =>
    refine { hs' with exclusive := hs.exclusive, clear := by simp, quiet := fun th ht _ => ?_ }
    exact hs.quiet th ht (Or.inl (hs.clear hpc))
  | joined hpc hexit =>
    exact { hs' with
      exclusive := hs.exclusive, clear := by simp, quiet := fun th ht => by cases ht }
  | created hpc =>
    have hrun := hs.launching (Or.inr hpc)
    exact { hs' with exclusive := hs.exclusive, clear := by simp, quiet := by simp [hrun] }

theorem Quiet.step (hs : s.Quiet) {e : Event} (hG : s.Timely e) : (s.step e).Quiet := by
  have hs' := hs.toInv.step (hs.careful hG)
  cases e with
  | call c =>
    by_cases hpc : s.pc = .free
    · exact hs.called (call_called c s) hs' fun h => by simp [hpc,TimerPc.storing] at h
    · rwa [call_busy c hpc]
  | caller => exact hs.called (caller_called s) hs' hG
  | runner m =>
    cases ht : s.t with
    | none => rwa [step_runner_none ht]
    | some th =>
      rw [step_runner ht] at hs' ⊢
      exact hs.moved ht (runner_moved th m s) hs'

theorem Base.storing (hs : s.Base) (hstore : s.pc.storing = true) (ht : s.t = some th) :
    th.cancelled = true ∧ s.caller.running = false ∧ s.caller.t = some th ∧
      s.caller.timeinterval = s.timeinterval ∧ s.caller.log = s.log ++ [.stops th.run] := by
  cases hpc : s.pc with
  | stopStore r =>
    obtain ⟨th',ht',hc⟩ := hs.handle r hpc
    obtain rfl := Option.some.inj (ht.symm.trans ht')
    exact ⟨hc,by simp [OnceTimer.caller,hpc,ht]⟩
  | _ => simp [hpc,TimerPc.storing] at hstore

theorem Base.unflagged (hs : s.Base) (hstore : s.pc.storing = true) (ht : s.t = some th)
    (h : th.stage = .awake ∨ th.stage = .created ∧ s.timeinterval ≤ 0) : ¬s.caller.Contract := by
  obtain ⟨-,hflag,ht',htime,-⟩ := hs.storing hstore ht
  intro hcon
  refine Bool.false_ne_true (hflag.symm.trans (hcon.flagged th ht' ?_))
  rw [htime]
  rcases h with hst | ⟨hst,hle⟩
  · simp [TimerThread.mayStart,hst]
  · simp [TimerThread.mayStart,hst,hle]

/-- The conditions leave nothing out. A `Stop` that comes too late breaks the contract at once. -/
theorem late_breaks (hs : s.Base) {e : Event} (hG : ¬s.Timely e) :
    ¬((s.step e).Contract ∧ (s.step e).Exclusive) := by
  cases e with
  | call c => exact absurd trivial hG
  | runner m => exact absurd trivial hG
  | caller =>
    simp only [Timely,not_forall] at hG
    obtain ⟨hstore,th,ht,hno⟩ := hG
    obtain ⟨-,-,-,-,hlog⟩ := hs.storing hstore ht
    rintro ⟨hcon,hexc⟩
    cases hst : th.stage with
    | created => exact hs.unflagged hstore ht (Or.inr ⟨hst,by simpa [hst] using hno⟩) hcon
    | awake => exact hs.unflagged hstore ht (Or.inl hst) hcon
    | asleep | halted => simp [hst] at hno
    | inTask | finished | ended =>
      have hstarted := (hs.started th ht).mpr (by rw [hst]; rfl)
      refine hexc th.run ?_ ?_ <;> simp only [OnceTimer.step,hlog]
      · simp
      · exact List.mem_append_left _ hstarted

/-- So does one between the sleep and the call; and where the flag of a waiting `Run` is cleared,
its thread will sleep with `running` clear. -/
theorem careless_breaks (hs : s.Base) {e : Event} (hG : ¬s.Careful e) :
    Transitions.CanReach step (fun s => ¬s.Contract) (s.step e) := by
  cases e with
  | call c => exact absurd trivial hG
  | caller =>
    simp only [Careful,not_forall] at hG
    obtain ⟨hstore,th,ht,hno⟩ := hG
    refine .here (hs.unflagged hstore ht ?_)
    cases hst : th.stage with
    | created => exact Or.inr ⟨rfl,by simpa [hst] using hno⟩
    | awake => exact Or.inl rfl
    | _ => simp [hst] at hno
  | runner m =>
    simp only [Careful,not_forall,not_not] at hG
    obtain ⟨rfl,th,ht,hfin,hjoin⟩ := hG
    rw [step_runner ht]
    have hclear : s.runner th .clear = { s.goto th .ended with running := false } := by
      simp [runner,hfin]
    refine ⟨[.caller,.caller],fun hcon => ?_⟩
    have hnext : (Transitions.run step (s.runner th .clear) [.caller,.caller]).t =
        some ⟨s.runs,.created,false⟩ ∧
        (Transitions.run step (s.runner th .clear) [.caller,.caller]).running = false := by
      simp [hclear,step,OnceTimer.caller,goto,hjoin,TimerStage.exited]
    exact Bool.false_ne_true (hnext.2.symm.trans (hcon.flagged _ hnext.1 rfl))

open Transitions

/-- Stop and Restart: no `Run` ever starts the task twice. In a run where no `Stop` returns true
between the sleep and the call of the task, and no thread clears the flag of a later `Run`, the
contract holds. It holds all along, and no `Stop` returns true for a task already started, exactly
when none returns true past the sleep. -/
theorem stop_contract (timeinterval_ : ℤ) (task_ scalable_ : Bool) (evs : List Event) :
    (∀ i, (run step (new timeinterval_ task_ scalable_) evs).log.count (.starts i) ≤ 1) ∧
    (Along step Careful (new timeinterval_ task_ scalable_) evs →
      (run step (new timeinterval_ task_ scalable_) evs).Contract) ∧
    ((∀ evs', evs' <+: evs → (run step (new timeinterval_ task_ scalable_) evs').Contract ∧
        (run step (new timeinterval_ task_ scalable_) evs').Exclusive) ↔
      Along step Timely (new timeinterval_ task_ scalable_) evs) := by
  have h₀ := Quiet.new timeinterval_ task_ scalable_
  refine ⟨(run_invariant h₀.toBase (fun s e hs => hs.step e) evs).once,fun hG => ?_,?_⟩
  · exact (hG.invariant h₀.toInv fun s e he hs => hs.step he).toContract
  · exact always_iff_along (Q := fun s => s.Contract ∧ s.Exclusive) h₀ (fun s e he hs => hs.step he)
      (fun s hs => ⟨hs.toContract,hs.exclusive⟩) fun s e hs he => late_breaks hs.toBase he

/-- `Run`, up to the sleep of its thread. -/
def launch : List Event :=
  [.call .run,.caller,.caller,.caller,.caller,.runner (.read 0)]

def stopTrue : List Event := [.call .stop,.caller,.caller,.caller]

theorem stop_contract_asleep :
    (run step (new 1 true false) (launch ++ stopTrue ++ launch)).Contract ∧
      (run step (new 1 true false) (launch ++ stopTrue ++ launch)).Exclusive :=
  (stop_contract 1 true false (launch ++ stopTrue ++ launch)).2.2.mpr
    (by decide +kernel) _ (List.prefix_refl _)

/-- A `Stop` between the sleep and the call of the task. -/
def lateStop : List Event := launch ++ .runner .wake::stopTrue

/-- A `Stop` during the task, and the next `Run`. -/
def staleClear : List Event :=
  launch ++ .runner .wake::.runner .start::.call .stop::.caller::.caller::.caller::
    [.call .run,.caller,.caller,.runner .finish,.runner .clear,.caller,.caller,.runner (.read 0)]

/-- Both times `Stop` returns true. In the first run `running` is clear then, and the thread starts
the task; in the second the old thread clears the flag of the next `Run`, whose thread sleeps with
`running` clear. -/
theorem stop_contract_fails :
    ¬(run step (new 1 true false) lateStop).Contract ∧
      ¬((run step (new 1 true false) lateStop).step (.runner .start)).Contract ∧
      ¬(run step (new 1 true false) staleClear).Contract ∧
      ¬(run step (new 1 true false) staleClear).Exclusive := by
  have ht : (run step (new 1 true false) lateStop).t = some ⟨0,.awake,true⟩ ∧
    (run step (new 1 true false) lateStop).running = false := by decide +kernel
  have hlog : ((run step (new 1 true false) lateStop).step (.runner .start)).log =
    [.stops 0,.starts 0] := by decide +kernel
  have ht' : (run step (new 1 true false) staleClear).t = some ⟨1,.asleep,false⟩ ∧
    (run step (new 1 true false) staleClear).running = false := by decide +kernel
  have hlog' : (run step (new 1 true false) staleClear).log = [.starts 0,.stops 0] := by
    decide +kernel
  refine ⟨fun h => ?_,fun h => ?_,fun h => ?_,fun h => ?_⟩
  · exact Bool.false_ne_true (ht.2.symm.trans (h.flagged _ ht.1 rfl))
  · have hafter := h.after
    rw [hlog] at hafter
    simp at hafter
  · exact Bool.false_ne_true (ht'.2.symm.trans (h.flagged _ ht'.1 rfl))
  · exact h 0 (by simp [hlog']) (by simp [hlog'])

end OnceTimer
end GossipMemberlist
