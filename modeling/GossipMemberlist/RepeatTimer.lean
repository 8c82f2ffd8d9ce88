import GossipMemberlist.OnceTimer

/-!
# The repeat timer

The thread of a `repeatTimer` reads its interval, sleeps and calls the task, over and
over, and never touches `running`. As with the once timer there is one caller at a
time, in atomic steps between those of the thread; the destructor is one of its calls,
and the last. A task that has been started is taken to return or to come to a
cancellation point: one that waits for a lock which the caller holds does neither.
-/

namespace GossipMemberlist

/-- Where the thread is. It ends in its sleep, or at a cancellation point of the task. -/
inductive RepeatStage
  | reading | asleep | awake | inTask | ended
  deriving DecidableEq

structure RepeatThread where
  run : ℕ
  stage : RepeatStage
  cancelled : Bool
  deriving DecidableEq

/-- What a `Stop` is part of. -/
inductive Stopper
  | stop | restart (timeinterval_ : ℤ) | destructor
  deriving DecidableEq

inductive RepeatPc
  | free
  | stopLoad (w : Stopper) | stopCancel (w : Stopper) | stopStore (w : Stopper)
  | setInterval (timeinterval_ : ℤ)
  | runLoad | runStore | join | create
  | lastJoin | destroyed
  deriving DecidableEq

structure RepeatTimer where
  running : Bool
  scalable : Bool
  timeinterval : ℤ
  task : Bool
  t : Option RepeatThread
  runs : ℕ
  pc : RepeatPc
  log : List TimerMark
  deriving DecidableEq

/-- How often the task is started for run `i` after a `Stop` of it has returned true. -/
def late (i : ℕ) : List TimerMark → ℕ
  | [] => 0
  | m::log => if m = .stops i then log.count (.starts i) else late i log

theorem late_of_not_mem {i : ℕ} {log : List TimerMark} (h : .stops i ∉ log) : late i log = 0 := by
  induction log with
  | nil => rfl
  | cons m log ih =>
    obtain ⟨hm,hlog⟩ := List.ne_and_not_mem_of_not_mem_cons h
    rw [late,if_neg hm.symm,ih hlog]

theorem late_snoc (i : ℕ) (log : List TimerMark) (m : TimerMark) : late i (log ++ [m]) =
    if .stops i ∈ log then late i log + [m].count (.starts i) else 0 := by
  induction log with
  | nil => simp [late]
  | cons m' log ih =>
    rw [List.cons_append,late,late]
    by_cases hm : m' = .stops i
    · rw [if_pos hm,if_pos hm,if_pos (hm ▸ List.mem_cons_self),List.count_append]
    · have hiff : .stops i ∈ m'::log ↔ .stops i ∈ log := by simp [Ne.symm hm]
      rw [if_neg hm,if_neg hm,ih]
      simp only [hiff]

namespace RepeatPc

/-- Nothing is changed before the thread of the last `Run` has ended. -/
def waits : RepeatPc → Bool
  | .runStore | .join | .create | .lastJoin | .destroyed => true
  | _ => false

end RepeatPc

namespace RepeatTimer

inductive Call
  | run | stop | restart (timeinterval_ : ℤ) | destructor

/-- `read` comes with the answer of `estNumNodes`, and `point` is a cancellation point. -/
inductive Move
  | read (n : ℕ) | wake | start | finish | point
  deriving DecidableEq

inductive Event
  | call (c : Call)
  | caller
  | runner (m : Move)

def new (timeinterval_ : ℤ) (task_ scalable_ : Bool) : RepeatTimer :=
  ⟨false,scalable_,timeinterval_,task_,none,0,.free,[]⟩

def waitTime (n : ℕ) (s : RepeatTimer) : ℤ :=
  if s.scalable then pushPullScale s.timeinterval n else s.timeinterval

def goto (th : RepeatThread) (stage : RepeatStage) (s : RepeatTimer) : RepeatTimer :=
  { s with t := some { th with stage } }

def runner (th : RepeatThread) (m : Move) (s : RepeatTimer) : RepeatTimer :=
  match m, th.stage with
  -- `sleep_for` of nothing is no cancellation point
  | .read n, .reading => s.goto th (if 0 < s.waitTime n then .asleep else .awake)
  | .wake, .asleep => if th.cancelled then s else s.goto th .awake
  | .start, .awake => { s.goto th .inTask with log := s.log ++ [.starts th.run] }
  | .finish, .inTask => s.goto th .reading
  | .point, .asleep | .point, .inTask => if th.cancelled then s.goto th .ended else s
  | _, _ => s

def stopped : Stopper → RepeatPc
  | .stop => .free
  | .restart timeinterval_ => .setInterval timeinterval_
  | .destructor => .lastJoin

def caller (s : RepeatTimer) : RepeatTimer :=
  match s.pc with
  | .free | .destroyed => s
  | .stopLoad w => { s with pc := if s.running then .stopCancel w else stopped w }
  | .stopCancel w =>
    { s with t := s.t.map fun th => { th with cancelled := true }, pc := .stopStore w }
  | .stopStore w =>
    { s with
      running := false
      pc := stopped w
      log := s.log ++ (s.t.map fun th => .stops th.run).toList }
  | .setInterval timeinterval_ =>
    { s with
      timeinterval := if 0 < timeinterval_ then timeinterval_ else s.timeinterval
      pc := .runLoad }
  | .runLoad => { s with pc := if s.running || !s.task then .free else .runStore }
  | .runStore => { s with running := true, pc := .join }
  | .join =>
    if s.t.all fun th => th.stage = .ended then { s with t := none, pc := .create } else s
  | .create => { s with t := some ⟨s.runs,.reading,false⟩, runs := s.runs + 1, pc := .free }
  | .lastJoin =>
    if s.t.all fun th => th.stage = .ended then { s with t := none, pc := .destroyed } else s

def entry : Call → RepeatPc
  | .run => .runLoad
  | .stop => .stopLoad .stop
  | .restart timeinterval_ => .stopLoad (.restart timeinterval_)
  | .destructor => .stopLoad .destructor

def step (s : RepeatTimer) : Event → RepeatTimer
  | .call c => if s.pc = .free then { s with pc := entry c } else s
  | .caller => s.caller
  | .runner m =>
    match s.t with
    | none => s
    | some th => s.runner th m

/-- Threads come one after the other, and a task that a `Stop` has called off starts once more
at most. `running` is set for a thread that nobody has cancelled; whoever waits for a thread
has cancelled it; and the destructor leaves none behind. -/
structure Contract (s : RepeatTimer) : Prop where
  inTurn : s.log.Pairwise fun a b => ∀ i j, a = .starts i → b = .starts j → i ≤ j
  once : ∀ i, late i s.log ≤ 1
  flagged : ∀ th, s.t = some th → th.cancelled = false → s.running = true
  kept : s.running = true → s.pc = .join ∨ s.pc = .create ∨ (∃ w, s.pc = .stopStore w) ∨
    ∃ th, s.t = some th ∧ th.cancelled = false
  waits : s.pc.waits = true → ∀ th, s.t = some th → th.cancelled = true
  gone : s.pc = .create ∨ s.pc = .destroyed → s.t = none

structure Inv (s : RepeatTimer) : Prop extends s.Contract where
  positive : 0 < s.timeinterval
  newest : ∀ th, s.t = some th → th.run + 1 = s.runs
  begun : ∀ i, .starts i ∈ s.log ∨ .stops i ∈ s.log → i < s.runs
  called : ∀ th, s.t = some th → .stops th.run ∈ s.log → th.cancelled = true
  fresh : ∀ th, s.t = some th → th.stage = .awake → late th.run s.log = 0
  storing : ∀ w, s.pc = .stopStore w → ∀ th, s.t = some th → th.cancelled = true
  cancelling : ∀ w, s.pc = .stopCancel w → s.running = true
  starting : s.pc = .runStore ∨ s.pc = .lastJoin ∨ s.pc = .destroyed → s.running = false
  raised : s.pc = .join ∨ s.pc = .create → s.running = true

variable {s s' : RepeatTimer} {th : RepeatThread}

theorem waitTime_pos {n : ℕ} : 0 < s.waitTime n ↔ 0 < s.timeinterval := by
  unfold waitTime
  split
  · exact pushPullScale_pos
  · rfl

inductive Moved (th : RepeatThread) (s : RepeatTimer) : RepeatTimer → Prop
  | idle : Moved th s s
  | slept (h : th.stage = .reading) : Moved th s (s.goto th .asleep)
  | woke (h : th.stage = .asleep) (hc : th.cancelled = false) : Moved th s (s.goto th .awake)
  | started (h : th.stage = .awake) :
    Moved th s { s.goto th .inTask with log := s.log ++ [.starts th.run] }
  | finished (h : th.stage = .inTask) : Moved th s (s.goto th .reading)
  | ended (h : th.stage = .asleep ∨ th.stage = .inTask) (hc : th.cancelled = true) :
    Moved th s (s.goto th .ended)

theorem runner_moved (hpos : 0 < s.timeinterval) (th : RepeatThread) (m : Move) :
    Moved th s (s.runner th m) := by
  unfold runner
  split
  · rename_i n h
    rw [if_pos (waitTime_pos.mpr hpos)]
    exact .slept h
  · rename_i h
    split
    · exact .idle
    · rename_i hc
      exact .woke h (by simpa using hc)
  · rename_i h
    exact .started h
  · rename_i h
    exact .finished h
  · rename_i h
    split
    · rename_i hc
      exact .ended (Or.inl h) hc
    · exact .idle
  · rename_i h
    split
    · rename_i hc
      exact .ended (Or.inr h) hc
    · exact .idle
  · exact .idle

/-- What has to hold when the caller goes on to `pc` with nothing else changed. -/
def Entered (running : Bool) : RepeatPc → Prop
  | .stopCancel _ => running = true
  | .runStore | .lastJoin => running = false
  | .stopStore _ | .join | .create | .destroyed => False
  | _ => True

inductive Called (s : RepeatTimer) : RepeatTimer → Prop
  | idle : Called s s
  | went (pc : RepeatPc) (hpc : s.pc ≠ .join ∧ s.pc ≠ .create ∧ ∀ w, s.pc ≠ .stopStore w)
    (hto : Entered s.running pc) : Called s { s with pc }
  | cancelled (w : Stopper) (hpc : s.pc = .stopCancel w) :
    Called s { s with t := s.t.map fun th => { th with cancelled := true }, pc := .stopStore w }
  | stopped (w : Stopper) (hpc : s.pc = .stopStore w) :
    Called s { s with
      running := false
      pc := stopped w
      log := s.log ++ (s.t.map fun th => .stops th.run).toList }
  | set (d : ℤ) (hpc : s.pc = .setInterval d) :
    Called s { s with timeinterval := if 0 < d then d else s.timeinterval, pc := .runLoad }
  | flagged (hpc : s.pc = .runStore) : Called s { s with running := true, pc := .join }
  | joined (hpc : s.pc = .join) : Called s { s with t := none, pc := .create }
  | created (hpc : s.pc = .create) :
    Called s { s with t := some ⟨s.runs,.reading,false⟩, runs := s.runs + 1, pc := .free }
  | parted (hpc : s.pc = .lastJoin) : Called s { s with t := none, pc := .destroyed }

theorem caller_called (s : RepeatTimer) : Called s s.caller := by
  unfold caller
  split
  · exact .idle
  · exact .idle
  · rename_i w hpc
    refine .went _ (by simp [hpc]) ?_
    split
    · assumption
    · rename_i hrun
      rw [Bool.not_eq_true] at hrun
      cases w with
      | destructor => exact hrun
      | _ => trivial
  · rename_i w hpc
    exact .cancelled w hpc
  · rename_i w hpc
    exact .stopped w hpc
  · rename_i d hpc
    exact .set d hpc
  · rename_i hpc
    refine .went _ (by simp [hpc]) ?_
    split
    · trivial
    · rename_i h
      simp only [Bool.or_eq_true,not_or,Bool.not_eq_true] at h
      exact h.1
  · rename_i hpc
    exact .flagged hpc
  · rename_i hpc
    split
    · exact .joined hpc
    · exact .idle
  · rename_i hpc
    exact .created hpc
  · rename_i hpc
    split
    · exact .parted hpc
    · exact .idle

theorem call_called (c : Call) (s : RepeatTimer) : Called s (s.step (.call c)) := by
  simp only [step]
  split
  · rename_i hpc
    refine .went _ (by simp [hpc]) ?_
    cases c <;> trivial
  · exact .idle

theorem Inv.new {timeinterval_ : ℤ} (h : 0 < timeinterval_) (task_ scalable_ : Bool) :
    (new timeinterval_ task_ scalable_).Inv where
  inTurn := List.Pairwise.nil
  once _ := Nat.zero_le _
  flagged _ h := nomatch h
  kept h := nomatch h
  waits h := nomatch h
  gone _ := rfl
  positive := h
  newest _ h := nomatch h
  begun i h := by simp [RepeatTimer.new] at h
  called _ h := nomatch h
  fresh _ h := nomatch h
  storing _ h := nomatch h
  cancelling _ h := nomatch h
  starting _ := rfl
  raised h := by rcases h with h | h <;> cases h

theorem Inv.goto (hs : s.Inv) (ht : s.t = some th) {stage : RepeatStage}
    (hfresh : stage = .awake → late th.run s.log = 0) : (s.goto th stage).Inv where
  inTurn := hs.inTurn
  once := hs.once
  flagged th' ht' hc := by
    cases ht'
    exact hs.flagged th ht hc
  kept h := by
    rcases hs.kept h with h | h | h | ⟨th',ht',hc⟩
    · exact Or.inl h
    · exact Or.inr (Or.inl h)
    · exact Or.inr (Or.inr (Or.inl h))
    · cases ht.symm.trans ht'
      exact Or.inr (Or.inr (Or.inr ⟨_,rfl,hc⟩))
  waits h th' ht' := by
    cases ht'
    exact hs.waits h th ht
  gone h := by cases ht.symm.trans (hs.gone h)
  positive := hs.positive
  newest th' ht' := by
    cases ht'
    exact hs.newest th ht
  begun := hs.begun
  called th' ht' h := by
    cases ht'
    exact hs.called th ht h
  fresh th' ht' h := by
    cases ht'
    exact hfresh h
  storing w h th' ht' := by
    cases ht'
    exact hs.storing w h th ht
  cancelling := hs.cancelling
  starting := hs.starting
  raised := hs.raised

theorem Inv.moved (hs : s.Inv) (ht : s.t = some th) (h : Moved th s s') : s'.Inv := by
  cases h with
  | idle => exact hs
  | slept h | finished h | ended h hc => exact hs.goto ht nofun
  | woke h hc =>
    refine hs.goto ht fun _ => late_of_not_mem fun hmem => ?_
    cases hc.symm.trans (hs.called th ht hmem)
  | started h =>
    have hgoto : (s.goto th .inTask).Inv := hs.goto ht nofun
    have hnewest := hs.newest th ht
    refine { hgoto with inTurn := ?_, once := fun i => ?_, begun := fun i hi => ?_, called := ?_, fresh := ?_ }
    · refine List.pairwise_append.mpr ⟨hs.inTurn,List.pairwise_singleton _ _,?_⟩
      rintro a ha b hb i j rfl rfl
      cases List.mem_singleton.mp hb
      have := hs.begun i (Or.inl ha)
      omega
    · rw [late_snoc]
      split
      · by_cases hi : i = th.run
        · subst hi
          rw [hs.fresh th ht h]
          simp
        · have hne : TimerMark.starts th.run ≠ .starts i := by simp [Ne.symm hi]
          rw [List.count_singleton,beq_eq_false_iff_ne.mpr hne]
          exact hs.once i
      · exact Nat.zero_le _
    · simp only [List.mem_append,List.mem_singleton] at hi
      rcases hi with (hi | hi) | (hi | hi)
      · exact hs.begun i (Or.inl hi)
      · cases hi
        exact hnewest.symm ▸ Nat.lt_succ_self _
      · exact hs.begun i (Or.inr hi)
      · cases hi
    · intro th' ht' hmem
      cases ht'
      refine hs.called th ht ?_
      simpa using hmem
    · intro th' ht' hstage
      cases ht'
      cases hstage

theorem Inv.unflagged (hs : s.Inv) (h : s.running = false) (ht : s.t = some th) :
    th.cancelled = true := by
  by_contra hc
  cases h.symm.trans (hs.flagged th ht (by simpa using hc))

theorem Inv.went (hs : s.Inv) {pc : RepeatPc}
    (hpc : s.pc ≠ .join ∧ s.pc ≠ .create ∧ ∀ w, s.pc ≠ .stopStore w)
    (hto : Entered s.running pc) : Inv { s with pc } where
  inTurn := hs.inTurn
  once := hs.once
  flagged := hs.flagged
  kept h := by
    rcases hs.kept h with hj | hc | ⟨w,hw⟩ | hth
    · exact absurd hj hpc.1
    · exact absurd hc hpc.2.1
    · exact absurd hw (hpc.2.2 w)
    · exact Or.inr (Or.inr (Or.inr hth))
  waits h th ht := by
    cases pc with
    | runStore | lastJoin => exact hs.unflagged hto ht
    | join | create | destroyed => exact hto.elim
    | _ => cases h
  gone h := by
    rcases h with rfl | rfl
    · exact hto.elim
    · exact hto.elim
  positive := hs.positive
  newest := hs.newest
  begun := hs.begun
  called := hs.called
  fresh := hs.fresh
  storing w h := by
    cases h
    exact hto.elim
  cancelling w h := by
    cases h
    exact hto
  starting h := by
    rcases h with rfl | rfl | rfl
    · exact hto
    · exact hto
    · exact hto.elim
  raised h := by
    rcases h with rfl | rfl
    · exact hto.elim
    · exact hto.elim

theorem Inv.cancelled (hs : s.Inv) (w : Stopper) :
    Inv { s with t := s.t.map fun th => { th with cancelled := true }, pc := .stopStore w } := by
  have hthread {th : RepeatThread} (ht : (s.t.map fun th => { th with cancelled := true }) = some th) :
      ∃ th', s.t = some th' ∧ th = { th' with cancelled := true } := by
    obtain ⟨th',ht',heq⟩ := Option.map_eq_some_iff.mp ht
    exact ⟨th',ht',heq.symm⟩
  refine ⟨⟨hs.inTurn,hs.once,?_,fun _ => Or.inr (Or.inr (Or.inl ⟨w,rfl⟩)),?_,?_⟩,hs.positive,?_,
    hs.begun,?_,?_,?_,?_,?_,?_⟩
  · intro th ht hc
    obtain ⟨th',-,rfl⟩ := hthread ht
    cases hc
  · intro h
    cases h
  · intro h
    rcases h with h | h <;> cases h
  · intro th ht
    obtain ⟨th',ht',rfl⟩ := hthread ht
    exact hs.newest th' ht'
  · intro th ht _
    obtain ⟨th',-,rfl⟩ := hthread ht
    rfl
  · intro th ht hstage
    obtain ⟨th',ht',rfl⟩ := hthread ht
    exact hs.fresh th' ht' hstage
  · intro _ _ th ht
    obtain ⟨th',-,rfl⟩ := hthread ht
    rfl
  · intro _ h
    cases h
  · intro h
    rcases h with h | h | h <;> cases h
  · intro h
    rcases h with h | h <;> cases h

theorem Inv.stopped (hs : s.Inv) {w : Stopper} (hpc : s.pc = .stopStore w) :
    Inv { s with
      running := false
      pc := stopped w
      log := s.log ++ (s.t.map fun th => .stops th.run).toList } := by
  have hcancelled := hs.storing w hpc
  cases ht : s.t with
  | none =>
    simp only [Option.map_none,Option.toList_none,List.append_nil]
    refine ⟨⟨hs.inTurn,hs.once,nofun,nofun,fun _ => nofun,fun _ => rfl⟩,hs.positive,nofun,hs.begun,
      nofun,nofun,fun _ _ => nofun,?_,fun _ => rfl,?_⟩
    · intro w' h
      cases w <;> cases h
    · intro h
      cases w <;> rcases h with h | h <;> cases h
  | some th =>
    have hnewest := hs.newest th ht
    have hc := hcancelled th ht
    simp only [Option.map_some,Option.toList_some]
    refine ⟨⟨?_,fun i => ?_,?_,nofun,?_,?_⟩,hs.positive,?_,fun i hi => ?_,?_,?_,?_,?_,
      fun _ => rfl,?_⟩
    · refine List.pairwise_append.mpr ⟨hs.inTurn,List.pairwise_singleton _ _,?_⟩
      rintro a - b hb i j - rfl
      cases List.mem_singleton.mp hb
    · rw [late_snoc]
      split
      · simpa using hs.once i
      · exact Nat.zero_le _
    · intro th' ht' hc'
      cases ht'
      cases hc.symm.trans hc'
    · intro _ th' ht'
      cases ht'
      exact hc
    · intro h
      cases w <;> rcases h with h | h <;> cases h
    · intro th' ht'
      cases ht'
      exact hnewest
    · simp only [List.mem_append,List.mem_singleton] at hi
      rcases hi with (hi | hi) | (hi | hi)
      · exact hs.begun i (Or.inl hi)
      · cases hi
      · exact hs.begun i (Or.inr hi)
      · cases hi
        exact hnewest.symm ▸ Nat.lt_succ_self _
    · intro th' ht' _
      cases ht'
      exact hc
    · intro th' ht' hstage
      cases ht'
      rw [late_snoc]
      split
      · rw [hs.fresh th ht hstage]
        simp
      · rfl
    · intro w' h
      cases w <;> cases h
    · intro w' h
      cases w <;> cases h
    · intro h
      cases w <;> rcases h with h | h <;> cases h

theorem Inv.set (hs : s.Inv) {d : ℤ} (hpc : s.pc = .setInterval d) :
    Inv { s with timeinterval := if 0 < d then d else s.timeinterval, pc := .runLoad } := by
  have hpos : 0 < if 0 < d then d else s.timeinterval := by
    split
    · assumption
    · exact hs.positive
  have hwent : Inv { s with pc := .runLoad } := hs.went (by simp [hpc]) trivial
  exact { hwent with positive := hpos }

theorem Inv.raise (hs : s.Inv) (hpc : s.pc = .runStore) :
    Inv { s with running := true, pc := .join } where
  inTurn := hs.inTurn
  once := hs.once
  flagged _ _ _ := rfl
  kept _ := Or.inl rfl
  waits _ th ht := hs.waits (by rw [hpc]; rfl) th ht
  gone h := by rcases h with h | h <;> cases h
  positive := hs.positive
  newest := hs.newest
  begun := hs.begun
  called := hs.called
  fresh := hs.fresh
  storing _ h := nomatch h
  cancelling _ h := nomatch h
  starting h := by rcases h with h | h | h <;> cases h
  raised _ := rfl

theorem Inv.joined (hs : s.Inv) {pc : RepeatPc}
    (h : s.pc = .join ∧ pc = .create ∨ s.pc = .lastJoin ∧ pc = .destroyed) :
    Inv { s with t := none, pc } where
  inTurn := hs.inTurn
  once := hs.once
  flagged _ h := nomatch h
  kept hrun := by
    rcases h with ⟨-,rfl⟩ | ⟨hpc,-⟩
    · exact Or.inr (Or.inl rfl)
    · cases hrun.symm.trans (hs.starting (Or.inr (Or.inl hpc)))
  waits _ _ h := nomatch h
  gone _ := rfl
  positive := hs.positive
  newest _ h := nomatch h
  begun := hs.begun
  called _ h := nomatch h
  fresh _ h := nomatch h
  storing _ _ _ h := nomatch h
  cancelling w hw := by rcases h with ⟨-,rfl⟩ | ⟨-,rfl⟩ <;> cases hw
  starting hpc := by
    rcases h with ⟨-,rfl⟩ | ⟨hlast,-⟩
    · rcases hpc with hpc | hpc | hpc <;> cases hpc
    · exact hs.starting (Or.inr (Or.inl hlast))
  raised hpc := by
    rcases h with ⟨hjoin,-⟩ | ⟨-,rfl⟩
    · exact hs.raised (Or.inl hjoin)
    · rcases hpc with hpc | hpc <;> cases hpc

theorem Inv.created (hs : s.Inv) (hpc : s.pc = .create) :
    Inv { s with t := some ⟨s.runs,.reading,false⟩, runs := s.runs + 1, pc := .free } := by
  have hrun := hs.raised (Or.inr hpc)
  refine ⟨⟨hs.inTurn,hs.once,fun _ _ _ => hrun,fun _ => Or.inr (Or.inr (Or.inr ⟨_,rfl,rfl⟩)),nofun,?_⟩,
    hs.positive,?_,fun i hi => (hs.begun i hi).trans (Nat.lt_succ_self _),?_,?_,nofun,nofun,?_,?_⟩
  · intro h
    rcases h with h | h <;> cases h
  · intro th ht
    cases ht
    rfl
  · intro th ht hmem
    cases ht
    exact absurd (hs.begun _ (Or.inr hmem)) (lt_irrefl _)
  · intro th ht hstage
    cases ht
    cases hstage
  · intro h
    rcases h with h | h | h <;> cases h
  · intro h
    rcases h with h | h <;> cases h

theorem Inv.ofCalled (hs : s.Inv) (h : Called s s') : s'.Inv := by
  cases h with
  | idle => exact hs
  | went pc hpc hto => exact hs.went hpc hto
  | cancelled w hpc => exact hs.cancelled w
  | stopped w hpc => exact hs.stopped hpc
  | set d hpc => exact hs.set hpc
  | flagged hpc => exact hs.raise hpc
  | joined hpc => exact hs.joined (Or.inl ⟨hpc,rfl⟩)
  | created hpc => exact hs.created hpc
  | parted hpc => exact hs.joined (Or.inr ⟨hpc,rfl⟩)

theorem Inv.step (hs : s.Inv) (e : Event) : (s.step e).Inv := by
  cases e with
  | call c => exact hs.ofCalled (call_called c s)
  | caller => exact hs.ofCalled (caller_called s)
  | runner m =>
    simp only [RepeatTimer.step]
    split
    · exact hs
    · rename_i th ht
      exact hs.moved ht (runner_moved hs.positive th m)

def left : RepeatStage → ℕ
  | .awake => 4
  | .inTask => 3
  | .reading => 2
  | .asleep => 1
  | .ended => 0

theorem left_le (stage : RepeatStage) : left stage ≤ 4 := by
  cases stage <;> decide

theorem Moved.closer (h : Moved th s s') (hc : th.cancelled = true) (hne : s' ≠ s) :
    ∃ th', s'.t = some th' ∧ th'.cancelled = true ∧ left th'.stage < left th.stage := by
  cases h with
  | idle => exact absurd rfl hne
  | slept h | started h | finished h => exact ⟨_,rfl,hc,by simp [h,left]⟩
  | woke _ hc' => cases hc.symm.trans hc'
  | ended h => exact ⟨_,rfl,hc,by rcases h with h | h <;> simp [h,left]⟩

theorem runner_moves (hs : s.Inv) (ht : s.t = some th) (hc : th.cancelled = true)
    (hne : th.stage ≠ .ended) : ∃ m, s.step (.runner m) ≠ s := by
  have hgoto {stage : RepeatStage} (h : stage ≠ th.stage) {s' : RepeatTimer}
      (ht' : s'.t = some { th with stage }) : s' ≠ s := by
    rintro rfl
    exact h (congrArg RepeatThread.stage (Option.some.inj (ht'.symm.trans ht)))
  have hstep (m : Move) : s.step (.runner m) = s.runner th m := by simp only [RepeatTimer.step,ht]
  cases hstage : th.stage with
  | reading =>
    refine ⟨.read 0,?_⟩
    simp only [hstep,runner,hstage,waitTime_pos.mpr hs.positive,if_true]
    exact hgoto (by simp [hstage]) rfl
  | asleep | inTask =>
    refine ⟨.point,?_⟩
    simp only [hstep,runner,hstage,hc,if_true]
    exact hgoto (by simp [hstage]) rfl
  | awake =>
    refine ⟨.start,?_⟩
    simp only [hstep,runner,hstage]
    exact hgoto (by simp [hstage]) rfl
  | ended => exact absurd hstage hne

theorem moves_le (hs : s.Inv) (ht : s.t = some th) (hc : th.cancelled = true) {ms : List Move}
    (h : Transitions.Along step (fun s e => s.step e ≠ s) s (ms.map .runner)) :
    ms.length ≤ left th.stage := by
  induction ms generalizing s th with
  | nil => exact Nat.zero_le _
  | cons m ms ih =>
    obtain ⟨hne,hrest⟩ := h
    have hstep : s.step (.runner m) = s.runner th m := by simp only [RepeatTimer.step,ht]
    have hmoved : Moved th s (s.step (.runner m)) := hstep ▸ runner_moved hs.positive th m
    obtain ⟨th',ht',hc',hlt⟩ := hmoved.closer hc hne
    have hle := ih (hs.step _) ht' hc' hrest
    rw [List.length_cons]
    omega

/-- Threads of a timer with a positive interval never overlap; a stopped task starts once more
at most, `running` tells whether there is a thread that nobody has cancelled, and whoever waits
for a thread waits for four steps of it at most, if the task does not keep it. -/
theorem repeat_contract (timeinterval_ : ℤ) (hpos : 0 < timeinterval_) (task_ scalable_ : Bool)
    (evs : List Event) :
    let s := Transitions.run step (new timeinterval_ task_ scalable_) evs
    s.Contract ∧ (s.pc = .destroyed → ∀ e, s.step e = s) ∧
      ∀ th, s.t = some th → th.cancelled = true →
        (th.stage ≠ .ended → ∃ m, s.step (.runner m) ≠ s) ∧
        ∀ ms : List Move, Transitions.Along step (fun s e => s.step e ≠ s) s (ms.map .runner) →
          ms.length ≤ 4 := by
  intro s
  have hs : s.Inv := Transitions.run_invariant (Inv.new hpos task_ scalable_)
    (fun s e hs => hs.step e) evs
  refine ⟨hs.toContract,fun hpc e => ?_,fun th ht hc => ?_⟩
  · have ht := hs.gone (Or.inr hpc)
    cases e with
    | call c => exact if_neg (by simp [hpc])
    | caller => simp only [step,caller,hpc]
    | runner m => simp only [step,ht]
  · exact ⟨runner_moves hs ht hc,fun ms h => (moves_le hs ht hc h).trans (left_le _)⟩

/-- A timer is destroyed while its thread is about to start the task. -/
theorem repeat_contract_destroyed :
    let evs : List Event := [.call .run,.caller,.caller,.caller,.caller,.runner (.read 0),
      .runner .wake,.call .destructor,.caller,.caller,.caller,.runner .start,.runner .finish,
      .runner (.read 0),.runner .point,.caller]
    let s := Transitions.run step (new 1 true false) evs
    s.log = [.stops 0,.starts 0] ∧ s.Contract ∧ (s.pc = .destroyed → ∀ e, s.step e = s) ∧
      ∀ th, s.t = some th → th.cancelled = true →
        (th.stage ≠ .ended → ∃ m, s.step (.runner m) ≠ s) ∧
        ∀ ms : List Move, Transitions.Along step (fun s e => s.step e ≠ s) s (ms.map .runner) →
          ms.length ≤ 4 := by
  intro evs
  exact ⟨by decide +kernel,repeat_contract 1 (by decide) true false evs⟩

end RepeatTimer
end GossipMemberlist
