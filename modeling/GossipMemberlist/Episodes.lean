import GossipMemberlist.Callbacks

/-!
# Suspicion episodes

The callback of a suspicion timer checks under the lock that its episode is still
the current one, lets go of the lock, and then calls `deadNode`. An alive message
that is accepted in between has erased the timer, and whoever erases it has waited
for the callback's thread to end.
-/

namespace GossipMemberlist

namespace Member

/-- An alive message that changes what is known of another node leaves it no timer. -/
theorem aliveNode_accepts {cfg : Config} {m : Member} (hm : m.Settled cfg) (e : Env)
    {b : Broadcast} (hne : b.alive.node ≠ cfg.name) (notifyFd : ℤ)
    (h : (m.aliveNode cfg e b false notifyFd).find b.alive.node ≠ m.find b.alive.node) :
    (m.aliveNode cfg e b false notifyFd).nodeTimers b.alive.node = none := by
  have hexit := aliveNode_exit hm.known e b notifyFd
  generalize m.aliveNode cfg e b false notifyFd = m' at h hexit ⊢
  cases hexit with
  | created _ hnone =>
    have htimed := hm.timed b.alive.node
    by_contra ht
    obtain ⟨t,ht⟩ := Option.ne_none_iff_exists'.mp ht
    obtain ⟨-,s,hs,-⟩ := htimed.episode t ht
    cases hs.symm.trans (Table.find_eq_none.mpr hnone)
  | joined => simp [acceptAlive,broadcastNotify,modify,setTimer]
  | accepted => simp [acceptAlive,broadcastNotify,modify,setTimer]
  | replaced => simp [acceptAlive,broadcastNotify,modify,setTimer]
  | echoed _ _ hl => exact absurd hl hne
  | refuted _ _ hl => exact absurd hl hne
  | _ => exact absurd rfl h

end Member

namespace Host

variable {cfg : Config} {fl : Floats} {enabled : Periodic → Bool}

def Accepts (cfg : Config) (fl : Floats) (enabled : Periodic → Bool) (x : String) (s : Host)
    (ev : HostEvent) : Prop :=
  (∃ t choice e b notifyFd e', ev = .go t choice e ∧ s.doing t = .alive b notifyFd e' ∧
    b.alive.node = x) ∧ (s.step cfg fl enabled ev).member.find x ≠ s.member.find x

theorem go_member (s : Host) (t : Tid) (choice : Choice) (e : Env) :
    (s.step cfg fl enabled (.go t choice e)).member = s.member ∨
      (s.step cfg fl enabled (.go t choice e)).member = s.reads (s.doing t) ∨
      (s.step cfg fl enabled (.go t choice e)).member =
        (s.doing t).apply cfg fl (s.reads (s.doing t)) ∨
      (s.step cfg fl enabled (.go t choice e)).member = (s.doing t).apply cfg fl s.member := by
  have hbody : (s.body cfg fl enabled t).member = s.reads (s.doing t) ∨
      (s.body cfg fl enabled t).member = (s.doing t).apply cfg fl (s.reads (s.doing t)) := by
    simp only [body]
    split
    · exact Or.inl rfl
    · exact Or.inr rfl
  simp only [step]
  split
  · left
    split <;> rfl
  · simp only [inside]
    split
    · left
      simp only [check]
      split <;> rfl
    · exact Or.inr (hbody.imp_right Or.inl)
  · split
    · exact Or.inr (Or.inr (Or.inr rfl))
    · exact Or.inl rfl
  · exact Or.inl rfl

theorem Sound.accepts_timer {s : Host} (hs : s.Sound cfg) {x : String} (hx : x ≠ cfg.name)
    {ev : HostEvent} (hs' : (s.step cfg fl enabled ev).Sound cfg)
    (h : Accepts cfg fl enabled x s ev) :
    (s.step cfg fl enabled ev).locking.nodeTimers x = none := by
  obtain ⟨⟨t,choice,e,b,notifyFd,e',rfl,hdoing,rfl⟩,hfind⟩ := h
  have hmember := @go_member cfg fl enabled s t choice e
  rw [hdoing] at hmember
  have hreads : s.reads (.alive b notifyFd e') = s.member := rfl
  rw [hreads] at hmember
  have hsame : (s.step cfg fl enabled (.go t choice e)).member ≠ s.member := fun h =>
    hfind (by rw [h])
  have happly : (s.step cfg fl enabled (.go t choice e)).member =
      s.member.aliveNode cfg e' b false notifyFd := by
    rcases hmember with h | h | h | h
    · exact absurd h hsame
    · exact absurd h hsame
    · exact h
    · exact h
  have hnone := Member.aliveNode_accepts hs.settled e' hx notifyFd (happly ▸ hfind)
  have hshows := hs'.shows b.alive.node
  rw [happly,hnone] at hshows
  exact Option.isNone_iff_eq_none.mp (by simpa using hshows)

theorem Sound.gone_forever {s : Host} (hs : s.Sound cfg) {i : ℕ} (hi : i < s.locking.next)
    (h : s.locking.nodeTimers (s.locking.node i) ≠ some i) (evs : List HostEvent) :
    (Transitions.run (Host.step cfg fl enabled) s evs).locking.pc (.suspicion i) = .ended := by
  obtain ⟨ms,hms⟩ := run_locking s evs
  rw [hms]
  exact hs.attached.gone_forever hi h ms

/-- Once an alive message about `x` has been accepted, the thread of a suspicion of `x` that
was there before does nothing any more, wherever its callback has got to. -/
theorem callback_kills_own_episode (cfg : Config) (fl : Floats) (enabled : Periodic → Bool)
    (leaveFd : ℤ) (e : Env) (pre mid : List HostEvent) {x : String} {i : ℕ}
    (hbegin : (run cfg fl enabled leaveFd e pre).locking.nodeTimers x = some i)
    (haccepts : Transitions.Happens (step cfg fl enabled) (Accepts cfg fl enabled x)
      (run cfg fl enabled leaveFd e pre) mid) (choice : Choice) (env : Env) :
    (run cfg fl enabled leaveFd e (pre ++ mid)).step cfg fl enabled
        (.go (.suspicion i) choice env) =
      run cfg fl enabled leaveFd e (pre ++ mid) := by
  obtain ⟨wait,ev,post,rfl,haccept⟩ := haccepts.split
  have hrun (evs more : List HostEvent) : run cfg fl enabled leaveFd e (evs ++ more) =
      Transitions.run (step cfg fl enabled) (run cfg fl enabled leaveFd e evs) more :=
    Transitions.run_append ..
  have hsound (evs : List HostEvent) := run_sound cfg fl enabled leaveFd e evs
  have hstep : run cfg fl enabled leaveFd e (pre ++ wait ++ [ev]) =
      (run cfg fl enabled leaveFd e (pre ++ wait)).step cfg fl enabled ev :=
    Transitions.run_snoc ..
  -- the suspicion is about another node, and the numbers of suspicions are not used again
  obtain ⟨hnode,hnext⟩ := (hsound pre).attached.named x i hbegin
  have hx : x ≠ cfg.name := by
    have hshows := (hsound pre).shows x
    rw [hbegin] at hshows
    obtain ⟨t,ht⟩ := Option.isSome_iff_exists.mp hshows.symm
    exact (((hsound pre).settled.timed x).episode t ht).1
  obtain ⟨ms,hms⟩ := run_locking
    (run cfg fl enabled leaveFd e pre) (wait ++ [ev])
  rw [← hrun,← List.append_assoc] at hms
  have hkeeps := Locking.run_keeps enabled (run cfg fl enabled leaveFd e pre).locking ms
  rw [← hms] at hkeeps
  -- the step that accepts the message leaves the name without a timer
  rw [← hrun] at haccept
  have hnone : (run cfg fl enabled leaveFd e (pre ++ wait ++ [ev])).locking.nodeTimers x = none := by
    have hs' := hsound (pre ++ wait ++ [ev])
    rw [hstep] at hs' ⊢
    exact (hsound (pre ++ wait)).accepts_timer hx hs' haccept
  have hended := @Sound.gone_forever cfg fl enabled _ (hsound (pre ++ wait ++ [ev])) i
    (hnext.trans_le hkeeps.1) (by rw [(hkeeps.2 i hnext).1,hnode,hnone]; simp) post
  rw [← hrun,List.append_assoc,List.append_assoc,List.singleton_append] at hended
  simp only [Host.step,hended,move,Locking.step]

/-- Before the callback calls `deadNode`, `b` refutes the suspicion. -/
def overtakenRun : List HostEvent :=
  let go := HostEvent.goOn
  let w : Tid := .worker 0
  [.call w (.alive (genAliveBroadcast ⟨2,"b","10.0.0.2",6666⟩) (-1) ⟨0,0,5,6,[],[]⟩),
    go w,go w,go w,.go (.suspicion 0) .io ⟨0,0,0,0,[],[]⟩,go w,go w]

theorem callback_kills_own_episode_overtaken :
    let node := defaultLANConfig "node"
    let run := run node .small (fun _ => true) 3 ⟨0,0,0,0,[],[]⟩
    (run checkedRun).locking.pc (.suspicion 0) = .verdict ∧
      (run (checkedRun ++ overtakenRun)).step node .small (fun _ => true)
          (.go (.suspicion 0) .go ⟨0,0,7,8,[],[]⟩) =
        run (checkedRun ++ overtakenRun) := by
  intro node run
  refine ⟨by decide +kernel,?_⟩
  refine callback_kills_own_episode node .small (fun _ => true) 3 ⟨0,0,0,0,[],[]⟩ checkedRun
    overtakenRun (x := "b") (i := 0) (by decide +kernel) ?_ .go ⟨0,0,7,8,[],[]⟩
  -- the message is accepted when the join returns
  refine Or.inr (Or.inr (Or.inr (Or.inr (Or.inr (Or.inl ⟨?_,by decide +kernel⟩)))))
  exact ⟨.worker 0,.go,_,genAliveBroadcast ⟨2,"b","10.0.0.2",6666⟩,-1,⟨0,0,5,6,[],[]⟩,rfl,
    by decide +kernel,rfl⟩

end Host

end GossipMemberlist
