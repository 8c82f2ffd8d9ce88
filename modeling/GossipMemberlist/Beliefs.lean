import GossipMemberlist.Lineage

/-!
# What members believe of each other

Nobody is ahead of a member's own counter, nobody holds a member for gone that has
not left, nobody holds it for dead without some member's suspicion having run out,
and the departed stay departed.
-/

namespace GossipMemberlist

/-- The content says nothing about the owner of `cfg` that it could not have said
itself while its counter reads `counter`. -/
def Content.Fair (cfg : Config) (counter : ℕ) : Content → Prop
  | .alive a => a.node = cfg.name → a.incarnation ≤ counter ∧
      a.addr = cfg.advertiseAddr ∧ a.port = cfg.advertisePort.toNat
  | .suspect s => s.node = cfg.name → s.incarnation ≤ counter
  | .dead d => d.node = cfg.name → d.incarnation ≤ counter
  | .notSet => True

def PushNodeState.Fair (cfg : Config) (counter : ℕ) (state : PushNodeState) : Prop :=
  state.name = cfg.name → state.incarnation ≤ counter ∧ (state.state = .stateAlive →
    state.addr = cfg.advertiseAddr ∧ state.port = cfg.advertisePort.toNat)

def Packet.Fair (cfg : Config) (counter : ℕ) : Packet → Prop
  | .broadcast b => b.content.Fair cfg counter
  | .pushPull pp => ∀ state ∈ pp.states, state.Fair cfg counter

def Process.calls (p : Process) : List Broadcast := p.verdicts ++ p.farewells ++ p.member.updates

theorem PushNodeState.heard_dead {cfg : Config} {e e' : Env} {state : PushNodeState} {d : Dead}
    (h : state.heard cfg e = .dead d e') : d.node = d.from_ := by
  unfold PushNodeState.heard at h
  split at h <;> cases h
  rfl

namespace Roster

variable {ι : Type*} {R : Roster ι} {V W : String → ℕ → Prop} {c c' : Cluster ι}
  {evs : List (ι × Op)} {i x : ι} {op : Op} {counter : ℕ}

theorem GoodMsg.fair {b : Broadcast} (h : R.GoodMsg V c b) (hx : R.ownInc c x ≤ counter) :
    b.content.Fair (R.config x) counter := by
  cases h with
  | alive ha => exact fun hn => ⟨(ha.below x hn.symm).trans hx,ha.address x hn.symm⟩
  | suspect hs => exact fun hn => (hs.below x hn.symm).trans hx
  | dead hd => exact fun hn => (hd.below x hn.symm).trans hx

theorem GoodPacket.fair {pkt : Packet} (h : R.GoodPacket V c pkt) (hx : R.ownInc c x ≤ counter) :
    pkt.Fair (R.config x) counter := by
  cases h with
  | broadcast hb => exact hb.fair hx
  | pushPull hpp =>
    intro state hstate hn
    obtain ⟨s,rfl,hs⟩ := hpp state hstate
    refine ⟨(hs.below x hn.symm).trans hx,fun _ => ?_⟩
    rw [Member.pushNodeState,hs.genuine x hn.symm]
    exact ⟨rfl,rfl⟩

/-- A member's pending calls say nothing about others that is not fair, and speak
for the member itself only under numbers that its counter has reached. -/
theorem GoodNode.fair {y : ι} {p : Process} (h : R.GoodNode V W c y p)
    (hp : p.Steady (R.config y)) (hx : R.ownInc c x ≤ counter)
    (hself : x = y → p.member.incarnation.total ≤ counter) {b : Broadcast} (hb : b ∈ p.calls) :
    b.content.Fair (R.config x) counter := by
  simp only [Process.calls,List.mem_append] at hb
  rcases hb with (hb | hb) | hb
  · obtain ⟨d,rfl,hd⟩ := h.verdicts b hb
    exact fun hn => (hd.below x hn.symm).trans hx
  · obtain ⟨k,hk,rfl⟩ := h.farewells b hb
    intro hn
    cases R.distinct hn
    exact hk.trans hx
  · obtain ⟨inc,hinc,rfl⟩ := hp.announces b hb
    intro hn
    cases R.distinct hn
    exact ⟨hinc.trans (hself rfl),rfl,rfl⟩

/-- Nothing takes a departed member's record back. -/
theorem CellMove.departed {n : String} {leave : Bool} {lo hi : ℕ} {l : Heard} {k k' : Cell}
    {s : NodeState} (h : CellMove R c c' i n leave lo hi l k k') (hl : R.GoodHeard V c i l)
    (hk : R.GoodCell V c k) (hs : k.record = some s) (hleft : s.state = .stateLeft)
    (hx : R.name x = n) : k'.record = some s := by
  have hname : R.name x = s.n.name := hx.trans (h.named s hs).symm
  obtain ⟨s₀,hown,-,hinc⟩ := (hk.record s hs).left hleft x hname
  have hn := (hk.record s hs).genuine x hname
  have hother {a e} (hl : R.GoodHeard V c i (.alive a e)) (ha : a.node = n)
      (hne : n ≠ (R.config i).name) : a.incarnation ≤ s.incarnation ∧
        a.addr = s.n.addr ∧ a.port = s.n.port.toNat := by
    have ha' : R.GoodAlive c a := hl.resolve_left fun h => hne (ha.symm.trans h)
    have hle := ha'.below x (hx.trans ha.symm)
    rw [ownInc,hown,Option.elim,hinc] at hle
    rw [hn]
    exact ⟨hle,ha'.address x (hx.trans ha.symm)⟩
  obtain ⟨s',hs',hstep⟩ := h.step.recordStep hs
  cases hstep with
  | kept => exact hs'
  | accepted ha hne _ hlt => exact absurd (hother hl ha hne).1 (Nat.not_le.mpr hlt)
  | replaced ha hne haddr =>
    obtain ⟨-,h₁,h₂⟩ := hother hl ha hne
    simp [Member.addressDiffers,h₁,h₂] at haddr
  | refuted hne _ hleave => cases ((h.localCell hne).alive hs hleave).symm.trans hleft
  | suspected _ _ _ halive => cases halive.symm.trans hleft
  | buried _ _ hdead => simp [NodeState.deadOrLeft,hleft] at hdead

/-- Only a dead message from somebody else makes a record dead. -/
theorem CellMove.dead {n : String} {leave : Bool} {lo hi : ℕ} {l : Heard} {k k' : Cell}
    {s : NodeState} (h : CellMove R c c' i n leave lo hi l k k') (hl : R.GoodHeard V c i l)
    (hs : k'.record = some s) (hdead : s.state = .stateDead) :
    k.record = some s ∨ ∃ d e, l = .dead d e ∧ d.node ≠ d.from_ := by
  cases h.step with
  | kept hb => exact Or.inl (hb.record_eq.symm.trans hs)
  | disarmed _ _ hb => exact Or.inl (hb.record_eq.symm.trans hs)
  | ended _ hb => exact Or.inl (hb.record_eq.symm.trans hs)
  | confirmed _ _ _ _ hb =>
    rcases hb with hb | ⟨-,hb⟩ <;> exact Or.inl (hb.record_eq.symm.trans hs)
  | created _ ha hne hinc =>
    have ha' := hl.resolve_left fun h => hne (ha.symm.trans h)
    exact absurd hinc ha'.pos.ne'
  | joined _ _ _ _ hb | accepted _ _ _ _ _ hb | replaced _ _ _ _ _ hb | suspected _ _ _ _ _ _ hb =>
    cases hb.record_eq.symm.trans hs
    cases hdead
  | refuted hs' hne _ hleave _ _ _ hb =>
    cases hb.record_eq.symm.trans hs
    cases ((h.localCell hne).alive hs' hleave).symm.trans hdead
  | @buried d e _ _ _ _ _ _ hb =>
    cases hb.record_eq.symm.trans hs
    refine Or.inr ⟨d,e,rfl,fun hself => ?_⟩
    simp [Member.deadRecord,hself] at hdead

variable [DecidableEq ι]

theorem ownInc_le_counter (hwrap : NoWrap (R.run evs)) (x : ι) :
    R.ownInc (R.run evs) x ≤ ((R.run evs).node x).member.incarnation.load :=
  ((run_provenance R evs hwrap).own x).trans (WrapCounter.load_eq (hwrap x)).ge

theorem run_fair (R : Roster ι) (evs : List (ι × Op)) (hwrap : NoWrap (R.run evs)) (x y : ι) :
    let p := (R.run evs).node y
    let counter := ((R.run evs).node x).member.incarnation.load
    (∀ s, p.member.find (R.name x) = some s → s.incarnation ≤ counter) ∧
      (∀ e ∈ p.member.queue.tq, e.b.msg.content.Fair (R.config x) counter) ∧
      ∀ b ∈ p.calls, b.content.Fair (R.config x) counter := by
  intro p counter
  have h := run_provenance R evs hwrap
  have hx : R.ownInc (R.run evs) x ≤ counter := ownInc_le_counter hwrap x
  have hcounter : counter = total (R.run evs) x := WrapCounter.load_eq (hwrap x)
  refine ⟨fun s hs => ?_,fun e he => ?_,fun b hb => ?_⟩
  · have hgood := ((h.nodes y).cells _).record s hs
    exact (hgood.below x (Table.find_name hs).symm).trans hx
  · exact (((h.nodes y).cells e.b.node).rumours _ ⟨e,he,rfl,rfl⟩).fair hx
  · exact (h.nodes y).fair (run_steady R evs y) hx (fun hy => hy ▸ hcounter.ge) hb

theorem sent_fair (R : Roster ι) (evs : List (ι × Op)) (hwrap : NoWrap (R.run evs)) (x : ι) :
    ∀ pkt ∈ (R.run evs).sent,
      pkt.Fair (R.config x) ((R.run evs).node x).member.incarnation.load :=
  fun pkt hpkt => ((run_provenance R evs hwrap).sent pkt hpkt).fair (ownInc_le_counter hwrap x)

/-- No number about a member is ahead of the member's own counter, and no alive message
about it gives another address than its own. -/
theorem incarnation_bounded (R : Roster ι) (evs : List (ι × Op)) (hwrap : NoWrap (R.run evs))
    (x : ι) :
    let c := R.run evs
    let counter := (c.node x).member.incarnation.load
    (∀ y s, (c.node y).member.find (R.name x) = some s → s.incarnation ≤ counter) ∧
      (∀ y, ∀ e ∈ (c.node y).member.queue.tq, e.b.msg.content.Fair (R.config x) counter) ∧
      (∀ y, ∀ b ∈ (c.node y).calls, b.content.Fair (R.config x) counter) ∧
      ∀ pkt ∈ c.sent, pkt.Fair (R.config x) counter := by
  intro c counter
  refine ⟨fun y => ?_,fun y => ?_,fun y => ?_,sent_fair R evs hwrap x⟩
  · exact (run_fair R evs hwrap x y).1
  · exact (run_fair R evs hwrap x y).2.1
  · exact (run_fair R evs hwrap x y).2.2

/-- `b` hears of `a`, suspects it, lets the suspicion run out and gossips about it. -/
def burial : List (Bool × Op) := [
  (true,.sendState true),
  (false,.merge ⟨"a","10.0.0.1",6666,1,.stateAlive⟩ ⟨0,0,0,1,[],[]⟩),
  (false,.probe 0 []),
  (false,.probeFail ⟨⟨"a","10.0.0.1",6666⟩,1,.stateAlive,1⟩ ⟨0,0,2,3,[],[]⟩),
  (false,.timerWake "a"),
  (false,.timerCheck ⟨⟨1,"a","b"⟩,2⟩),
  (false,.timerDead (genDeadBroadcast ⟨1,"a","b"⟩) ⟨0,0,4,5,[],[]⟩),
  (false,.gossip 0 1000 false)]

theorem incarnation_bounded_burial : Packet.Fair (pair.config true)
    ((pair.run burial).node true).member.incarnation.load
    (.broadcast (genDeadBroadcast ⟨1,"a","b"⟩)) :=
  (incarnation_bounded pair burial (fun i => by cases i <;> decide +kernel) true).2.2.2 _
    (by decide +kernel)

theorem run_snoc (R : Roster ι) (evs : List (ι × Op)) (ev : ι × Op) :
    R.run (evs ++ [ev]) = R.network.next (R.run evs) ev := Transitions.run_snoc ..

theorem NoWrap.of_snoc {ev : ι × Op} (h : NoWrap (R.run (evs ++ [ev]))) : NoWrap (R.run evs) := by
  rw [run_snoc] at h
  rcases Network.next_cases (N := R.network) (R.run evs) ev with hn | ⟨-,hn⟩
  · rwa [hn] at h
  · rw [hn] at h
    exact h.of_act

theorem NoWrap.of_append {evs' : List (ι × Op)} (h : NoWrap (R.run (evs ++ evs'))) :
    NoWrap (R.run evs) := by
  induction evs' using List.reverseRecOn with
  | nil => rwa [List.append_nil] at h
  | append_singleton evs' ev ih =>
    rw [← List.append_assoc] at h
    exact ih h.of_snoc

/-- What every step keeps of a member, while no counter wraps, is kept by every run. -/
theorem run_keeps {P : Process → Prop} {y : ι}
    (hstep : ∀ evs ev, NoWrap (R.run (evs ++ [ev])) → P ((R.run evs).node y) →
      P ((R.network.next (R.run evs) ev).node y))
    {evs' : List (ι × Op)} (hwrap : NoWrap (R.run (evs ++ evs'))) (h : P ((R.run evs).node y)) :
    P ((R.run (evs ++ evs')).node y) := by
  induction evs' using List.reverseRecOn with
  | nil => rwa [List.append_nil]
  | append_singleton evs' ev ih =>
    rw [← List.append_assoc] at hwrap ⊢
    rw [run_snoc]
    exact hstep _ ev hwrap (ih hwrap.of_snoc)

/-- A step of member `i` acts on its cells; the rest of the cluster watches. -/
theorem act_cells (hwrap : NoWrap (R.network.act (R.run evs) i op))
    (hd : op.arrives (R.run evs).sent = true) (n : String) :
    let p := (R.run evs).node i
    let p' := p.next (R.config i) R.floats op
    CellMove R (R.run evs) (R.network.act (R.run evs) i op) i n p.member.leave
        p.member.incarnation.total p'.member.incarnation.total (p.heard (R.config i) op)
        (p.member.cell n) (p'.member.cell n) ∧
      R.GoodHeard (fun _ _ => True) (R.run evs) i (p.heard (R.config i) op) ∧
      R.GoodCell (fun _ _ => True) (R.run evs) (p.member.cell n) := by
  have h : R.Provenance (fun _ _ => True) (fun _ _ _ => True) (R.run evs) :=
    (run_provenance R evs (NoWrap.of_act hwrap)).mono (fun _ _ _ => trivial) fun _ _ _ _ => trivial
  exact ⟨cellMove h hwrap n,h.heard hd fun _ _ _ _ _ => trivial,(h.nodes i).cells n⟩

theorem run_leave (R : Roster ι) (evs : List (ι × Op)) (x : ι)
    (h : ((R.run evs).node x).member.leave = true) : (x,Op.leaveSet) ∈ evs := by
  refine Network.run_history (N := R.network) (c := R.start)
    (P := fun evs c => (c.node x).member.leave = true → (x,Op.leaveSet) ∈ evs)
    (fun h => ?_) (fun evs ev c h hx => List.mem_append_left _ (h hx))
    (fun evs i op h _ hx => ?_) evs h
  · obtain ⟨hleave,-⟩ := Process.start_locals (R.config x) (R.leaveFd x) (R.env x)
    cases hleave.symm.trans h
  · by_cases hi : x = i
    · subst hi
      by_cases hop : op = .leaveSet
      · exact List.mem_append_right _ (by simp [hop])
      · rw [Network.act_self] at hx
        have hsame := Process.next_leave R.floats (run_steady R evs x).sound hop
        exact List.mem_append_left _ (h (hsame.symm.trans hx))
    · rw [Network.act_other _ hi] at hx
      exact List.mem_append_left _ (h hx)

theorem merge_keeps_dead (R : Roster ι) (evs : List (ι × Op)) (y : ι) (n : String)
    (state : PushNodeState) (e : Env) (hwrap : NoWrap (R.run (evs ++ [(y,.merge state e)])))
    {s : NodeState} (hs : ((R.run (evs ++ [(y,.merge state e)])).node y).member.find n = some s)
    (hdead : s.state = .stateDead) : ((R.run evs).node y).member.find n = some s := by
  rw [run_snoc] at hs hwrap
  rcases Network.next_cases (N := R.network) (R.run evs) (y,.merge state e) with hn | ⟨hd,hn⟩
  · rwa [hn] at hs
  · rw [hn] at hs hwrap
    rw [Network.act_self] at hs
    obtain ⟨hmove,hl,-⟩ := act_cells hwrap hd n
    rcases hmove.dead hl hs hdead with h | ⟨d,e',hheard,hne⟩
    · exact h
    · exact absurd (PushNodeState.heard_dead hheard) hne

theorem run_left (R : Roster ι) (evs : List (ι × Op)) (hwrap : NoWrap (R.run evs)) {x y : ι}
    {s : NodeState} (hs : ((R.run evs).node y).member.find (R.name x) = some s)
    (hleft : s.state = .stateLeft) : ((R.run evs).node x).member.leave = true := by
  have hgood := (((run_provenance R evs hwrap).nodes y).cells _).record s hs
  obtain ⟨s₀,hown,hstate,-⟩ := hgood.left hleft x (Table.find_name hs).symm
  have hrecord := (run_steady R evs x).record
  by_contra hf
  cases (hrecord.alive hown (Or.inl (by simpa using hf))).symm.trans hstate

theorem run_dead (R : Roster ι) (evs : List (ι × Op)) (hwrap : NoWrap (R.run evs)) {x y : ι}
    {s : NodeState} (hs : ((R.run evs).node y).member.find (R.name x) = some s)
    (hdead : s.state = .stateDead) : R.Issued evs (R.name x) s.incarnation := by
  have hgood := (((run_provenance R evs hwrap).nodes y).cells _).record s hs
  exact Table.find_name hs ▸ hgood.dead hdead

/-- Nobody takes a member for gone that has not left, or for dead unless some member's
suspicion of it has run out under that number. -/
theorem belief_grounded (R : Roster ι) (evs : List (ι × Op)) (hwrap : NoWrap (R.run evs)) (x y : ι)
    (s : NodeState) (hs : ((R.run evs).node y).member.find (R.name x) = some s) :
    (s.state = .stateLeft → ((R.run evs).node x).member.leave = true ∧ (x,Op.leaveSet) ∈ evs) ∧
      (s.state = .stateDead → R.Issued evs (R.name x) s.incarnation) ∧
      ∀ pre state e, evs = pre ++ [(y,.merge state e)] → s.state = .stateDead →
        ((R.run pre).node y).member.find (R.name x) = some s := by
  refine ⟨fun hleft => ?_,run_dead R evs hwrap hs,?_⟩
  · have hleave := run_left R evs hwrap hs hleft
    exact ⟨hleave,run_leave R evs x hleave⟩
  · rintro pre state e rfl hdead
    exact merge_keeps_dead R pre y _ state e hwrap hs hdead

theorem belief_grounded_burial : pair.Issued burial "a" 1 :=
  (belief_grounded pair burial (fun i => by cases i <;> decide +kernel) true false
    ⟨⟨"a","10.0.0.1",6666⟩,1,.stateDead,4⟩ (by decide +kernel)).2.1 rfl

theorem next_departed (evs : List (ι × Op)) (ev : ι × Op) (hwrap : NoWrap (R.run (evs ++ [ev])))
    {s : NodeState} (hleft : s.state = .stateLeft) {y : ι}
    (hs : ((R.run evs).node y).member.find (R.name x) = some s) :
    ((R.network.next (R.run evs) ev).node y).member.find (R.name x) = some s := by
  obtain ⟨i,op⟩ := ev
  rw [run_snoc] at hwrap
  rcases Network.next_cases (N := R.network) (R.run evs) (i,op) with hn | ⟨hd,hn⟩
  · rwa [hn]
  · rw [hn] at hwrap ⊢
    by_cases hy : y = i
    · subst hy
      obtain ⟨hmove,hl,hk⟩ := act_cells hwrap hd (R.name x)
      rw [Network.act_self]
      exact hmove.departed hl hk hs hleft rfl
    · rwa [Network.act_other _ hy]

/-- The departed stay departed, whatever anybody does or hears. -/
theorem departed_forever (R : Roster ι) (evs evs' : List (ι × Op))
    (hwrap : NoWrap (R.run (evs ++ evs'))) (x y : ι) (s : NodeState)
    (hs : ((R.run evs).node y).member.find (R.name x) = some s) (hleft : s.state = .stateLeft) :
    ((R.run (evs ++ evs')).node y).member.find (R.name x) = some s :=
  run_keeps (P := fun p => p.member.find (R.name x) = some s)
    (fun evs ev hwrap => next_departed evs ev hwrap hleft) hwrap hs

/-- `a` leaves; `b`, which has heard of that, and `a` itself are then sent older news. -/
theorem departed_forever_stale :
    let leaving : List (Bool × Op) := [
      (true,.sendState true),
      (false,.merge ⟨"a","10.0.0.1",6666,1,.stateAlive⟩ ⟨0,0,0,1,[],[]⟩),
      (true,.leaveTest),
      (true,.leaveSet),
      (true,.leaveRead),
      (true,.leaveDead (genDeadBroadcast ⟨1,"a","a"⟩) ⟨0,0,2,3,[],[]⟩),
      (true,.sendState false),
      (false,.merge ⟨"a","10.0.0.1",6666,1,.stateLeft⟩ ⟨0,0,4,5,[],[]⟩)]
    let stale : List (Bool × Op) := [
      (false,.merge ⟨"a","10.0.0.1",6666,1,.stateAlive⟩ ⟨0,0,6,7,[],[]⟩),
      (true,.update .add),
      (true,.update .load),
      (true,.updateAlive (genAliveBroadcast ⟨2,"a","10.0.0.1",6666⟩) 5 ⟨0,0,8,9,[],[]⟩)]
    ((pair.run (leaving ++ stale)).node false).member.find "a" =
      some ⟨⟨"a","10.0.0.1",6666⟩,1,.stateLeft,4⟩ :=
  departed_forever pair _ _ (fun i => by cases i <;> decide +kernel) true false _
    (by decide +kernel) rfl

end Roster
end GossipMemberlist
