import GossipMemberlist.Exchange

/-!
# Answers to accusations

A member that is told that it is suspect or dead gets past the number of the accusation
for good, and so does everybody who then takes in its state: whatever was held against it
under that number is over there, in every order of events.
-/

namespace GossipMemberlist

variable {cfg : Config} {fl : Floats}

/-- The message says that the node `n` is suspect or dead under the number `k`. -/
def Heard.Accuses (n : String) (k : ℕ) : Heard → Prop
  | .suspect s _ => s.node = n ∧ s.incarnation = k
  | .dead d _ => d.node = n ∧ d.incarnation = k
  | _ => False

namespace Member

theorem deadNode_own {m : Member} (hm : m.Settled cfg) (hd : m.deadlocked = false)
    (hleave : m.leave = false) {own : NodeState} (hown : m.find cfg.name = some own)
    {b : Broadcast} (hb : b.dead.node = cfg.name) {e : Env}
    (hacc : b.dead.incarnation ≤ m.incarnation.total)
    (hwrap : (m.deadNode cfg e b).incarnation.total < 2 ^ 32) :
    ∃ own', (m.deadNode cfg e b).find cfg.name = some own' ∧
      b.dead.incarnation < own'.incarnation := by
  have halive := hm.localCell.alive hown (Or.inl hleave)
  have h : DeadExit cfg e b.dead m _ := deadNode_exit m e b
  generalize m.deadNode cfg e b = m' at h hwrap ⊢
  have hsame {r : ℕ} (hr : m.table.nodeMap b.dead.node = some r) : m.table.heap r = own := by
    rw [hb] at hr
    exact Option.some.inj ((Table.find_eq hr).symm.trans hown)
  cases h with
  | blocked h => cases hd.symm.trans h
  | unknown _ hnone =>
    rw [hb] at hnone
    cases (Table.find_eq_none.mpr hnone).symm.trans hown
  | stale _ hr hlt => exact ⟨own,hown,hsame hr ▸ hlt⟩
  | settled _ hr _ hdead =>
    rw [hsame hr] at hdead
    simp [NodeState.deadOrLeft,halive] at hdead
  | refuted _ hr =>
    obtain ⟨own',hown',-,hlt⟩ := refute_above (m := m.setTimer cfg.name none) (hb ▸ hr)
      (hsame hr ▸ halive) hacc hwrap
    exact ⟨own',hown',hlt⟩
  | buried _ _ _ _ hl => cases hleave.symm.trans (hl hb)

end Member

namespace Process

/-- A member that is not leaving has an answer to what it is accused of, as long as the
counter goes round for nobody. -/
theorem next_answers {p : Process} {op : Op} {k : ℕ} (hp : p.member.Settled cfg)
    (hfree : p.member.deadlocked = false) (hleave : p.member.leave = false)
    (hop : (p.heard cfg op).Accuses cfg.name k) (hk : k ≤ p.member.incarnation.total)
    (hwrap : (p.next cfg fl op).member.incarnation.total < 2 ^ 32) :
    ∃ own, (p.next cfg fl op).member.find cfg.name = some own ∧ k < own.incarnation := by
  obtain ⟨-,own,hown,-⟩ := hp.localCell
  cases hheard : p.heard cfg op with
  | alive | nothing =>
    rw [hheard] at hop
    cases hop
  | suspect s e =>
    rw [hheard] at hop
    obtain ⟨hnode,rfl⟩ := hop
    rw [next_suspect fl hheard] at hwrap ⊢
    have h := Member.suspectNode_own fl hp hfree hleave hown (b := genSuspectBroadcast s) hnode hk
      hwrap
    split at h
    · rename_i hlt
      exact ⟨own,h,hlt⟩
    · obtain ⟨own',hown',-,hlt⟩ := h
      exact ⟨own',hown',hlt⟩
  | dead d e =>
    rw [hheard] at hop
    obtain ⟨hnode,rfl⟩ := hop
    rw [next_dead fl hheard] at hwrap ⊢
    exact Member.deadNode_own hp hfree hleave hown (b := genDeadBroadcast d) hnode hk hwrap

end Process

namespace Roster

variable {ι : Type*} [DecidableEq ι] {R : Roster ι} {evs : List (ι × Op)} {x y : ι}

theorem run_settled (R : Roster ι) (evs : List (ι × Op)) (y : ι) :
    ((R.run evs).node y).member.Settled (R.config y) := by
  obtain ⟨ops,h⟩ := R.run_node evs y
  rw [h]
  exact Process.run_settled ..

theorem view_grows {evs' : List (ι × Op)} (hwrap : NoWrap (R.run (evs ++ evs'))) {s : NodeState}
    (hs : R.view (R.run evs) y x = some s) :
    ∃ s', R.view (R.run (evs ++ evs')) y x = some s' ∧ s.incarnation ≤ s'.incarnation := by
  induction evs' using List.reverseRecOn with
  | nil => exact ⟨s,by rwa [List.append_nil],le_refl _⟩
  | append_singleton evs' ev ih =>
    rw [← List.append_assoc] at hwrap ⊢
    obtain ⟨t,ht,hle⟩ := ih hwrap.of_snoc
    obtain ⟨s',hs',-,hadv⟩ := next_ascends (R := R) (x := x) hwrap ht
    exact ⟨s',by rw [view,run_snoc]; exact hs',hle.trans hadv.incarnation⟩

theorem run_open {evs' : List (ι × Op)}
    (h : ((R.run (evs ++ evs')).node y).member.leave = false) :
    ((R.run evs).node y).member.leave = false := by
  induction evs' using List.reverseRecOn with
  | nil => rwa [List.append_nil] at h
  | append_singleton evs' ev ih =>
    rw [← List.append_assoc,run_snoc] at h
    refine ih ?_
    rcases R.next_node (R.run (evs ++ evs')) ev y with hn | ⟨-,hn⟩
    · rwa [hn] at h
    · rw [hn] at h
      obtain ⟨-,hflag,-⟩ :=
        Process.next_cellStep R.floats (run_steady R (evs ++ evs') y).sound ev.2 (R.name y)
      rcases hflag with hflag | hflag
      · exact hflag.symm.trans h
      · cases h.symm.trans hflag

/-- In a cluster every accusation can be answered, and the answer lasts. -/
theorem accused_outbids {op : Op} {k : ℕ} {evs' : List (ι × Op)}
    (hwrap : NoWrap (R.run (evs ++ (x,op)::evs'))) (hop : op.arrives (R.run evs).sent = true)
    (haccuses : (((R.run evs).node x).heard (R.config x) op).Accuses (R.name x) k)
    (hleave : ((R.run evs).node x).member.leave = false)
    (hfree : ((R.run evs).node x).member.deadlocked = false) :
    ∃ own, R.view (R.run (evs ++ (x,op)::evs')) x x = some own ∧ k < own.incarnation := by
  have hsplit : evs ++ (x,op)::evs' = evs ++ [(x,op)] ++ evs' := by simp
  rw [hsplit] at hwrap ⊢
  have hact := hwrap.of_append
  have hnext : R.run (evs ++ [(x,op)]) = R.network.act (R.run evs) x op := by
    rw [run_snoc]
    exact if_pos hop
  have hsettled := run_settled R evs x
  have hk : k ≤ R.ownInc (R.run evs) x := by
    obtain ⟨-,hl,-⟩ := act_cells (hnext ▸ hact) hop (R.name x)
    cases hheard : ((R.run evs).node x).heard (R.config x) op with
    | alive | nothing =>
      rw [hheard] at haccuses
      cases haccuses
    | suspect s e =>
      rw [hheard] at haccuses hl
      obtain ⟨hnode,rfl⟩ := haccuses
      exact GoodSuspect.below hl x hnode.symm
    | dead d e =>
      rw [hheard] at haccuses hl
      obtain ⟨hnode,rfl⟩ := haccuses
      exact hl.elim (fun hl => hl.below x hnode.symm) fun hl => hl.2.2
  have hcounter := (run_provenance R evs hact.of_append).own x
  have hself : (R.run (evs ++ [(x,op)])).node x =
      ((R.run evs).node x).next (R.config x) R.floats op := by
    rw [run_snoc,next_self hop]
  have hroom := hact x
  rw [total,hself] at hroom
  obtain ⟨own,hown,hlt⟩ := Process.next_answers hsettled hfree hleave haccuses
    (hk.trans hcounter) hroom
  have hview : R.view (R.run (evs ++ [(x,op)])) x x = some own := by
    rw [view,hself]
    exact hown
  obtain ⟨own',hown',hle⟩ := view_grows hwrap hview
  exact ⟨own',hown',hlt.trans_le hle⟩

theorem run_sent {evs' : List (ι × Op)} {pkt : Packet} (h : pkt ∈ (R.run evs).sent) :
    pkt ∈ (R.run (evs ++ evs')).sent := by
  rw [run_append]
  refine Transitions.run_invariant (P := fun c : Cluster ι => pkt ∈ c.sent) h
    (fun c ev hc => ?_) evs'
  rcases Network.next_cases (N := R.network) c ev with hn | ⟨-,hn⟩
  · rwa [hn]
  · rw [hn]
    exact List.mem_append_right _ hc

/-- A state that a member has sent can be taken in, entry by entry, at any later time. -/
theorem arrives_of_sent {evs' : List (ι × Op)} {join : Bool} {s : NodeState}
    (hfree : ((R.run evs).node x).member.deadlocked = false)
    (hs : R.view (R.run evs) x y = some s) (e : Env) : (Op.merge (Member.pushNodeState s) e).arrives
      (R.run (evs ++ (x,.sendState join)::evs')).sent = true := by
  have hsplit : evs ++ (x,.sendState join)::evs' = evs ++ [(x,.sendState join)] ++ evs' := by simp
  rw [hsplit]
  refine List.any_eq_true.mpr ⟨.pushPull (((R.run evs).node x).member.sendLocalState join),
    run_sent ?_,decide_eq_true (Member.mem_sendLocalState hs join)⟩
  have hnext : R.run (evs ++ [(x,.sendState join)]) =
      R.network.act (R.run evs) x (.sendState join) := by
    rw [run_snoc]
    exact if_pos rfl
  rw [hnext]
  refine List.mem_append_left _ ?_
  simp [network,Process.step,hfree]

/-- An entry about a third member is taken in as it is; one that says it is alive changes
nothing unless it is news. -/
theorem merge_joins {evs' : List (ι × Op)} {z : ι} (hwrap : NoWrap (R.run evs))
    (hwrap' : NoWrap (R.run evs')) {s : NodeState} {e : Env}
    (hs : R.view (R.run evs') y x = some s)
    (harrives : (Op.merge (Member.pushNodeState s) e).arrives (R.run evs).sent = true)
    (hfree : ((R.run evs).node z).member.deadlocked = false) (hxz : x ≠ z) :
    let after := R.view (R.run (evs ++ [(z,.merge (Member.pushNodeState s) e)])) z x
    aliveAs after = (Member.pushNodeState s).joins (R.view (R.run evs) z x) ∧
      (s.state = .stateAlive → s.incarnation ≤ number (R.view (R.run evs) z x) →
        after = R.view (R.run evs) z x) := by
  obtain ⟨hn,hpos,-⟩ := view_good hwrap' hs
  have hname : (Member.pushNodeState s).name = R.name x := Table.find_name hs
  have hother : s.n.name ≠ (R.config z).name := fun h => hxz (R.distinct (hname.symm.trans h))
  have haddr : (Member.pushNodeState s).AddressKnown ((R.run evs).node z).member := by
    intro t ht
    rw [hname] at ht
    rw [(view_good hwrap ht).1,Member.pushNodeState,hn]
    exact ⟨rfl,rfl⟩
  have hjoins := Member.mergeState_joins R.floats (run_settled R evs z) hfree hother haddr hpos e
  dsimp only at hjoins ⊢
  rw [hname] at hjoins
  rw [view,run_snoc,next_self harrives]
  exact hjoins

/-- A member that has heard of an accusation is past it, and so is whoever takes in a state
that it sends after that, for good. -/
theorem accusation_answered (R : Roster ι) (pre mid gap post : List (ι × Op)) (x y : ι) (op : Op)
    (k : ℕ) (join : Bool) (s : NodeState) (e : Env)
    (hwrap : NoWrap (R.run (pre ++ (x,op)::mid ++ (x,.sendState join)::gap ++
      (y,.merge (Member.pushNodeState s) e)::post)))
    (hop : op.arrives (R.run pre).sent = true)
    (haccuses : (((R.run pre).node x).heard (R.config x) op).Accuses (R.name x) k)
    (hs : R.view (R.run (pre ++ (x,op)::mid)) x x = some s)
    (hleave : ((R.run (pre ++ (x,op)::mid)).node x).member.leave = false)
    (hx : ((R.run (pre ++ (x,op)::mid)).node x).member.deadlocked = false) (hyx : y ≠ x)
    (hy : ((R.run (pre ++ (x,op)::mid ++ (x,.sendState join)::gap)).node y).member.deadlocked =
      false) :
    let c := R.run (pre ++ (x,op)::mid ++ (x,.sendState join)::gap ++
      (y,.merge (Member.pushNodeState s) e)::post)
    (∃ own, R.view c x x = some own ∧ k < own.incarnation) ∧
      ∃ t, R.view c y x = some t ∧ k < t.incarnation := by
  have hearlier {more : List (ι × Op)} (hwrap : NoWrap (R.run (pre ++ (x,op)::mid ++ more))) :
      ∃ own, R.view (R.run (pre ++ (x,op)::mid ++ more)) x x = some own ∧ k < own.incarnation := by
    rw [List.append_assoc,List.cons_append] at hwrap ⊢
    exact accused_outbids hwrap hop haccuses (run_open hleave) (run_free hx)
  refine ⟨by rw [List.append_assoc] at hwrap ⊢; exact hearlier hwrap,?_⟩
  set told := pre ++ (x,op)::mid ++ (x,.sendState join)::gap
  have hsplit : told ++ (y,.merge (Member.pushNodeState s) e)::post =
      told ++ [(y,.merge (Member.pushNodeState s) e)] ++ post := by simp
  rw [hsplit] at hwrap ⊢
  have hwrap₁ := hwrap.of_append
  have hwrap₀ : NoWrap (R.run (pre ++ (x,op)::mid)) := hwrap₁.of_append.of_append
  -- the number that `x` sends
  obtain ⟨own,hown,hlt⟩ := hearlier (by rwa [List.append_nil])
  rw [List.append_nil] at hown
  cases hs.symm.trans hown
  have halive : s.state = .stateAlive := (run_steady R _ x).record.alive hs (Or.inl hleave)
  -- and what `y` makes of it
  obtain ⟨hjoins,hstale⟩ := merge_joins hwrap₁.of_append hwrap₀ (e := e) hs
    (arrives_of_sent hx hs e) hy hyx.symm
  have hview : ∃ t, R.view (R.run (told ++ [(y,.merge (Member.pushNodeState s) e)])) y x = some t ∧
      k < t.incarnation := by
    by_cases hnews : number (R.view (R.run told) y x) < s.incarnation
    · rw [PushNodeState.joins,if_pos (pushNodeState_alive.mpr halive)] at hjoins
      obtain ⟨t,ht,hinc⟩ := aliveAs_eq_some (hjoins.trans (if_pos hnews))
      exact ⟨t,ht,hlt.trans_eq hinc.symm⟩
    · have hle := Nat.not_lt.mp hnews
      obtain ⟨t,ht,hinc⟩ := exists_of_number ((view_good hwrap₀ hs).2.1.trans_le hle)
      exact ⟨t,(hstale halive hle).trans ht,hlt.trans_le (hle.trans_eq hinc)⟩
  obtain ⟨t,ht,hk⟩ := hview
  obtain ⟨t',ht',hle⟩ := view_grows hwrap ht
  exact ⟨t',ht',hk.trans_le hle⟩

/-- `b` suspects `a`, and gets past that with the state that `a` sends after it has heard
of it. -/
theorem accusation_answered_burial :
    let e : Env := ⟨0,0,6,7,[],[]⟩
    let own : NodeState := ⟨⟨"a","10.0.0.1",6666⟩,2,.stateAlive,0⟩
    let suspected := burial.take 4 ++ [(false,.gossip 0 1000 false)]
    let c := pair.run (suspected ++
      (true,.suspect (genSuspectBroadcast ⟨1,"a","b"⟩) e)::[] ++ (true,.sendState false)::[] ++
      (false,.merge (Member.pushNodeState own) e)::[])
    (∃ own, pair.view c true true = some own ∧ 1 < own.incarnation) ∧
      ∃ t, pair.view c false true = some t ∧ 1 < t.incarnation := by
  intro e own suspected c
  have hwrap : NoWrap c := by
    intro i
    cases i <;> decide +kernel
  have haccuses : (((pair.run suspected).node true).heard (pair.config true)
      (.suspect (genSuspectBroadcast ⟨1,"a","b"⟩) e)).Accuses (pair.name true) 1 := ⟨rfl,rfl⟩
  exact accusation_answered pair suspected [] [] [] true false
    (.suspect (genSuspectBroadcast ⟨1,"a","b"⟩) e) 1 false own e hwrap (by decide +kernel) haccuses
    (by decide +kernel) (by decide +kernel) (by decide +kernel) (by decide) (by decide +kernel)

end Roster
end GossipMemberlist
