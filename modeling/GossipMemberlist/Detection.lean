import GossipMemberlist.Convergence

/-!
# Failed probes

A probe that fails makes the prober suspect its target, unless it holds worse against it
already. If the target is silent, nothing takes that back.
-/

namespace GossipMemberlist
namespace Roster

variable {ι : Type*} [DecidableEq ι] {R : Roster ι} {evs : List (ι × Op)} {x y : ι}

/-- A node that is being probed is on record, under the number that was seen or a later one. -/
theorem probing_known (hwrap : NoWrap (R.run evs)) {node : NodeState}
    (h : node ∈ ((R.run evs).node y).probing) (hname : node.n.name = R.name x) :
    ∃ s, R.view (R.run evs) y x = some s ∧ node.incarnation ≤ s.incarnation := by
  induction evs using List.reverseRecOn with
  | nil => cases h
  | append_singleton evs ev ih =>
    have hstays {s : NodeState} (hs : R.view (R.run evs) y x = some s)
        (hle : node.incarnation ≤ s.incarnation) :
        ∃ s', R.view (R.run (evs ++ [ev])) y x = some s' ∧ node.incarnation ≤ s'.incarnation := by
      obtain ⟨s',hs',hle'⟩ := view_grows hwrap hs
      exact ⟨s',hs',hle.trans hle'⟩
    have hold (h : node ∈ ((R.run evs).node y).probing) :
        ∃ s', R.view (R.run (evs ++ [ev])) y x = some s' ∧ node.incarnation ≤ s'.incarnation := by
      obtain ⟨s,hs,hle⟩ := ih hwrap.of_snoc h
      exact hstays hs hle
    rw [run_snoc] at h
    rcases R.next_node (R.run evs) ev y with hn | ⟨-,hn⟩
    · rw [hn] at h
      exact hold h
    · rw [hn] at h
      rcases (Process.next_carries (R.config y) R.floats _ ev.2).probing node h with h | ⟨n,hs⟩
      · exact hold h
      · obtain rfl : n = R.name x := (Table.find_name hs).symm.trans hname
        exact hstays hs (le_refl _)

/-- A failed probe under a silent member's last number is held against it. -/
theorem probeFail_held (hyx : y ≠ x) {node : NodeState} {e : Env}
    (hwrap : NoWrap (R.run (evs ++ [(y,.probeFail node e)])))
    (hnode : node ∈ ((R.run evs).node y).probing) (hname : node.n.name = R.name x)
    (hlast : R.ownInc (R.run evs) x ≤ node.incarnation)
    (hfree : ((R.run evs).node y).member.deadlocked = false) :
    HeldAgainst node.incarnation (R.view (R.run (evs ++ [(y,.probeFail node e)])) y x) := by
  have hwrap₀ := hwrap.of_snoc
  obtain ⟨s,hs,hseen⟩ := probing_known hwrap₀ hnode hname
  have hinc : s.incarnation = node.incarnation :=
    Nat.le_antisymm ((view_good hwrap₀ hs).2.2.1.trans hlast) hseen
  by_cases halive : s.state = .stateAlive
  · have hsettled := run_settled R evs y
    have haccuses : (((R.run evs).node y).heard (R.config y) (.probeFail node e)).Accuses
        (R.name x) node.incarnation := by
      simp only [Process.heard,hnode,hfree,and_self,if_true]
      exact ⟨hname,rfl⟩
    rw [view,run_self rfl]
    exact Process.next_accused hsettled hfree haccuses (fun h => hyx (R.distinct h.symm)) hs halive
      hinc.le
  · exact accused_keeps (silent_singleton hyx _) hwrap hlast ⟨s,hs,hinc,halive⟩

/-- A failed probe of a silent member is not taken back: whatever comes after it, the prober
holds the target suspect or worse. -/
theorem failed_probe_held (R : Roster ι) (pre mid : List (ι × Op)) (x y : ι) (node : NodeState)
    (e : Env) (hwrap : NoWrap (R.run (pre ++ (y,.probeFail node e)::mid)))
    (hsilent : Silent x ((y,.probeFail node e)::mid))
    (hnode : node ∈ ((R.run pre).node y).probing) (hname : node.n.name = R.name x)
    (hlast : R.ownInc (R.run pre) x ≤ node.incarnation)
    (hfree : ((R.run pre).node y).member.deadlocked = false) :
    HeldAgainst node.incarnation (R.view (R.run (pre ++ (y,.probeFail node e)::mid)) y x) := by
  have hyx : y ≠ x := hsilent (y,.probeFail node e) List.mem_cons_self
  have hmid : Silent x mid := fun ev hev => hsilent ev (List.mem_cons_of_mem _ hev)
  rw [List.append_cons] at hwrap ⊢
  have hk : R.ownInc (R.run (pre ++ [(y,.probeFail node e)])) x ≤ node.incarnation := by
    rwa [ownInc_silent (silent_singleton hyx _)]
  exact accused_keeps hmid hwrap hk (probeFail_held hyx hwrap.of_append hnode hname hlast hfree)

/-- A gossip round comes after the failed probe. -/
theorem failed_probe_held_gossip :
    HeldAgainst 1 (pair.view (pair.run (burial.take 3 ++
      [(false,.probeFail ⟨⟨"a","10.0.0.1",6666⟩,1,.stateAlive,1⟩ ⟨0,0,2,3,[],[]⟩),
        (false,.gossip 0 1000 false)])) false true) :=
  failed_probe_held pair (burial.take 3) [(false,.gossip 0 1000 false)] true false
    ⟨⟨"a","10.0.0.1",6666⟩,1,.stateAlive,1⟩ ⟨0,0,2,3,[],[]⟩ (fun i => by cases i <;> decide +kernel)
    (by decide +kernel) (by decide +kernel) rfl (by decide +kernel) (by decide +kernel)

end Roster
end GossipMemberlist
