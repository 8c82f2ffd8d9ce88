import GossipMemberlist.Convergence
import GossipMemberlist.WireCluster

/-!
# Beliefs on the wire

What holds of members that exchange messages, whatever the order, holds of members
that exchange bytes as long as no read is refused: numbers go back to their owner,
nobody is taken for gone that has not left, the departed stay departed, records only
move up, and what is held against a silent member stays held against it.
-/

namespace GossipMemberlist
namespace Roster

variable {ι : Type*} (R : Roster ι) (ctx : Wire.Context) (partly : List UInt8 → MessageData)

def wireRun [DecidableEq ι] (evs : List (ι × Op × List UInt8)) : WireCluster ι :=
  (R.wire ctx partly).run R.wireStart evs

def AllAccepted (evs : List (ι × Op × List UInt8)) : Prop := ∀ ev ∈ evs, Accepted ctx partly ev.2.2

def WireCluster.NoWrap (c : WireCluster ι) : Prop :=
  ∀ i, (c.node i).member.incarnation.total < 2 ^ 32

/-- What the members do, without what they have read. -/
def deeds (evs : List (ι × Op × List UInt8)) : List (ι × Op) := evs.map fun ev => (ev.1,ev.2.1)

variable {R ctx partly} {evs evs' : List (ι × Op × List UInt8)} {ms : List (ι × Op)} {x y : ι}
  {s : NodeState}

theorem AllAccepted.left (h : AllAccepted ctx partly (evs ++ evs')) : AllAccepted ctx partly evs :=
  fun ev hev => h ev (List.mem_append_left _ hev)

theorem AllAccepted.right (h : AllAccepted ctx partly (evs ++ evs')) :
    AllAccepted ctx partly evs' := fun ev hev => h ev (List.mem_append_right _ hev)

theorem Mirrors.noWrap {c : WireCluster ι} {c' : Cluster ι} (h : R.Mirrors c c') (hwrap : c.NoWrap) :
    NoWrap c' := by
  intro i
  have hi := hwrap i
  rwa [h.node] at hi

variable [DecidableEq ι]

theorem wireRun_append : R.wireRun ctx partly (evs ++ evs') =
    (R.wire ctx partly).run (R.wireRun ctx partly evs) evs' := Transitions.run_append ..

/-- A run on the wire, cut in two, is a run on messages, cut in two. -/
theorem wireRun_mirrors (haccept : AllAccepted ctx partly (evs ++ evs')) :
    ∃ ms ms', ms.Sublist (deeds evs) ∧ ms'.Sublist (deeds evs') ∧
      R.Mirrors (R.wireRun ctx partly evs) (R.run ms) ∧
      R.Mirrors (R.wireRun ctx partly (evs ++ evs')) (R.run (ms ++ ms')) := by
  obtain ⟨ms,hms,hrel⟩ := (start_mirrors (R := R)).run haccept.left
  obtain ⟨ms',hms',hrel'⟩ := hrel.run haccept.right
  refine ⟨ms,ms',hms,hms',hrel,?_⟩
  rw [wireRun_append,run_append]
  exact hrel'

/-- What every step on messages keeps of a member, every run on the wire keeps. -/
theorem wire_keeps {P : Process → Prop}
    (hstep : ∀ ms ev, NoWrap (R.run (ms ++ [ev])) → P ((R.run ms).node y) →
      P ((R.network.next (R.run ms) ev).node y))
    (haccept : AllAccepted ctx partly (evs ++ evs'))
    (hwrap : (R.wireRun ctx partly (evs ++ evs')).NoWrap)
    (h : P ((R.wireRun ctx partly evs).node y)) :
    P ((R.wireRun ctx partly (evs ++ evs')).node y) := by
  obtain ⟨ms,ms',-,-,hrel,hrel'⟩ := wireRun_mirrors (R := R) haccept
  rw [hrel.node] at h
  rw [hrel'.node]
  exact run_keeps hstep (hrel'.noWrap hwrap) h

/-- Nobody's numbers are ahead of their owner's counter, on the wire neither. -/
theorem wire_bounded (haccept : AllAccepted ctx partly evs)
    (hwrap : (R.wireRun ctx partly evs).NoWrap) (x : ι) :
    let c := R.wireRun ctx partly evs
    let counter := (c.node x).member.incarnation.load
    (∀ y s, (c.node y).member.find (R.name x) = some s → s.incarnation ≤ counter) ∧
      (∀ y, ∀ e ∈ (c.node y).member.queue.tq, e.b.msg.content.Fair (R.config x) counter) ∧
      (∀ y, ∀ b ∈ (c.node y).calls, b.content.Fair (R.config x) counter) ∧
      ∀ bytes ∈ c.sent, ∃ md : MessageData, bytes = md.serialize ∧
        (∀ b ∈ md.comBroadcast.bs, b.content.Fair (R.config x) counter) ∧
        ∀ state ∈ md.pushPull.states, state.Fair (R.config x) counter := by
  intro c counter
  obtain ⟨ms,-,hrel⟩ := (start_mirrors (R := R)).run haccept
  have hrel : R.Mirrors c (R.run ms) := hrel
  have hwrap := hrel.noWrap hwrap
  have hcounter : counter = ((R.run ms).node x).member.incarnation.load := by
    rw [← hrel.node]
  rw [hrel.node,hcounter]
  refine ⟨fun y => ?_,fun y => ?_,fun y => ?_,fun bytes hbytes => ?_⟩
  · exact (run_fair R ms hwrap x y).1
  · exact (run_fair R ms hwrap x y).2.1
  · exact (run_fair R ms hwrap x y).2.2
  · obtain ⟨md,-,hmd,hbrought⟩ := hrel.sent bytes hbytes
    have hfair := sent_fair R ms hwrap x
    refine ⟨md,hmd,fun b hb => hfair _ (hbrought.broadcasts b hb),fun state hstate => ?_⟩
    obtain ⟨pkt,hpkt,hbrings⟩ := List.any_eq_true.mp (hbrought.states state hstate)
    cases pkt with
    | broadcast b => cases hbrings
    | pushPull pp => exact hfair _ hpkt state (of_decide_eq_true hbrings)

/-- On the wire nobody is taken for gone that has not called `Leave`, and nobody for dead
that no callback has declared dead. -/
theorem wire_grounded (haccept : AllAccepted ctx partly evs)
    (hwrap : (R.wireRun ctx partly evs).NoWrap)
    (hs : ((R.wireRun ctx partly evs).node y).member.find (R.name x) = some s) :
    (s.state = .stateLeft → ((R.wireRun ctx partly evs).node x).member.leave = true ∧
      (x,Op.leaveSet) ∈ deeds evs) ∧
      (s.state = .stateDead → ∃ ms, ms.Sublist (deeds evs) ∧
        (R.run ms).node = (R.wireRun ctx partly evs).node ∧
        R.Issued ms (R.name x) s.incarnation) := by
  obtain ⟨ms,hsub,hrel⟩ := (start_mirrors (R := R)).run haccept
  have hrel : R.Mirrors (R.wireRun ctx partly evs) (R.run ms) := hrel
  have hwrap := hrel.noWrap hwrap
  rw [hrel.node] at hs ⊢
  refine ⟨fun hleft => ?_,fun hdead => ⟨ms,hsub,rfl,run_dead R ms hwrap hs hdead⟩⟩
  have hleave := run_left R ms hwrap hs hleft
  exact ⟨hleave,hsub.subset (run_leave R ms x hleave)⟩

theorem wire_departed (haccept : AllAccepted ctx partly (evs ++ evs'))
    (hwrap : (R.wireRun ctx partly (evs ++ evs')).NoWrap)
    (hs : ((R.wireRun ctx partly evs).node y).member.find (R.name x) = some s)
    (hleft : s.state = .stateLeft) :
    ((R.wireRun ctx partly (evs ++ evs')).node y).member.find (R.name x) = some s :=
  wire_keeps (P := fun p => p.member.find (R.name x) = some s)
    (fun ms ev hwrap => next_departed ms ev hwrap hleft) haccept hwrap hs

/-- Records of a member stay and only move up, at one address. -/
theorem wire_ascends (haccept : AllAccepted ctx partly (evs ++ evs'))
    (hwrap : (R.wireRun ctx partly (evs ++ evs')).NoWrap)
    (hs : ((R.wireRun ctx partly evs).node y).member.find (R.name x) = some s) :
    ∃ s', ((R.wireRun ctx partly (evs ++ evs')).node y).member.find (R.name x) = some s' ∧
      s'.n = s.n ∧ s.rung ≤ s'.rung := by
  refine wire_keeps (P := fun p => ∃ s', p.member.find (R.name x) = some s' ∧ s'.n = s.n ∧
    s.rung ≤ s'.rung) ?_ haccept hwrap ⟨s,hs,rfl,le_refl _⟩
  rintro ms ev hwrap ⟨t,ht,hn,hle⟩
  obtain ⟨t',ht',hn',hadv⟩ := next_ascends (R := R) (x := x) hwrap ht
  exact ⟨t',ht',hn'.trans hn,hle.trans hadv.rung⟩

/-- What is held against a member that no longer steps stays held against it. -/
theorem wire_accused {k : ℕ} (haccept : AllAccepted ctx partly (evs ++ evs'))
    (hwrap : (R.wireRun ctx partly (evs ++ evs')).NoWrap) (hsilent : ∀ ev ∈ evs', ev.1 ≠ x)
    (hk : (((R.wireRun ctx partly evs).node x).member.find (R.name x)).elim 0 (·.incarnation) ≤ k)
    (h : HeldAgainst k (((R.wireRun ctx partly evs).node y).member.find (R.name x))) :
    HeldAgainst k (((R.wireRun ctx partly (evs ++ evs')).node y).member.find (R.name x)) := by
  obtain ⟨ms,ms',-,hsub,hrel,hrel'⟩ := wireRun_mirrors (R := R) haccept
  have hquiet : Silent x ms' := by
    intro ev hev
    obtain ⟨ev',hev',rfl⟩ := List.mem_map.mp (hsub.subset hev)
    exact hsilent ev' hev'
  rw [hrel.node] at hk h
  rw [hrel'.node]
  exact accused_keeps hquiet (hrel'.noWrap hwrap) hk h

end Roster
end GossipMemberlist
