import GossipMemberlist.Refutation
import Mathlib.Algebra.Group.Action.Defs
import Mathlib.Algebra.Order.BigOperators.Group.Finset

/-!
# How a cluster comes to agree

An exchange that finds its two parties of different minds about a third member moves at
least one of them up, and there is no way down. So only so many exchanges can find their
parties of different minds, whatever happens between and during them. And what is known
against a silent member goes on from state to state: everybody who takes it for alive
believes it, and nobody takes it back.
-/

namespace GossipMemberlist

/-- How far a record has come; a name without one is at the bottom. -/
def height (r : Option NodeState) : ℕ := r.elim 0 (·.rung)

variable {cfg : Config} {fl : Floats}

/-- The record says that its node is suspect, dead or gone under the number `k`. -/
def HeldAgainst (k : ℕ) (r : Option NodeState) : Prop :=
  ∃ s, r = some s ∧ s.incarnation = k ∧ s.state ≠ .stateAlive

theorem NodeState.rung_inj {s s' : NodeState} (h : s.rung = s'.rung) :
    s.incarnation = s'.incarnation ∧ (s.state = .stateAlive ↔ s'.state = .stateAlive) := by
  have hrank := rank_le s.state
  have hrank' := rank_le s'.state
  simp only [rung] at h
  have hinc : s.incarnation = s'.incarnation := by omega
  have hstate : s.state.rank = s'.state.rank := by omega
  refine ⟨hinc,?_⟩
  revert hstate
  cases s.state <;> cases s'.state <;> decide

theorem level_of_height {r r' : Option NodeState} (hr : ∀ s ∈ r, 0 < s.incarnation)
    (hr' : ∀ s ∈ r', 0 < s.incarnation) (h : height r = height r') :
    number r = number r' ∧ aliveAs r = aliveAs r' := by
  have hpos {s : NodeState} (hs : 0 < s.incarnation) : s.rung ≠ 0 := by
    simp only [NodeState.rung]
    omega
  cases r with
  | none =>
    cases r' with
    | none => exact ⟨rfl,rfl⟩
    | some s' => exact absurd h.symm (hpos (hr' s' rfl))
  | some s =>
    cases r' with
    | none => exact absurd h (hpos (hr s rfl))
    | some s' =>
      obtain ⟨hinc,hstate⟩ := NodeState.rung_inj (show s.rung = s'.rung from h)
      exact ⟨hinc,by simp only [aliveAs,Option.bind_some,hinc,hstate]⟩

theorem joins_congr {s s' : NodeState} (h : s.rung = s'.rung) {r r' : Option NodeState}
    (hr : number r = number r' ∧ aliveAs r = aliveAs r') :
    (Member.pushNodeState s).joins r = (Member.pushNodeState s').joins r' := by
  obtain ⟨hinc,hstate⟩ := NodeState.rung_inj h
  have hinc' (s : NodeState) : (Member.pushNodeState s).incarnation = s.incarnation := rfl
  simp only [PushNodeState.joins,pushNodeState_alive,hinc',hinc,hstate,hr.1,hr.2]

namespace Member

/-- An accusation of somebody else who is taken for alive is believed. -/
theorem suspectNode_accused (fl : Floats) {m : Member} (hm : m.Settled cfg)
    (hd : m.deadlocked = false) {b : Broadcast} (hb : b.suspect.node ≠ cfg.name) {s : NodeState}
    (hs : m.find b.suspect.node = some s) (halive : s.state = .stateAlive)
    (hle : s.incarnation ≤ b.suspect.incarnation) (e : Env) :
    HeldAgainst b.suspect.incarnation ((m.suspectNode cfg fl e b).find b.suspect.node) := by
  have h : SuspectExit cfg fl e b.suspect m _ := suspectNode_exit m e b
  generalize m.suspectNode cfg fl e b = m' at h ⊢
  have hsame {r : ℕ} (hr : m.table.nodeMap b.suspect.node = some r) : m.table.heap r = s :=
    Option.some.inj ((Table.find_eq hr).symm.trans hs)
  cases h with
  | blocked h => cases hd.symm.trans h
  | unknown _ hnone => cases (Table.find_eq_none.mpr hnone).symm.trans hs
  | stale _ hr hlt => exact absurd hle (Nat.not_le.mpr (hsame hr ▸ hlt))
  | @confirmed r t _ hr _ ht =>
    obtain ⟨-,s',hs',hsuspect,-⟩ := (hm.timed b.suspect.node).episode t ht
    cases hs.symm.trans hs'
    cases halive.symm.trans hsuspect
  | settled _ hr _ _ hstate => exact absurd (hsame hr ▸ halive) hstate
  | refuted _ _ h => exact absurd h hb
  | suspected _ hr =>
    exact ⟨_,(startSuspicion_cell cfg fl hm.queue hr e).1.record_eq,rfl,nofun⟩

theorem deadNode_accused {m : Member} (hm : m.Sound cfg) (hd : m.deadlocked = false)
    {b : Broadcast} (hb : b.dead.node ≠ cfg.name) {s : NodeState}
    (hs : m.find b.dead.node = some s) (halive : s.state = .stateAlive)
    (hle : s.incarnation ≤ b.dead.incarnation) (e : Env) :
    HeldAgainst b.dead.incarnation ((m.deadNode cfg e b).find b.dead.node) := by
  have h : DeadExit cfg e b.dead m _ := deadNode_exit m e b
  generalize m.deadNode cfg e b = m' at h ⊢
  have hsame {r : ℕ} (hr : m.table.nodeMap b.dead.node = some r) : m.table.heap r = s :=
    Option.some.inj ((Table.find_eq hr).symm.trans hs)
  cases h with
  | blocked h => cases hd.symm.trans h
  | unknown _ hnone => cases (Table.find_eq_none.mpr hnone).symm.trans hs
  | stale _ hr hlt => exact absurd hle (Nat.not_le.mpr (hsame hr ▸ hlt))
  | settled _ hr _ hdead =>
    rw [hsame hr] at hdead
    simp [NodeState.deadOrLeft,halive] at hdead
  | refuted _ _ h => exact absurd h hb
  | buried _ hr =>
    refine ⟨_,(acceptDead_cell hm.queue hr e _).1.record_eq,rfl,?_⟩
    simp only [deadRecord]
    split <;> decide

end Member

theorem heard_accuses (cfg : Config) {s : NodeState} {k : ℕ} (hinc : s.incarnation = k)
    (hstate : s.state ≠ .stateAlive) (p : Process) (e : Env) :
    (p.heard cfg (.merge (Member.pushNodeState s) e)).Accuses s.n.name k := by
  cases hs : s.state with
  | stateAlive => exact absurd hs hstate
  | _ =>
    simp only [Process.heard,PushNodeState.heard,Member.pushNodeState,hs]
    exact ⟨rfl,hinc⟩

theorem Process.next_accused {p : Process} {op : Op} {n : String} {k : ℕ} {s : NodeState}
    (hp : p.member.Settled cfg) (hfree : p.member.deadlocked = false)
    (hop : (p.heard cfg op).Accuses n k) (hn : n ≠ cfg.name) (hs : p.member.find n = some s)
    (halive : s.state = .stateAlive) (hle : s.incarnation ≤ k) :
    HeldAgainst k ((p.next cfg fl op).member.find n) := by
  cases hheard : p.heard cfg op with
  | alive | nothing =>
    rw [hheard] at hop
    cases hop
  | suspect a e =>
    rw [hheard] at hop
    obtain ⟨rfl,rfl⟩ := hop
    rw [next_suspect fl hheard]
    exact Member.suspectNode_accused fl hp hfree (b := genSuspectBroadcast a) hn hs halive hle e
  | dead d e =>
    rw [hheard] at hop
    obtain ⟨rfl,rfl⟩ := hop
    rw [next_dead fl hheard]
    exact Member.deadNode_accused hp.toSound hfree (b := genDeadBroadcast d) hn hs halive hle e

namespace Roster

/-- Two members that exchange their states during `events`, some time after the last such
exchange. -/
structure Round (ι : Type*) where
  gap : List (ι × Op)
  left : ι
  right : ι
  events : List (ι × Op)

def Round.all {ι : Type*} (r : Round ι) : List (ι × Op) := r.gap ++ r.events

variable {ι : Type*} [DecidableEq ι] (R : Roster ι)

def play (c : Cluster ι) (r : Round ι) : Cluster ι := R.network.run c r.all

def disagree (x : ι) (c : Cluster ι) (r : Round ι) : Bool :=
  aliveAs (R.view (R.network.run c r.gap) r.left x) ≠
    aliveAs (R.view (R.network.run c r.gap) r.right x)

/-- During `events` `y` sends its state and `z` takes in every entry of it. -/
def Tells (c : Cluster ι) (y z : ι) (events : List (ι × Op)) : Prop :=
  ∃ pre join rest, events = pre ++ (y,.sendState join)::rest ∧
    ∀ st ∈ (((R.network.run c pre).node y).member.sendLocalState join).states, ∃ mid e post,
      rest = mid ++ (z,.merge st e)::post

/-- Each party takes in the state of the other, and whatever else it meets meanwhile. -/
def Round.Exchanges (c : Cluster ι) (r : Round ι) : Prop :=
  R.Tells (R.network.run c r.gap) r.left r.right r.events ∧
    R.Tells (R.network.run c r.gap) r.right r.left r.events

variable {R} {evs evs' : List (ι × Op)} {x y z : ι}

theorem next_climbs {ev : ι × Op} (hwrap : NoWrap (R.run (evs ++ [ev]))) (y x : ι) :
    aliveAs (R.view (R.run (evs ++ [ev])) y x) = aliveAs (R.view (R.run evs) y x) ∧
        height (R.view (R.run evs) y x) ≤ height (R.view (R.run (evs ++ [ev])) y x) ∨
      height (R.view (R.run evs) y x) < height (R.view (R.run (evs ++ [ev])) y x) := by
  cases hs : R.view (R.run evs) y x with
  | none =>
    cases hs' : R.view (R.run (evs ++ [ev])) y x with
    | none => exact Or.inl ⟨rfl,le_refl _⟩
    | some s' =>
      have hpos := (view_good hwrap hs').2.1
      refine Or.inr ?_
      simp only [height,Option.elim,NodeState.rung]
      omega
  | some s =>
    obtain ⟨s',hs',-,hadv⟩ := next_ascends (R := R) hwrap hs
    have hview : R.view (R.run (evs ++ [ev])) y x = some s' := by
      rw [view,run_snoc]
      exact hs'
    rw [hview]
    by_cases hsame : s'.incarnation ≠ s.incarnation ∨ s'.state ≠ s.state
    · exact Or.inr (NodeState.rung_lt (hadv.lt hsame))
    · obtain ⟨hinc,hstate⟩ := not_or.mp hsame
      refine Or.inl ⟨?_,hadv.rung⟩
      simp only [aliveAs,Option.bind_some,not_not.mp hinc,not_not.mp hstate]

/-- A member changes its mind only upwards. -/
theorem view_climbs (hwrap : NoWrap (R.run (evs ++ evs'))) (y x : ι) :
    aliveAs (R.view (R.run (evs ++ evs')) y x) = aliveAs (R.view (R.run evs) y x) ∧
        height (R.view (R.run evs) y x) ≤ height (R.view (R.run (evs ++ evs')) y x) ∨
      height (R.view (R.run evs) y x) < height (R.view (R.run (evs ++ evs')) y x) := by
  induction evs' using List.reverseRecOn with
  | nil => exact Or.inl (by simp)
  | append_singleton evs' ev ih =>
    rw [← List.append_assoc] at hwrap ⊢
    rcases next_climbs hwrap y x with ⟨hsame,hle⟩ | hlt
    · rcases ih hwrap.of_snoc with ⟨hsame',hle'⟩ | hlt'
      · exact Or.inl ⟨hsame.trans hsame',hle'.trans hle⟩
      · exact Or.inr (hlt'.trans_le hle)
    · rcases ih hwrap.of_snoc with ⟨-,hle'⟩ | hlt'
      · exact Or.inr (hle'.trans_lt hlt)
      · exact Or.inr (hlt'.trans hlt)

theorem height_mono (hwrap : NoWrap (R.run (evs ++ evs'))) (y x : ι) :
    height (R.view (R.run evs) y x) ≤ height (R.view (R.run (evs ++ evs')) y x) := by
  rcases view_climbs hwrap y x with ⟨-,hle⟩ | hlt
  · exact hle
  · exact hlt.le

theorem height_le (hwrap : NoWrap (R.run evs)) (y x : ι) :
    height (R.view (R.run evs) y x) ≤ 3 * R.ownInc (R.run evs) x + 2 := by
  cases hs : R.view (R.run evs) y x with
  | none => exact Nat.zero_le _
  | some s => exact NodeState.rung_le (view_good hwrap hs).2.2.1

theorem view_level {evs₁ evs₂ : List (ι × Op)} (hwrap₁ : NoWrap (R.run evs₁))
    (hwrap₂ : NoWrap (R.run evs₂))
    (h : height (R.view (R.run evs₁) y x) = height (R.view (R.run evs₂) y x)) :
    number (R.view (R.run evs₁) y x) = number (R.view (R.run evs₂) y x) ∧
      aliveAs (R.view (R.run evs₁) y x) = aliveAs (R.view (R.run evs₂) y x) :=
  level_of_height (fun _ hs => (view_good hwrap₁ hs).2.1) (fun _ hs => (view_good hwrap₂ hs).2.1) h

theorem height_between {mid : List (ι × Op)} (hmid : mid <+: evs')
    (hwrap : NoWrap (R.run (evs ++ evs')))
    (h : height (R.view (R.run (evs ++ evs')) y x) = height (R.view (R.run evs) y x)) :
    NoWrap (R.run (evs ++ mid)) ∧
      height (R.view (R.run (evs ++ mid)) y x) = height (R.view (R.run evs) y x) := by
  obtain ⟨post,rfl⟩ := hmid
  rw [← List.append_assoc] at hwrap h
  refine ⟨hwrap.of_append,Nat.le_antisymm ?_ (height_mono hwrap.of_append y x)⟩
  exact (height_mono hwrap y x).trans_eq h

theorem Tells.level (h : R.Tells (R.run evs) y z evs') (hwrap : NoWrap (R.run (evs ++ evs')))
    (hy : ((R.run (evs ++ evs')).node y).member.deadlocked = false)
    (hz : ((R.run (evs ++ evs')).node z).member.deadlocked = false) (hxz : x ≠ z)
    (hly : height (R.view (R.run (evs ++ evs')) y x) = height (R.view (R.run evs) y x))
    (hlz : height (R.view (R.run (evs ++ evs')) z x) = height (R.view (R.run evs) z x))
    {s : NodeState} (hs : R.view (R.run evs) y x = some s) :
    (Member.pushNodeState s).joins (R.view (R.run evs) z x) =
      aliveAs (R.view (R.run evs) z x) := by
  obtain ⟨pre,join,rest,rfl,htakes⟩ := h
  have hwrap₀ := hwrap.of_append
  have hpos := (view_good hwrap₀ hs).2.1
  -- the record that `y` sends is no higher than the one it begins with
  obtain ⟨hwrap₁,hpre⟩ := height_between (List.prefix_append ..) hwrap hly
  obtain ⟨s',hs'⟩ : ∃ s', R.view (R.run (evs ++ pre)) y x = some s' := by
    cases hview : R.view (R.run (evs ++ pre)) y x with
    | none =>
      rw [hview,hs] at hpre
      have hzero : 0 = s.rung := hpre
      simp only [NodeState.rung] at hzero
      omega
    | some s' => exact ⟨s',rfl⟩
  have hrung : s'.rung = s.rung := by
    rw [hs',hs] at hpre
    exact hpre
  have hfree : ((R.run (evs ++ pre)).node y).member.deadlocked = false := by
    rw [← List.append_assoc] at hy
    exact run_free hy
  rw [← run_append] at htakes
  obtain ⟨mid,e,post,rfl⟩ := htakes _ (Member.mem_sendLocalState hs' join)
  -- and `z` stands where it stood, before it takes the entry in and after that
  let sent := pre ++ (y,Op.sendState join)::mid
  let merged := sent ++ [(z,Op.merge (Member.pushNodeState s') e)]
  have hall : pre ++ (y,Op.sendState join)::(mid ++ (z,.merge (Member.pushNodeState s') e)::post) =
      merged ++ post := by
    simp [merged,sent]
  rw [hall] at hwrap hlz hz
  obtain ⟨hwrap₂,hsent⟩ := height_between
    ((List.prefix_append sent _).trans (List.prefix_append merged post)) hwrap hlz
  obtain ⟨hwrap₃,hmerged⟩ := height_between (List.prefix_append merged post) hwrap hlz
  have hfree' : ((R.run (evs ++ sent)).node z).member.deadlocked = false := by
    rw [show evs ++ (merged ++ post) = (evs ++ sent) ++ _ by simp [merged]; rfl] at hz
    exact run_free hz
  have harrives : (Op.merge (Member.pushNodeState s') e).arrives
      (R.run (evs ++ pre ++ (y,.sendState join)::mid)).sent = true := arrives_of_sent hfree hs' e
  rw [List.append_assoc] at harrives
  have hjoins := (merge_joins hwrap₂ hwrap₁ (e := e) hs' harrives hfree' hxz).1
  rw [List.append_assoc] at hjoins
  rw [← joins_congr hrung (view_level hwrap₂ hwrap₀ hsent),← hjoins]
  exact (view_level hwrap₃ hwrap₀ hmerged).2

/-- An exchange between two minds moves one of them. -/
theorem exchange_climbs {evs' : List (ι × Op)} (hwrap : NoWrap (R.run (evs ++ evs')))
    (hyz : R.Tells (R.run evs) y z evs') (hzy : R.Tells (R.run evs) z y evs')
    (hy : ((R.run (evs ++ evs')).node y).member.deadlocked = false)
    (hz : ((R.run (evs ++ evs')).node z).member.deadlocked = false) (hxy : x ≠ y) (hxz : x ≠ z)
    (hne : aliveAs (R.view (R.run evs) y x) ≠ aliveAs (R.view (R.run evs) z x)) :
    height (R.view (R.run evs) y x) < height (R.view (R.run (evs ++ evs')) y x) ∨
      height (R.view (R.run evs) z x) < height (R.view (R.run (evs ++ evs')) z x) := by
  by_contra hnot
  obtain ⟨hly,hlz⟩ := not_or.mp hnot
  have hly := (height_mono hwrap y x).antisymm' (Nat.not_lt.mp hly)
  have hlz := (height_mono hwrap z x).antisymm' (Nat.not_lt.mp hlz)
  have hwrap₀ := hwrap.of_append
  have htells {s : NodeState} (hs : R.view (R.run evs) y x = some s) :=
    hyz.level hwrap hy hz hxz hly hlz hs
  have htells' {s : NodeState} (hs : R.view (R.run evs) z x = some s) :=
    hzy.level hwrap hz hy hxy hlz hly hs
  refine hne ?_
  cases hview : R.view (R.run evs) y x with
  | none =>
    cases hview' : R.view (R.run evs) z x with
    | none => rfl
    | some s' =>
      have h := htells' hview'
      rw [hview,joins_none (view_good hwrap₀ hview').2.1] at h
      exact h.symm
  | some s =>
    have h := htells hview
    cases hview' : R.view (R.run evs) z x with
    | none =>
      rw [hview',joins_none (view_good hwrap₀ hview).2.1] at h
      exact h
    | some s' =>
      have h' := htells' hview'
      rw [hview] at h'
      rw [hview'] at h
      rw [← h,← h',joins_comm]

/-- So a round that finds its parties of different minds lifts the members on the whole. -/
theorem Round.Exchanges.climbs {r : Round ι} {S : Finset ι} (h : r.Exchanges R (R.run evs))
    (hwrap : NoWrap (R.run (evs ++ r.all)))
    (hfree : ∀ y ∈ S, ((R.run (evs ++ r.all)).node y).member.deadlocked = false)
    (hleft : r.left ∈ S) (hright : r.right ∈ S) (hx : x ∉ S) :
    (R.disagree x (R.run evs) r).toNat + ∑ y ∈ S, height (R.view (R.run evs) y x) ≤
      ∑ y ∈ S, height (R.view (R.run (evs ++ r.all)) y x) := by
  rw [Round.all,← List.append_assoc] at hwrap hfree ⊢
  have hgap : ∑ y ∈ S, height (R.view (R.run evs) y x) ≤
      ∑ y ∈ S, height (R.view (R.run (evs ++ r.gap)) y x) :=
    Finset.sum_le_sum fun y _ => height_mono hwrap.of_append y x
  have hle : ∀ y ∈ S, height (R.view (R.run (evs ++ r.gap)) y x) ≤
      height (R.view (R.run (evs ++ r.gap ++ r.events)) y x) := fun y _ => height_mono hwrap y x
  rw [Exchanges,← run_append] at h
  by_cases hd : R.disagree x (R.run evs) r = true
  · have hne := of_decide_eq_true hd
    rw [← run_append] at hne
    have hlt : ∃ y ∈ S, height (R.view (R.run (evs ++ r.gap)) y x) <
        height (R.view (R.run (evs ++ r.gap ++ r.events)) y x) := by
      rcases exchange_climbs hwrap h.1 h.2 (hfree _ hleft) (hfree _ hright)
        (ne_of_mem_of_not_mem hleft hx).symm (ne_of_mem_of_not_mem hright hx).symm hne with hl | hr
      · exact ⟨_,hleft,hl⟩
      · exact ⟨_,hright,hr⟩
    have hsum := Finset.sum_lt_sum hle hlt
    rw [hd,Bool.toNat_true]
    omega
  · rw [Bool.not_eq_true] at hd
    rw [hd,Bool.toNat_false,Nat.zero_add]
    exact hgap.trans (Finset.sum_le_sum hle)

/-- The exchanges of a run that find their parties of different minds about a third member
are no more than the steps that the others can still go up about it. -/
theorem disagreements_bounded (R : Roster ι) (evs : List (ι × Op)) (rounds : List (Round ι))
    (S : Finset ι) (x : ι) (hx : x ∉ S)
    (hwrap : NoWrap (R.run (evs ++ rounds.flatMap Round.all)))
    (hrounds : Transitions.Along R.play (fun c r => (r.left ∈ S ∧ r.right ∈ S) ∧
      r.Exchanges R c) (R.run evs) rounds)
    (hfree : ∀ y ∈ S,
      ((R.run (evs ++ rounds.flatMap Round.all)).node y).member.deadlocked = false) :
    Transitions.tally R.play (R.disagree x) (R.run evs) rounds +
        ∑ y ∈ S, height (R.view (R.run evs) y x) ≤
      S.card * (3 * R.ownInc (R.run (evs ++ rounds.flatMap Round.all)) x + 2) := by
  induction rounds generalizing evs with
  | nil =>
    rw [List.flatMap_nil,List.append_nil] at hwrap ⊢
    rw [Transitions.tally_nil,Nat.zero_add,← smul_eq_mul]
    exact Finset.sum_le_card_nsmul S _ _ fun y _ => height_le hwrap y x
  | cons r rounds ih =>
    obtain ⟨⟨⟨hleft,hright⟩,hexchange⟩,hrest⟩ := hrounds
    rw [List.flatMap_cons,← List.append_assoc] at hwrap hfree ⊢
    have hplay : R.play (R.run evs) r = R.run (evs ++ r.all) := (run_append R evs _).symm
    have hclimbs := hexchange.climbs hwrap.of_append (fun y hy => run_free (hfree y hy)) hleft
      hright hx
    have hbound := ih (evs ++ r.all) hwrap (hplay ▸ hrest) hfree
    rw [← hplay] at hbound hclimbs
    rw [Transitions.tally]
    omega

/-- `a` has heard of `c` and `b` has not: an exchange, in which they also gossip, finds them of
different minds. -/
theorem disagreements_bounded_newcomer :
    let e : Env := ⟨0,0,2,3,[],[]⟩
    let joined : List (Fin 3 × Op) := [(2,.sendState true),
      (0,.merge ⟨"c","10.0.0.3",6666,1,.stateAlive⟩ ⟨0,0,0,1,[],[]⟩)]
    let round : Round (Fin 3) := ⟨[(0,.gossip 0 1000 false)],0,1,[(0,.sendState false),
      (1,.sendState false),(1,.gossip 0 1000 false),
      (1,.merge ⟨"c","10.0.0.3",6666,1,.stateAlive⟩ e),
      (0,.merge ⟨"b","10.0.0.2",6666,1,.stateAlive⟩ e),(0,.gossip 0 1000 false),
      (1,.merge ⟨"a","10.0.0.1",6666,1,.stateAlive⟩ e)]⟩
    trio.disagree 2 (trio.run joined) round = true ∧
      Transitions.tally trio.play (trio.disagree 2) (trio.run joined) [round] +
          ∑ y ∈ ({0,1} : Finset (Fin 3)), height (trio.view (trio.run joined) y 2) ≤
        ({0,1} : Finset (Fin 3)).card *
          (3 * trio.ownInc (trio.run (joined ++ [round].flatMap Round.all)) 2 + 2) := by
  intro e joined round
  let c := trio.network.run (trio.run joined) round.gap
  have ha : ((c.node 0).member.sendLocalState false).states =
      [⟨"c","10.0.0.3",6666,1,.stateAlive⟩,⟨"a","10.0.0.1",6666,1,.stateAlive⟩] := by
    decide +kernel
  have hb : (((trio.network.run c [(0,.sendState false)]).node 1).member.sendLocalState false).states =
      [⟨"b","10.0.0.2",6666,1,.stateAlive⟩] := by decide +kernel
  have hexchange : round.Exchanges trio (trio.run joined) := by
    refine ⟨⟨[],false,round.events.tail,rfl,fun st hst => ?_⟩,
      ⟨[(0,.sendState false)],false,round.events.tail.tail,rfl,fun st hst => ?_⟩⟩
    · have hst : st ∈ ((c.node 0).member.sendLocalState false).states := hst
      rw [ha] at hst
      simp only [List.mem_cons,List.not_mem_nil,or_false] at hst
      rcases hst with rfl | rfl
      · exact ⟨[(1,.sendState false),(1,.gossip 0 1000 false)],e,_,rfl⟩
      · exact ⟨[(1,.sendState false),(1,.gossip 0 1000 false),_,_,_],e,[],rfl⟩
    · rw [hb] at hst
      cases List.mem_singleton.mp hst
      exact ⟨[(1,.gossip 0 1000 false),_],e,_,rfl⟩
  exact ⟨by decide +kernel,disagreements_bounded trio joined [round] {0,1} 2 (by decide)
    (by unfold NoWrap; decide +kernel) ⟨⟨by decide,hexchange⟩,trivial⟩ (by decide +kernel)⟩

/-- A member sends its state, its record of `x` among it, and the receiver takes that in. -/
structure Hop (ι : Type*) where
  before : List (ι × Op)
  join : Bool
  gap : List (ι × Op)
  receiver : ι
  record : NodeState
  env : Env

def Hop.sending (y : ι) (h : Hop ι) : List (ι × Op) := h.before ++ (y,.sendState h.join)::h.gap

def Hop.events (y : ι) (h : Hop ι) : List (ι × Op) :=
  h.sending y ++ [(h.receiver,.merge (Member.pushNodeState h.record) h.env)]

def pass (R : Roster ι) (s : Cluster ι × ι) (h : Hop ι) : Cluster ι × ι :=
  (R.network.run s.1 (h.events s.2),h.receiver)

def route (y : ι) : List (Hop ι) → List (ι × Op)
  | [] => []
  | h::hops => h.events y ++ route h.receiver hops

/-- During the hop `x` is silent; whoever takes in the entry has `x` for alive until then. -/
structure Hop.Carries (R : Roster ι) (x : ι) (s : Cluster ι × ι) (h : Hop ι) : Prop where
  silent : Silent x (h.events s.2)
  record : R.view (R.network.run s.1 h.before) s.2 x = some h.record
  sends : ((R.network.run s.1 h.before).node s.2).member.deadlocked = false
  takes : ((R.network.run s.1 (h.sending s.2)).node h.receiver).member.deadlocked = false
  alive : aliveAs (R.view (R.network.run s.1 (h.sending s.2)) h.receiver x) ≠ none

theorem route_silent {c : Cluster ι} {hops : List (Hop ι)}
    (h : Transitions.Along R.pass (fun s h => h.Carries R x s) (c,y) hops) :
    Silent x (route y hops) := by
  induction hops generalizing c y with
  | nil => exact fun ev hev => absurd hev List.not_mem_nil
  | cons hop hops ih =>
    intro ev hev
    rcases List.mem_append.mp hev with hev | hev
    · exact h.1.silent ev hev
    · exact ih h.2 ev hev

theorem accused_keeps {k : ℕ} (hsilent : Silent x evs') (hwrap : NoWrap (R.run (evs ++ evs')))
    (hk : R.ownInc (R.run evs) x ≤ k) (h : HeldAgainst k (R.view (R.run evs) y x)) :
    HeldAgainst k (R.view (R.run (evs ++ evs')) y x) := by
  refine silent_keeps (P := fun p => HeldAgainst k (p.member.find (R.name x))) ?_ hsilent hwrap hk h
  rintro evs ev hwrap hev hk ⟨s,hs,rfl,hstate⟩
  obtain ⟨s',hs',hinc,rfl | ⟨halive,-⟩ | hdead⟩ := next_last hwrap hev hs hk
  · exact ⟨s',hs',rfl,hstate⟩
  · exact absurd halive hstate
  · refine ⟨s',hs',hinc,fun halive => ?_⟩
    simp [NodeState.deadOrLeft,halive] at hdead

/-- Whoever takes `x` for alive believes the news. -/
theorem Hop.Carries.accused {h : Hop ι} {k : ℕ} (hcarries : h.Carries R x (R.run evs,y))
    (hwrap : NoWrap (R.run (evs ++ h.events y))) (hk : R.ownInc (R.run evs) x ≤ k)
    (hy : HeldAgainst k (R.view (R.run evs) y x)) :
    HeldAgainst k (R.view (R.run (evs ++ h.events y)) h.receiver x) := by
  obtain ⟨hsilent,hrecord,hsends,htakes,halive⟩ := hcarries
  rw [← run_append] at hrecord hsends htakes halive
  rw [events,← List.append_assoc] at hwrap ⊢
  have hsilent₁ : Silent x (h.sending y) := fun ev hev => hsilent ev (List.mem_append_left _ hev)
  have hsilent₀ : Silent x h.before := fun ev hev => hsilent₁ ev (List.mem_append_left _ hev)
  have hother : h.receiver ≠ x := hsilent _ (List.mem_append_right _ List.mem_cons_self)
  -- what `y` sends is the news
  have hwrap₁ := hwrap.of_append
  have hwrap₀ : NoWrap (R.run (evs ++ h.before)) := by
    rw [sending,← List.append_assoc] at hwrap₁
    exact hwrap₁.of_append
  obtain ⟨s,hs,hinc,hstate⟩ := accused_keeps hsilent₀ hwrap₀ hk hy
  cases hs.symm.trans hrecord
  have harrives : (Op.merge (Member.pushNodeState h.record) h.env).arrives
      (R.run (evs ++ h.sending y)).sent = true := by
    rw [sending,← List.append_assoc]
    exact arrives_of_sent hsends hrecord h.env
  -- and it comes to somebody who knows `x` under a number that is not larger
  obtain ⟨j,hj⟩ := Option.ne_none_iff_exists'.mp halive
  obtain ⟨t,ht,htj⟩ := Option.bind_eq_some_iff.mp hj
  have htalive : t.state = .stateAlive := by
    by_contra hnot
    rw [if_neg hnot] at htj
    cases htj
  have hle : t.incarnation ≤ k := by
    refine (view_good hwrap₁ ht).2.2.1.trans ?_
    rw [ownInc_silent hsilent₁]
    exact hk
  have hsettled := run_settled R (evs ++ h.sending y) h.receiver
  rw [view,run_snoc,next_self harrives]
  have haccuses := heard_accuses (R.config h.receiver) hinc hstate
    ((R.run (evs ++ h.sending y)).node h.receiver) h.env
  rw [show h.record.n.name = R.name x from Table.find_name hs] at haccuses
  exact Process.next_accused hsettled htakes haccuses (fun heq => hother (R.distinct heq.symm)) ht
    htalive hle

/-- A suspicion or burial of a silent member under its last number is believed, for good, by
everybody whom it reaches on a chain of states sent and taken in. -/
theorem silent_spreads (R : Roster ι) (evs : List (ι × Op)) (hops : List (Hop ι))
    (post : List (ι × Op)) (x y : ι) (k : ℕ) (hk : R.ownInc (R.run evs) x ≤ k)
    (hy : HeldAgainst k (R.view (R.run evs) y x))
    (hcarries : Transitions.Along R.pass (fun s h => h.Carries R x s) (R.run evs,y) hops)
    (hsilent : Silent x post) (hwrap : NoWrap (R.run (evs ++ (route y hops ++ post)))) :
    ∀ z ∈ y::hops.map Hop.receiver,
      HeldAgainst k (R.view (R.run (evs ++ (route y hops ++ post))) z x) := by
  induction hops generalizing evs y with
  | nil =>
    intro z hz
    rw [List.mem_singleton.mp hz]
    exact accused_keeps hsilent hwrap hk hy
  | cons h hops ih =>
    obtain ⟨hcarry,hrest⟩ := hcarries
    rw [route,List.append_assoc,← List.append_assoc] at hwrap ⊢
    have hpass : R.pass (R.run evs,y) h = (R.run (evs ++ h.events y),h.receiver) := by
      rw [pass,run_append]
    have hsame : R.ownInc (R.run (evs ++ h.events y)) x = R.ownInc (R.run evs) x :=
      ownInc_silent hcarry.silent
    rw [hpass] at hrest
    have hnews := ih (evs ++ h.events y) h.receiver (hsame.trans_le hk)
      (hcarry.accused hwrap.of_append hk hy) hrest hwrap
    intro z hz
    rcases List.mem_cons.mp hz with rfl | hz
    · have hquiet : Silent x (route h.receiver hops ++ post) := fun ev hev =>
        (List.mem_append.mp hev).elim (route_silent hrest ev) (hsilent ev)
      exact accused_keeps hquiet hwrap (hsame.trans_le hk)
        (accused_keeps hcarry.silent hwrap.of_append hk hy)
    · exact hnews z hz

/-- `a` and `b` have heard of `c`; `a` suspects it and tells `b`, which gossips about it. -/
theorem silent_spreads_suspicion :
    let e : Env := ⟨0,0,2,3,[],[]⟩
    let joined : List (Fin 3 × Op) := [(2,.sendState true),
      (1,.merge ⟨"c","10.0.0.3",6666,1,.stateAlive⟩ ⟨0,0,0,1,[],[]⟩),
      (0,.merge ⟨"c","10.0.0.3",6666,1,.stateAlive⟩ ⟨0,0,0,1,[],[]⟩),(0,.probe 0 []),
      (0,.probeFail ⟨⟨"c","10.0.0.3",6666⟩,1,.stateAlive,1⟩ e)]
    let hops : List (Hop (Fin 3)) :=
      [⟨[],false,[],1,⟨⟨"c","10.0.0.3",6666⟩,1,.stateSuspect,2⟩,e⟩]
    ∀ z ∈ (0::hops.map Hop.receiver : List (Fin 3)), HeldAgainst 1
      (trio.view (trio.run (joined ++ (route 0 hops ++ [(1,.gossip 0 1000 false)]))) z 2) := by
  intro e joined hops
  have hcarries : (⟨[],false,[],1,⟨⟨"c","10.0.0.3",6666⟩,1,.stateSuspect,2⟩,e⟩ :
      Hop (Fin 3)).Carries trio 2 (trio.run joined,0) :=
    ⟨by decide,by decide +kernel,by decide +kernel,by decide +kernel,by decide +kernel⟩
  exact silent_spreads trio joined hops [(1,.gossip 0 1000 false)] 2 0 1 (by decide +kernel)
    ⟨⟨⟨"c","10.0.0.3",6666⟩,1,.stateSuspect,2⟩,by decide +kernel,rfl,by decide⟩
    ⟨hcarries,trivial⟩ (by decide +kernel) (by unfold NoWrap; decide +kernel)

end Roster
end GossipMemberlist
