import GossipMemberlist.Beliefs
import GossipMemberlist.Precedence

/-!
# Members that fall silent

In a cluster nobody takes a name over, so what a member records of another one only
moves up: through the numbers, and within one number from alive to suspect to dead or
left. The numbers end where the other member's own record does. Once that member
takes no more steps the others come to rest about it.
-/

namespace GossipMemberlist

def NodeState.rung (s : NodeState) : ℕ := 3 * s.incarnation + s.state.rank

namespace NodeState

theorem rank_le (t : NodeStateType) : t.rank ≤ 2 := by
  cases t <;> decide

theorem rung_lt {s s' : NodeState} (h : s.precedence < s'.precedence) : s.rung < s'.rung := by
  have hs := rank_le s.state
  rcases (Prod.Lex.lt_iff ..).mp h with h | ⟨h₁,h₂⟩
  · have h : s.incarnation < s'.incarnation := h
    simp only [rung]
    omega
  · have h₁ : s.incarnation = s'.incarnation := h₁
    have h₂ : s.state.rank < s'.state.rank := h₂
    simp only [rung]
    omega

theorem Advances.rung {s s' : NodeState} (h : s.Advances s') : s.rung ≤ s'.rung := by
  by_cases hsame : s'.incarnation ≠ s.incarnation ∨ s'.state ≠ s.state
  · exact (rung_lt (h.lt hsame)).le
  · obtain ⟨hinc,hstate⟩ := not_or.mp hsame
    rw [NodeState.rung,NodeState.rung,not_not.mp hinc,not_not.mp hstate]

theorem rung_le {s : NodeState} {k : ℕ} (h : s.incarnation ≤ k) : s.rung ≤ 3 * k + 2 := by
  have hs := rank_le s.state
  simp only [rung]
  omega

end NodeState

namespace Process

variable {cfg : Config} {fl : Floats} {p : Process} {op : Op}

theorem next_free (op : Op) (hp : p.member.Sound cfg) (h : (p.next cfg fl op).member.deadlocked = false) :
    p.member.deadlocked = false := by
  obtain ⟨u,-,henters⟩ := p.enters_eq op
  have heffect : Effect cfg fl _ _ _ := step_effect hp op
  by_contra hlocked
  have hlocked : p.member.deadlocked = true := by simpa using hlocked
  have h' := heffect.deadlocked (by rw [henters]; exact hlocked)
  cases h.symm.trans h'

end Process

namespace Roster

variable {ι : Type*} {R : Roster ι} {V : String → ℕ → Prop} {c c' : Cluster ι} {i x y : ι}

/-- Nobody's record changes hands: at the right address it can only advance. -/
theorem CellMove.ascends {n : String} {leave : Bool} {lo hi : ℕ} {l : Heard} {k k' : Cell}
    {s : NodeState} (h : CellMove R c c' i n leave lo hi l k k') (hl : R.GoodHeard V c i l)
    (hk : R.GoodCell V c k) (hs : k.record = some s) (hx : R.name x = n) :
    ∃ s', k'.record = some s' ∧ s'.n = s.n ∧ s.Advances s' := by
  have hname : s.n.name = n := h.named s hs
  by_cases hn : n = (R.config i).name
  · obtain ⟨s',hs',hstep⟩ := h.step.recordStep hs
    refine ⟨s',hs',?_⟩
    cases hstep with
    | kept => exact ⟨rfl,.refl s⟩
    | accepted _ hne => exact absurd hn hne
    | replaced _ hne => exact absurd hn hne
    | suspected _ hne => exact absurd hn hne
    | @refuted _ _ inc _ _ _ hinc _ =>
      have hle : s.incarnation ≤ inc := by
        have hown := h.le
        simp only [ownInc,h.old hn,hs,Option.elim] at hown
        exact hown.trans (hinc h.noWrap)
      refine ⟨rfl,?_,fun hne => ?_⟩
      · rcases hle.lt_or_eq with hlt | heq
        · exact ((Prod.Lex.lt_iff ..).mpr (Or.inl hlt)).le
        · exact (Prod.Lex.le_iff ..).mpr (Or.inr ⟨heq,le_refl _⟩)
      · rcases hne with hne | hne
        · exact (Prod.Lex.lt_iff ..).mpr (Or.inl (lt_of_le_of_ne hle (Ne.symm hne)))
        · exact absurd rfl hne
    | @buried d e _ hinc hdead _ =>
      refine ⟨rfl,.of_lt (NodeState.precedence_lt hinc ?_)⟩
      have hrank : (Member.deadRecord d e.now s).state.rank = 2 := by
        simp only [Member.deadRecord]
        split <;> rfl
      rw [hrank]
      exact NodeState.rank_of_not_deadOrLeft hdead
  · obtain ⟨s',hs',hcases⟩ := h.step.advances hn hs
    refine ⟨s',hs',?_⟩
    rcases hcases with rfl | ⟨hadv,hsame,-⟩ | ⟨a,e,rfl,ha,haddr,-⟩
    · exact ⟨rfl,.refl _⟩
    · exact ⟨hsame,hadv⟩
    · -- the address in a good message is the one on record
      have hgood : R.GoodAlive c a := hl.resolve_left fun h => hn (ha.symm.trans h)
      obtain ⟨h₁,h₂⟩ := hgood.address x (hx.trans ha.symm)
      have hgen := (hk.record s hs).genuine x (hx.trans hname.symm)
      simp [Member.addressDiffers,h₁,h₂,hgen,Config.advertised] at haddr

/-- Of a member that does not answer, a record under its last number can only get graver. -/
theorem CellMove.last {n : String} {leave : Bool} {lo hi : ℕ} {l : Heard} {k k' : Cell}
    {s : NodeState} (h : CellMove R c c' i n leave lo hi l k k') (hl : R.GoodHeard V c i l)
    (hk : R.GoodCell V c k) (hs : k.record = some s) (hx : R.name x = n) (hix : i ≠ x)
    (hlast : R.ownInc c x ≤ s.incarnation) : ∃ s', k'.record = some s' ∧
      s'.incarnation = s.incarnation ∧
      (s' = s ∨ s.state = .stateAlive ∧ s'.state = .stateSuspect ∨ s'.deadOrLeft = true) := by
  have hne : n ≠ (R.config i).name := fun hn => hix (R.distinct (hn.symm.trans hx.symm))
  obtain ⟨s',hs',hstep⟩ := h.step.recordStep hs
  refine ⟨s',hs',?_⟩
  cases hstep with
  | kept => exact ⟨rfl,Or.inl rfl⟩
  | accepted ha _ _ hlt =>
    have hgood := hl.resolve_left fun h => hne (ha.symm.trans h)
    have hle := hgood.below x (hx.trans ha.symm)
    exact absurd hlt (Nat.not_lt.mpr (hle.trans hlast))
  | replaced ha _ haddr =>
    have hgood := hl.resolve_left fun h => hne (ha.symm.trans h)
    obtain ⟨h₁,h₂⟩ := hgood.address x (hx.trans ha.symm)
    have hgen := (hk.record s hs).genuine x (hx.trans (h.named s hs).symm)
    simp [Member.addressDiffers,h₁,h₂,hgen,Config.advertised] at haddr
  | refuted hn => exact absurd hn hne
  | @suspected a e ha _ hinc halive =>
    have hle := GoodSuspect.below hl x (hx.trans ha.symm)
    exact ⟨le_antisymm (hle.trans hlast) hinc,Or.inr (Or.inl ⟨halive,rfl⟩)⟩
  | @buried d e hd hinc _ _ =>
    have hgood := hl.resolve_right fun h => hne (hd.symm.trans h.1)
    have hle := hgood.below x (hx.trans hd.symm)
    refine ⟨le_antisymm (hle.trans hlast) hinc,Or.inr (Or.inr ?_)⟩
    simp only [NodeState.deadOrLeft,Member.deadRecord]
    split <;> rfl

def belief (c : Cluster ι) (y : ι) (n : String) : Option (ℕ × NodeStateType) :=
  ((c.node y).member.find n).map fun s => (s.incarnation,s.state)

variable [DecidableEq ι] {evs : List (ι × Op)} {ev : ι × Op}

def swings (R : Roster ι) (y : ι) (n : String) (c : Cluster ι) (ev : ι × Op) : Bool :=
  belief (R.network.next c ev) y n ≠ belief c y n

theorem run_append (R : Roster ι) (evs evs' : List (ι × Op)) :
    R.run (evs ++ evs') = R.network.run (R.run evs) evs' := Transitions.run_append ..

theorem next_ascends (hwrap : NoWrap (R.run (evs ++ [ev]))) {s : NodeState}
    (hs : ((R.run evs).node y).member.find (R.name x) = some s) :
    ∃ s', ((R.network.next (R.run evs) ev).node y).member.find (R.name x) = some s' ∧
      s'.n = s.n ∧ s.Advances s' := by
  obtain ⟨i,op⟩ := ev
  rw [run_snoc] at hwrap
  rcases Network.next_cases (N := R.network) (R.run evs) (i,op) with hn | ⟨hd,hn⟩
  · exact ⟨s,by rw [hn,hs],rfl,.refl s⟩
  · rw [hn] at hwrap ⊢
    by_cases hy : y = i
    · subst hy
      obtain ⟨hmove,hl,hk⟩ := act_cells hwrap hd (R.name x)
      rw [Network.act_self]
      exact hmove.ascends hl hk hs rfl
    · rw [Network.act_other _ hy]
      exact ⟨s,hs,rfl,.refl s⟩

/-- Every change of mind about a member is a step up, and the steps are numbered: a member
can change its mind about another one only as often as that one's numbers allow. -/
theorem swings_bounded (R : Roster ι) (evs evs' : List (ι × Op))
    (hwrap : NoWrap (R.run (evs ++ evs'))) (x y : ι) (s : NodeState)
    (hs : ((R.run evs).node y).member.find (R.name x) = some s) :
    ∃ s', ((R.run (evs ++ evs')).node y).member.find (R.name x) = some s' ∧ s'.n = s.n ∧
      Transitions.tally R.network.next (R.swings y (R.name x)) (R.run evs) evs' + s.rung ≤ s'.rung ∧
      s'.rung ≤ 3 * R.ownInc (R.run (evs ++ evs')) x + 2 := by
  have hbound {evs : List (ι × Op)} (hwrap : NoWrap (R.run evs)) {s : NodeState}
      (hs : ((R.run evs).node y).member.find (R.name x) = some s) :
      s.rung ≤ 3 * R.ownInc (R.run evs) x + 2 := by
    have hgood := (((run_provenance R evs hwrap).nodes y).cells _).record s hs
    exact NodeState.rung_le (hgood.below x (Table.find_name hs).symm)
  induction evs' using List.reverseRecOn with
  | nil =>
    rw [List.append_nil] at hwrap ⊢
    exact ⟨s,hs,rfl,by simp,hbound hwrap hs⟩
  | append_singleton evs' ev ih =>
    rw [← List.append_assoc] at hwrap ⊢
    obtain ⟨t,ht,hn,hle,-⟩ := ih hwrap.of_snoc
    obtain ⟨s',hs',hn',hadv⟩ := next_ascends (R := R) (x := x) hwrap ht
    refine ⟨s',by rw [run_snoc,hs'],hn'.trans hn,?_,hbound hwrap (by rw [run_snoc,hs'])⟩
    have hrun : Transitions.run R.network.next (R.run evs) evs' = R.run (evs ++ evs') :=
      (run_append R evs evs').symm
    rw [Transitions.tally_snoc,hrun]
    by_cases hswing : R.swings y (R.name x) (R.run (evs ++ evs')) ev = true
    · have hne : s'.incarnation ≠ t.incarnation ∨ s'.state ≠ t.state := by
        by_contra hsame
        obtain ⟨h₁,h₂⟩ := not_or.mp hsame
        have : belief (R.network.next (R.run (evs ++ evs')) ev) y (R.name x) =
            belief (R.run (evs ++ evs')) y (R.name x) := by
          simp [belief,hs',ht,not_not.mp h₁,not_not.mp h₂]
        simp [swings,this] at hswing
      have hlt := NodeState.rung_lt (hadv.lt hne)
      simp only [hswing,Bool.toNat_true]
      omega
    · have hle' := hadv.rung
      simp only [Bool.not_eq_true] at hswing
      simp only [hswing,Bool.toNat_false]
      omega

/-- `b` suspects `a`, buries it and passes that on. -/
theorem swings_bounded_burial : ∃ s', ((pair.run burial).node false).member.find "a" = some s' ∧
    s'.n = ⟨"a","10.0.0.1",6666⟩ ∧
    Transitions.tally pair.network.next (pair.swings false "a") (pair.run (burial.take 2))
      (burial.drop 2) + 3 ≤ s'.rung ∧ s'.rung ≤ 3 * pair.ownInc (pair.run burial) true + 2 :=
  swings_bounded pair (burial.take 2) (burial.drop 2) (fun i => by cases i <;> decide +kernel)
    true false ⟨⟨"a","10.0.0.1",6666⟩,1,.stateAlive,1⟩ (by decide +kernel)

/-- The member `x` takes none of these steps. -/
def Silent (x : ι) (evs : List (ι × Op)) : Prop := ∀ ev ∈ evs, ev.1 ≠ x

instance (x : ι) (evs : List (ι × Op)) : Decidable (Silent x evs) :=
  inferInstanceAs (Decidable (∀ ev ∈ evs, ev.1 ≠ x))

omit [DecidableEq ι] in
theorem silent_singleton (h : y ≠ x) (op : Op) : Silent x [(y,op)] := by
  intro ev hev
  rw [List.mem_singleton.mp hev]
  exact h

theorem ownInc_silent {evs' : List (ι × Op)} (h : Silent x evs') :
    R.ownInc (R.run (evs ++ evs')) x = R.ownInc (R.run evs) x := by
  rw [run_append,ownInc,own,Network.node_silent h]
  rfl

theorem next_node (R : Roster ι) (c : Cluster ι) (ev : ι × Op) (y : ι) :
    (R.network.next c ev).node y = c.node y ∨ ev.1 = y ∧
      (R.network.next c ev).node y = (c.node y).next (R.config y) R.floats ev.2 := by
  rcases Network.next_cases (N := R.network) c ev with hn | ⟨-,hn⟩
  · exact Or.inl (by rw [hn])
  · by_cases hy : y = ev.1
    · subst hy
      exact Or.inr ⟨rfl,by rw [hn,Network.act_self]; rfl⟩
    · exact Or.inl (by rw [hn,Network.act_other _ hy])

theorem run_free {evs' : List (ι × Op)}
    (h : ((R.run (evs ++ evs')).node y).member.deadlocked = false) :
    ((R.run evs).node y).member.deadlocked = false := by
  induction evs' using List.reverseRecOn with
  | nil => rwa [List.append_nil] at h
  | append_singleton evs' ev ih =>
    rw [← List.append_assoc,run_snoc] at h
    refine ih ?_
    rcases R.next_node (R.run (evs ++ evs')) ev y with hn | ⟨-,hn⟩
    · rwa [hn] at h
    · rw [hn] at h
      exact Process.next_free ev.2 (run_steady R _ y).sound h

theorem next_last (hwrap : NoWrap (R.run (evs ++ [ev]))) (hev : ev.1 ≠ x) {s : NodeState}
    (hs : ((R.run evs).node y).member.find (R.name x) = some s)
    (hlast : R.ownInc (R.run evs) x ≤ s.incarnation) :
    ∃ s', ((R.network.next (R.run evs) ev).node y).member.find (R.name x) = some s' ∧
      s'.incarnation = s.incarnation ∧
      (s' = s ∨ s.state = .stateAlive ∧ s'.state = .stateSuspect ∨ s'.deadOrLeft = true) := by
  obtain ⟨i,op⟩ := ev
  rw [run_snoc] at hwrap
  rcases Network.next_cases (N := R.network) (R.run evs) (i,op) with hn | ⟨hd,hn⟩
  · exact ⟨s,by rw [hn,hs],rfl,Or.inl rfl⟩
  · rw [hn] at hwrap ⊢
    by_cases hy : y = i
    · subst hy
      obtain ⟨hmove,hl,hk⟩ := act_cells hwrap hd (R.name x)
      rw [Network.act_self]
      exact hmove.last hl hk hs rfl hev hlast
    · rw [Network.act_other _ hy]
      exact ⟨s,hs,rfl,Or.inl rfl⟩

/-- What every step of somebody else keeps while `x` has not got past `k` is kept for as
long as `x` is silent. -/
theorem silent_keeps {P : Process → Prop} {k : ℕ} (hstep : ∀ evs ev, NoWrap (R.run (evs ++ [ev])) →
      ev.1 ≠ x → R.ownInc (R.run evs) x ≤ k → P ((R.run evs).node y) →
      P ((R.network.next (R.run evs) ev).node y))
    {evs' : List (ι × Op)} (hsilent : Silent x evs') (hwrap : NoWrap (R.run (evs ++ evs')))
    (hk : R.ownInc (R.run evs) x ≤ k) (h₀ : P ((R.run evs).node y)) :
    P ((R.run (evs ++ evs')).node y) := by
  induction evs' using List.reverseRecOn with
  | nil => rwa [List.append_nil]
  | append_singleton evs' ev ih =>
    have hbefore : Silent x evs' := fun ev' hev => hsilent ev' (List.mem_append_left _ hev)
    rw [← List.append_assoc] at hwrap ⊢
    rw [run_snoc]
    exact hstep _ ev hwrap (hsilent ev (List.mem_append_right _ List.mem_cons_self))
      ((ownInc_silent hbefore).trans_le hk) (ih hbefore hwrap.of_snoc)

theorem next_self {c : Cluster ι} {op : Op} (hd : op.arrives c.sent = true) :
    (R.network.next c (y,op)).node y = (c.node y).next (R.config y) R.floats op := by
  have hnext : R.network.next c (y,op) = R.network.act c y op := if_pos hd
  rw [hnext,Network.act_self]
  rfl

theorem run_self {evs : List (ι × Op)} {op : Op} (hd : op.arrives (R.run evs).sent = true) :
    (R.run (evs ++ [(y,op)])).node y =
      ((R.run evs).node y).next (R.config y) R.floats op := by
  rw [run_snoc,next_self hd]

end Roster
end GossipMemberlist
