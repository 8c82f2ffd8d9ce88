import GossipMemberlist.Timers

/-!
# What the threads hold and send

The calls that are under way take what they carry from the member's table, and so
does everything that leaves the member.
-/

namespace GossipMemberlist

theorem Member.probeSection_probes {cfg : Config} {m : Member} {numCheck : ℕ} {ns : List ℕ}
    {node : NodeState} (h : (m.probeSection cfg numCheck ns).2 = .probes node) :
    ∃ x, m.find x = some node := by
  unfold probeSection at h
  split at h
  · cases h
  split at h
  · cases h
  rename_i r hr
  dsimp only at h
  split at h
  · cases h
  · cases h
    exact ⟨_,Table.find_eq (Table.nodeMap_of_mem (List.mem_of_getElem? hr))⟩

theorem Member.sendLocalState_states {m : Member} {join : Bool} {st : PushNodeState}
    (h : st ∈ (m.sendLocalState join).states) :
    ∃ x s, m.find x = some s ∧ st = pushNodeState s := by
  obtain ⟨r,hr,rfl⟩ := List.mem_map.mp h
  exact ⟨_,_,Table.find_eq (Table.nodeMap_of_mem hr),rfl⟩

namespace Process

/-- The callback `f` finds `s` suspect and makes its dead message. -/
def Convicts (f : Callback) (s : NodeState) (p : Process) : Prop :=
  (f ∈ p.firing ∧ p.member.deadlocked = false) ∧ p.member.find f.s.node = some s ∧
    s.state = .stateSuspect ∧ s.stateChange = f.now

/-- If the step hands a dead message that `W` stands for to `deadNode`, then `V` holds. -/
def Issues (op : Op) (W V : String → ℕ → Prop) (p : Process) : Prop :=
  ∀ b e, op = .timerDead b e → b ∈ p.verdicts ∧ p.member.deadlocked = false →
    W b.dead.node b.dead.incarnation → V b.dead.node b.dead.incarnation

/-- Where the calls that are under way in `q` come from, after `p` has taken the step `op`. -/
structure Carries (cfg : Config) (p : Process) (op : Op) (q : Process) : Prop where
  probing : ∀ node ∈ q.probing, node ∈ p.probing ∨ ∃ x, p.member.find x = some node
  verdicts : ∀ b ∈ q.verdicts, b ∈ p.verdicts ∨ ∃ f s, op = .timerCheck f ∧ p.Convicts f s ∧
    b = genDeadBroadcast ⟨s.incarnation,s.n.name,cfg.name⟩
  farewells : ∀ b ∈ q.farewells, b ∈ p.farewells ∨ ∃ s, p.member.find cfg.name = some s ∧
    b = genDeadBroadcast ⟨s.incarnation,cfg.name,cfg.name⟩

variable {cfg : Config} {p q : Process} {op : Op}

theorem Carries.kept (h₁ : q.probing ⊆ p.probing) (h₂ : q.verdicts ⊆ p.verdicts)
    (h₃ : q.farewells ⊆ p.farewells) : Carries cfg p op q :=
  ⟨fun _ h => Or.inl (h₁ h),fun _ h => Or.inl (h₂ h),fun _ h => Or.inl (h₃ h)⟩

theorem Carries.same {member : Member} {entering leaving : ℕ} {firing : List Callback} :
    Carries cfg p op { p with member, entering, leaving, firing } :=
  .kept (List.Subset.refl _) (List.Subset.refl _) (List.Subset.refl _)

theorem Carries.refl : Carries cfg p op p := .same

theorem next_carries (cfg : Config) (fl : Floats) (p : Process) (op : Op) :
    Carries cfg p op (p.next cfg fl op) := by
  cases op with
  | timerCheck f =>
    simp only [next,step,timerCheck]
    split
    · rename_i hf
      refine ⟨fun _ h => Or.inl h,fun b hb => ?_,fun _ h => Or.inl h⟩
      rcases List.mem_append.mp hb with hb | hb
      · obtain ⟨s,hs,hstate,htime,rfl⟩ := Member.timeoutCheck_some (Option.mem_toList.mp hb)
        exact Or.inr ⟨f,s,rfl,⟨hf,hs,hstate,htime⟩,by rw [Table.find_name hs]⟩
      · exact Or.inl hb
    · exact .refl
  | probe numCheck ns =>
    simp only [next,step,probe]
    split
    · exact .refl
    · refine ⟨fun node h => ?_,fun _ h => Or.inl h,fun _ h => Or.inl h⟩
      dsimp only at h
      split at h
      · rename_i hexit
        rcases List.mem_cons.mp h with rfl | h
        · exact Or.inr (Member.probeSection_probes hexit)
        · exact Or.inl h
      · exact Or.inl h
  | leaveRead =>
    simp only [next,step,leaveRead]
    split
    · rename_i hs
      refine ⟨fun _ h => Or.inl h,fun _ h => Or.inl h,fun b hb => ?_⟩
      rcases List.mem_cons.mp hb with rfl | hb
      · exact Or.inr ⟨_,hs,by rw [Table.find_name hs]⟩
      · exact Or.inl hb
    · exact .refl
  | timerDead b e =>
    simp only [next,step]
    split
    · exact .kept (List.Subset.refl _) List.erase_subset (List.Subset.refl _)
    · exact .refl
  | leaveDead b e =>
    simp only [next,step]
    split
    · exact .kept (List.Subset.refl _) (List.Subset.refl _) List.erase_subset
    · exact .refl
  | probeFail node e =>
    simp only [next,step]
    split
    · exact .kept List.erase_subset (List.Subset.refl _) (List.Subset.refl _)
    · exact .refl
  | leaveSet =>
    simp only [next,step,leaveSet]
    split <;> exact .same
  | timerWake x =>
    simp only [next,step]
    split
    · split <;> exact .same
    · exact .refl
  | timerEnd | probeSend | updateAlive | leaveTest | sendState =>
    simp only [next,step]
    split <;> exact .same
  | _ => exact .same

/-- A packet carries a suspicion of a probed node, a queued rumour or the whole table. -/
theorem step_sends (fl : Floats) (hp : p.member.Sound cfg) {pkt : Packet}
    (h : pkt ∈ (p.step cfg fl op).2) :
    (∃ node ∈ p.probing, pkt = .broadcast (probeSuspicion cfg node)) ∨
      (∃ x, ∃ b ∈ (p.member.cell x).rumours, pkt = .broadcast b) ∨
      ∃ join, pkt = .pushPull (p.member.sendLocalState join) := by
  cases op with
  | probeSend node =>
    simp only [step] at h
    split at h
    · rename_i hnode
      exact Or.inl ⟨node,hnode.1,List.mem_singleton.mp h⟩
    · cases h
  | gossip overhead limit haveMsg =>
    simp only [step,gossip] at h
    split at h
    · obtain ⟨b,hb,rfl⟩ := List.mem_map.mp h
      obtain ⟨-,-,hmem⟩ := BroadcastQueue.getBroadcasts_spec fl p.member.table.numNodes.load
        overhead limit haveMsg hp.queue
      obtain ⟨e,he,hmsg⟩ := hmem b hb
      exact Or.inr (Or.inl ⟨e.b.node,b,⟨e,he,rfl,hmsg⟩,rfl⟩)
    · cases h
  | sendState join =>
    simp only [step] at h
    split at h
    · cases h
    · exact Or.inr (Or.inr ⟨join,List.mem_singleton.mp h⟩)
  | timerWake x =>
    simp only [step] at h
    split at h
    · split at h <;> cases h
    · cases h
  | timerEnd | timerDead | leaveDead | probeFail | updateAlive | leaveTest =>
    simp only [step] at h
    split at h <;> cases h
  | _ => cases h

theorem next_leave (fl : Floats) (hp : p.member.Sound cfg) (h : op ≠ .leaveSet) :
    (p.next cfg fl op).member.leave = p.member.leave := by
  have heffect : Effect cfg fl _ _ _ := step_effect hp op
  obtain ⟨u,-,henters⟩ := p.enters_eq op
  rcases heffect.leave with hsame | ⟨hnothing,-⟩
  · rw [hsame,henters]
  -- a step without a handler call
  cases op with
  | leaveSet => exact absurd rfl h
  | update u =>
    obtain ⟨i,a,b,hu⟩ := Member.updateStep_frame cfg p.member u
    have hleave := congrArg Member.leave hu
    exact hleave
  | alive | suspect | dead => cases hnothing
  | merge state e =>
    cases hs : state.state <;> simp only [heard,PushNodeState.heard,hs] at hnothing
    case unrecognized => simp only [next,step,act,Member.mergeState,hs]
    all_goals cases hnothing
  | timerDead | leaveDead | probeFail | updateAlive =>
    simp only [heard] at hnothing
    split at hnothing
    · cases hnothing
    · rename_i hb
      simp only [next,step,if_neg hb]
  | probe numCheck ns =>
    simp only [next,step,probe,Member.probeSection]
    split
    · rfl
    · dsimp only
      split
      · rfl
      · split
        · rfl
        · split <;> rfl
  | timerWake x =>
    simp only [next,step]
    split
    · split <;> rfl
    · rfl
  | timerCheck =>
    simp only [next,step,timerCheck]
    split <;> rfl
  | leaveRead =>
    simp only [next,step,leaveRead]
    split <;> rfl
  | timerEnd | probeSend | leaveTest | sendState =>
    simp only [next,step]
    split <;> rfl
  | gossip | prune | clear => rfl

end Process
end GossipMemberlist
