import GossipMemberlist.Deliveries

/-!
# Redelivery

Gossip brings every broadcast many times over. A message that was accepted is old
news to the record that it left, an accusation of the member itself is behind the
number that refutes it, and a suspicion is counted once for each peer that has it.
-/

namespace GossipMemberlist

variable {cfg : Config} {fl : Floats}

def Handler.incarnation (h : Handler) (b : Broadcast) : ℕ :=
  match h with
  | .aliveNode => b.alive.incarnation
  | .suspectNode => b.suspect.incarnation
  | .deadNode => b.dead.incarnation

namespace Member

theorem canReplace_alive {now : ℤ} {s : NodeState} (h : s.state = .stateAlive) :
    canReplace cfg now s = false := by simp [canReplace,h]

/-- Nothing happens at a known address for an old number, or at another one that may
not take the name over. -/
theorem aliveNode_idle {m : Member} (hm : m.Settled cfg) {e : Env} {b : Broadcast} {r : ℕ}
    (hr : m.table.nodeMap b.alive.node = some r)
    (hrep : addressDiffers b.alive (m.table.heap r) = true →
      canReplace cfg e.now (m.table.heap r) = false)
    (hold : addressDiffers b.alive (m.table.heap r) = true ∨
      b.alive.incarnation ≤ (m.table.heap r).incarnation) (notifyFd : ℤ) :
    m.aliveNode cfg e b false notifyFd = m := by
  have h := aliveNode_exit hm.known e b notifyFd
  generalize m.aliveNode cfg e b false notifyFd = m' at h ⊢
  cases h with
  | created _ hnone => rw [hr] at hnone; cases hnone
  | joined _ hnone => rw [hr] at hnone; cases hnone
  | accepted _ hr' _ haddr hinc =>
    cases hr.symm.trans hr'
    rcases hold with h | h
    · rw [haddr] at h; cases h
    · omega
  | replaced _ hr' _ haddr hrep' =>
    cases hr.symm.trans hr'
    rw [hrep haddr] at hrep'
    cases hrep'
  | echoed => exact setTimer_none hm.localCell.timer
  | refuted _ hr' _ _ haddr hinc =>
    cases hr.symm.trans hr'
    rcases hold with h | h
    · have := haddr h
      rw [hrep h] at this
      cases this
    · omega
  | _ => rfl

theorem aliveNode_idle_alive {m : Member} (hm : m.Settled cfg) {e : Env} {b : Broadcast} {r : ℕ}
    (hr : m.table.nodeMap b.alive.node = some r) (hs : (m.table.heap r).state = .stateAlive)
    (hold : b.alive.incarnation ≤ (m.table.heap r).incarnation) (notifyFd : ℤ) :
    m.aliveNode cfg e b false notifyFd = m :=
  aliveNode_idle hm hr (fun _ => canReplace_alive hs) (Or.inr hold) notifyFd

/-- An alive message that was accepted is old news to the record that it left. -/
theorem acceptAlive_again {m : Member} {e₁ e₂ : Env} {b : Broadcast} {r : ℕ}
    (hr : m.table.nodeMap b.alive.node = some r)
    (h : (m.acceptAlive e₁ b.alive (-1) r).Settled cfg) :
    (m.acceptAlive e₁ b.alive (-1) r).aliveNode cfg e₂ b false (-1) =
      m.acceptAlive e₁ b.alive (-1) r := by
  have hheap : (m.acceptAlive e₁ b.alive (-1) r).table.heap r =
      aliveRecord b.alive e₁.later (m.table.heap r) := Function.update_self ..
  exact aliveNode_idle_alive h hr (by rw [hheap]; rfl) (by rw [hheap]; exact le_refl _) (-1)

theorem aliveNode_again {m : Member} (hm : m.Settled cfg) {e₁ e₂ : Env} {b : Broadcast}
    (hinc : b.alive.incarnation + raises e₁.before + raises e₁.between < 2 ^ 32 - 1)
    (h₁ : (m.aliveNode cfg e₁ b false (-1)).Settled cfg)
    (hreclaim : ∀ s, (m.aliveNode cfg e₁ b false (-1)).find b.alive.node = some s →
      s.state = .stateDead → addressDiffers b.alive s = true → canReplace cfg e₂.now s = false) :
    (m.aliveNode cfg e₁ b false (-1)).aliveNode cfg e₂ b false (-1) =
      m.aliveNode cfg e₁ b false (-1) := by
  have hlocal {r : ℕ} (hr : m.table.nodeMap b.alive.node = some r) (hl : b.alive.node = cfg.name)
      (hleave : m.leave = false) : (m.table.heap r).state = .stateAlive :=
    hm.localCell.alive (cell_record (hl ▸ hr)) (Or.inl hleave)
  have hadd (hnone : m.table.nodeMap b.alive.node = none) :
      (m.addNode e₁ b.alive).table.nodeMap b.alive.node = some m.table.next := by
    rw [addNode,Table.nodeMap_insert (by exact hnone)]
    exact Function.update_self ..
  have h := aliveNode_exit hm.known e₁ b (-1)
  generalize m.aliveNode cfg e₁ b false (-1) = m' at h h₁ hreclaim ⊢
  cases h with
  | blocked hd => simp [aliveNode,hd]
  | leaving _ hl hleave => simp [aliveNode,hl,hleave]
  | created _ hnone _ hzero =>
    have hheap : (m.addNode e₁ b.alive).table.heap m.table.next = newNodeState e₁ b.alive :=
      Table.heap_insert hnone _
    refine aliveNode_idle h₁ (hadd hnone) ?_ (Or.inr ?_) (-1)
    · exact hreclaim _ (Table.find_eq (hadd hnone)) (by rw [hheap]; rfl)
    · rw [hheap,hzero]
      exact Nat.zero_le _
  | joined _ hnone => exact acceptAlive_again (hadd hnone) h₁
  | @conflict r _ hr haddr hrep =>
    refine aliveNode_idle h₁ hr (fun _ => ?_) (Or.inl haddr) (-1)
    cases hs : (m.table.heap r).state with
    | stateDead => exact hreclaim _ (Table.find_eq hr) hs haddr
    | stateLeft => simp [canReplace,hs] at hrep
    | _ => simp [canReplace,hs]
  | stale _ hr _ haddr hle =>
    exact aliveNode_idle h₁ hr (fun h => by rw [haddr] at h; cases h) (Or.inr hle) (-1)
  | accepted _ hr => exact acceptAlive_again hr h₁
  | replaced _ hr => exact acceptAlive_again hr h₁
  | staleLocal _ hr hl hleave hlt =>
    exact aliveNode_idle_alive h₁ hr (hlocal hr hl hleave) hlt.le (-1)
  | echoed _ hr hl hleave _ heq =>
    exact aliveNode_idle_alive h₁ hr (hlocal hr hl hleave) heq.le (-1)
  | refuted _ hr hl hleave _ _ =>
    obtain ⟨hmap,hheap,hlt⟩ := refute_beats cfg (m := m.setTimer cfg.name none) hr hinc
    refine aliveNode_idle_alive h₁ (hmap ▸ hr) ?_ ?_ (-1)
    · rw [hheap]
      exact hlocal hr hl hleave
    · rw [hheap]
      exact hlt.le

theorem suspectNode_refused {m : Member} {e : Env} {b : Broadcast} {r : ℕ} {t : Suspicion}
    (hr : m.table.nodeMap b.suspect.node = some r)
    (hle : (m.table.heap r).incarnation ≤ b.suspect.incarnation)
    (ht : m.nodeTimers b.suspect.node = some t)
    (hc : t.confirm fl e.now b.suspect.from_ = (t,.refused)) : m.suspectNode cfg fl e b = m := by
  simp [suspectNode,hr,Nat.not_lt.mpr hle,ht,confirmTimer_refused ht hc]

theorem suspectNode_again (cfg : Config) (fl : Floats) (m : Member) {e₁ : Env} (e₂ : Env)
    {b : Broadcast}
    (hinc : b.suspect.incarnation + raises e₁.before + raises e₁.between < 2 ^ 32 - 1) :
    (m.suspectNode cfg fl e₁ b).suspectNode cfg fl e₂ b = m.suspectNode cfg fl e₁ b := by
  have h : SuspectExit cfg fl e₁ b.suspect m _ := suspectNode_exit m e₁ b
  generalize m.suspectNode cfg fl e₁ b = m' at h ⊢
  cases h with
  | blocked hd => simp [suspectNode,hd]
  | unknown _ hnone => simp [suspectNode,hnone]
  | stale _ hr hlt => simp [suspectNode,hr,hlt]
  | @confirmed r t _ hr hle _ =>
    obtain ⟨q,d,h,-⟩ := confirmTimer_frame fl e₁ b.suspect t m
    rw [h]
    exact suspectNode_refused hr hle (Function.update_self ..) (t.confirm_again fl e₁.now e₂.now _)
  | settled _ hr hle hnone hs => simp [suspectNode,hr,hnone,hs]
  | refuted _ hr hl =>
    obtain ⟨hmap,hheap,hlt⟩ := refute_beats cfg hr hinc
    simp [suspectNode,hmap,hr,hheap,hlt]
  | @suspected r _ hr _ _ _ _ =>
    have hheap : (m.startSuspicion cfg fl e₁ b.suspect r).table.heap r =
        suspectRecord b.suspect e₁.now (m.table.heap r) := Function.update_self ..
    refine suspectNode_refused hr (by rw [hheap]; exact le_refl _) (Function.update_self ..) ?_
    exact Suspicion.new_confirm ..

theorem deadNode_again (cfg : Config) (m : Member) {e₁ : Env} (e₂ : Env) {b : Broadcast}
    (hinc : b.dead.incarnation + raises e₁.before + raises e₁.between < 2 ^ 32 - 1) :
    (m.deadNode cfg e₁ b).deadNode cfg e₂ b = m.deadNode cfg e₁ b := by
  have h : DeadExit cfg e₁ b.dead m _ := deadNode_exit m e₁ b
  generalize m.deadNode cfg e₁ b = m' at h ⊢
  cases h with
  | blocked hd => simp [deadNode,hd]
  | unknown _ hnone => simp [deadNode,hnone]
  | stale _ hr hlt => simp [deadNode,hr,hlt]
  | settled hd hr hle hdead =>
    simp [deadNode,hd,hr,hdead,setTimer]
  | refuted _ hr hl =>
    obtain ⟨hmap,hheap,hlt⟩ := refute_beats cfg (m := m.setTimer cfg.name none) hr hinc
    have hr' : (m.setTimer cfg.name none).table.nodeMap b.dead.node = _ := hr
    simp [deadNode,hmap,hr',hheap,hlt]
  | @buried r hd hr _ _ _ =>
    set m' := (m.setTimer b.dead.node none).acceptDead e₁ b.dead _ r with hm'
    have hr' : m'.table.nodeMap b.dead.node = some r := hr
    have hheap : m'.table.heap r = deadRecord b.dead e₁.now (m.table.heap r) :=
      Function.update_self ..
    have htimer : m'.nodeTimers b.dead.node = none := Function.update_self ..
    have hdead : (m'.table.heap r).deadOrLeft = true := by
      rw [hheap,deadRecord,NodeState.deadOrLeft]
      split <;> rfl
    have hinc : (m'.table.heap r).incarnation = b.dead.incarnation := by rw [hheap]; rfl
    simp [deadNode,hr',hinc,hdead,setTimer_none htimer]

end Member

namespace Process

/-- Delivering a broadcast again changes nothing, unless in the meantime the name of a
dead node has become free for the other address that the message gives. The number that
answers an accusation is to have 32 bits, with the raises that come in between. -/
theorem redelivery_idempotent (cfg : Config) (fl : Floats) (leaveFd : ℤ) (e : Env)
    (ops : List Op) (h : Handler) (b : Broadcast) (e₁ e₂ : Env)
    (hinc : h.incarnation b + Member.raises e₁.before + Member.raises e₁.between < 2 ^ 32 - 1)
    (hreclaim : h = .aliveNode → ∀ s,
      (run cfg fl leaveFd e (ops ++ [h.op b e₁])).member.find b.alive.node = some s →
      s.state = .stateDead → Member.addressDiffers b.alive s = true →
      Member.canReplace cfg e₂.now s = false) :
    run cfg fl leaveFd e (ops ++ [h.op b e₁] ++ [h.op b e₂]) =
      run cfg fl leaveFd e (ops ++ [h.op b e₁]) := by
  have hm := run_settled cfg fl leaveFd e ops
  have hm₁ := run_settled cfg fl leaveFd e (ops ++ [h.op b e₁])
  rw [run,Transitions.run_snoc,← run]
  simp only [run,Transitions.run_snoc] at hm₁ hreclaim ⊢
  rw [← run] at hm₁ hreclaim ⊢
  cases h with
  | aliveNode =>
    have hagain := Member.aliveNode_again hm hinc hm₁ (hreclaim rfl)
    simp only [Handler.op,next,step,act,hagain]
  | suspectNode =>
    have hagain := Member.suspectNode_again cfg fl (run cfg fl leaveFd e ops).member e₂ hinc
    simp only [Handler.op,next,step,act,hagain]
  | deadNode =>
    have hagain := Member.deadNode_again cfg (run cfg fl leaveFd e ops).member e₂ hinc
    simp only [Handler.op,next,step,act,hagain]

theorem redelivery_idempotent_newcomer :
    let msg := genAliveBroadcast ⟨1,"b","10.0.0.2",6666⟩
    let once : List Op := [] ++ [Handler.aliveNode.op msg ⟨0,0,1,2,[],[]⟩]
    run (defaultLANConfig "node") .small 3 ⟨0,0,0,0,[],[]⟩
        (once ++ [Handler.aliveNode.op msg ⟨0,0,20000000,20000001,[],[]⟩]) =
      run (defaultLANConfig "node") .small 3 ⟨0,0,0,0,[],[]⟩ once := by
  refine redelivery_idempotent (defaultLANConfig "node") .small 3 ⟨0,0,0,0,[],[]⟩ [] .aliveNode
    (genAliveBroadcast ⟨1,"b","10.0.0.2",6666⟩) ⟨0,0,1,2,[],[]⟩ ⟨0,0,20000000,20000001,[],[]⟩
    (by decide) fun _ s hs hdead _ => ?_
  have hfind : some s = some ⟨⟨"b","10.0.0.2",6666⟩,1,.stateAlive,2⟩ :=
    hs.symm.trans (by decide +kernel)
  cases hfind
  cases hdead

/-- The message for the other address comes too early and then again in time. -/
theorem redelivery_reclaims :
    let node := defaultLANConfig "node"
    let e : Env := ⟨0,0,0,0,[],[]⟩
    let ops : List Op := [.alive (genAliveBroadcast ⟨1,"b","10.0.0.2",6666⟩) (-1) ⟨0,0,1,2,[],[]⟩,
      .dead (genDeadBroadcast ⟨1,"b","c"⟩) ⟨0,0,3,4,[],[]⟩]
    let msg := genAliveBroadcast ⟨2,"b","10.0.0.7",6666⟩
    let once := ops ++ [Handler.aliveNode.op msg ⟨0,0,5,6,[],[]⟩]
    let twice := once ++ [Handler.aliveNode.op msg ⟨0,0,20000000,20000001,[],[]⟩]
    (run node .small 3 e once).member.find "b" = some ⟨⟨"b","10.0.0.2",6666⟩,1,.stateDead,3⟩ ∧
      (run node .small 3 e twice).member.find "b" =
        some ⟨⟨"b","10.0.0.7",6666⟩,2,.stateAlive,20000001⟩ := by
  constructor <;> decide +kernel

end Process

end GossipMemberlist
