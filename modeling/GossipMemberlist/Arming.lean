import GossipMemberlist.Coherence

/-!
# How many confirmations a suspicion waits for

`suspectNode` takes two from the count of nodes, itself and the suspect, before it
asks for `k` confirmations. The table holds both of them; the count may have wrapped.
-/

namespace GossipMemberlist

variable {cfg : Config} {fl : Floats}

def Table.others (cfg : Config) (x : String) (t : Table) : List ℕ :=
  t.nodes.filter fun r => (t.heap r).n.name ≠ cfg.name ∧ (t.heap r).n.name ≠ x

theorem Table.length_others {t : Table} {x : String} {me r : ℕ} (hme : t.nodeMap cfg.name = some me)
    (hr : t.nodeMap x = some r) (hne : x ≠ cfg.name) :
    (t.others cfg x).length + 2 = t.nodes.length := by
  have hmem := (t.listed me).mpr ⟨_,hme⟩
  have hmem' := (t.listed r).mpr ⟨_,hr⟩
  have hdiff : r ≠ me := fun h => hne (t.nodeMap_inj (h ▸ hr) hme)
  have hothers : t.others cfg x = (t.nodes.erase me).erase r := by
    rw [(t.nodup.erase me).erase_eq_filter,t.nodup.erase_eq_filter,List.filter_filter]
    refine List.filter_congr fun r' hr' => ?_
    have hnode := nodeMap_of_mem hr'
    have hlocal : (t.heap r').n.name = cfg.name ↔ r' = me :=
      ⟨fun h => Option.some.inj (hnode.symm.trans (h ▸ hme)),fun h => h ▸ t.named hme⟩
    have hx : (t.heap r').n.name = x ↔ r' = r :=
      ⟨fun h => Option.some.inj (hnode.symm.trans (h ▸ hr)),fun h => h ▸ t.named hr⟩
    have hcomm : (!decide (r' = me) && !decide (r' = r)) = (r' != r && r' != me) :=
      Bool.and_comm _ _
    simpa [hlocal,hx] using hcomm
  have hpos := List.length_pos_of_mem hmem
  have herase : r ∈ t.nodes.erase me := (List.mem_erase_of_ne hdiff).mpr hmem'
  have hpos' := List.length_pos_of_mem herase
  have hlen := List.length_erase_of_mem hmem
  rw [hothers,List.length_erase_of_mem herase]
  omega

theorem startSuspicion_timer (fl : Floats) {m : Member} (e : Env) (s : Suspect) (r : ℕ) :
    (m.startSuspicion cfg fl e s r).nodeTimers s.node =
      some (Member.newSuspicion cfg fl e s m.table.numNodes.load) := Function.update_self ..

theorem newSuspicion_k (cfg : Config) (fl : Floats) (e : Env) (s : Suspect) (n : ℕ) :
    (Member.newSuspicion cfg fl e s n).k < 2 ^ 8 ∧ ((Member.newSuspicion cfg fl e s n).k = 0 ∨
      (Member.newSuspicion cfg fl e s n).k ≤ (n + (2 ^ 32 - 2)) % 2 ^ 32) := by
  simp only [Member.newSuspicion,Suspicion.new]
  split_ifs with h
  · exact ⟨by decide,Or.inl rfl⟩
  · exact ⟨Nat.mod_lt _ (by decide),Or.inr (not_lt.mp h)⟩

namespace Process

theorem next_arms {p : Process} (hp : p.member.Sound cfg) {op : Op} {x : String} {t : Suspicion}
    (hnone : p.member.nodeTimers x = none)
    (ht : (p.next cfg fl op).member.nodeTimers x = some t) :
    x ≠ cfg.name ∧ ∃ s e r, p.member.table.nodeMap x = some r ∧
      t = Member.newSuspicion cfg fl e s p.member.table.numNodes.load := by
  obtain ⟨hcell,-,-⟩ := next_cellStep fl hp op x
  generalize hl : p.heard cfg op = l at hcell
  have hold : (p.member.cell x).timer = none := hnone
  have hnew : ((p.next cfg fl op).member.cell x).timer = some t := ht
  cases hcell with
  | kept h =>
    rw [h.timer_eq,hold] at hnew
    cases hnew
  | @suspected s e _ _ hr hx hne hinc _ halive h =>
    subst hx
    obtain ⟨r,hmap,rfl⟩ := Option.map_eq_some_iff.mp hr
    refine ⟨hne,s,e,r,hmap,?_⟩
    rw [next_suspect fl hl] at ht
    cases hfree : p.member.deadlocked with
    | true =>
      rw [Member.suspectNode,if_pos hfree,hnone] at ht
      cases ht
    | false =>
      have heq : p.member.suspectNode cfg fl e (genSuspectBroadcast s) =
          p.member.startSuspicion cfg fl e s r :=
        suspectNode_accepts (b := genSuspectBroadcast s) hfree hmap hne hinc hnone halive e
      rw [heq] at ht
      exact (Option.some.inj ((startSuspicion_timer fl e s r).symm.trans ht)).symm
  | ended ht' h =>
    rw [hold] at ht'
    cases ht'
  | confirmed _ _ _ ht' =>
    rw [hold] at ht'
    cases ht'
  | created _ _ _ _ h =>
    rw [h.timer_eq,hold] at hnew
    cases hnew
  | disarmed _ _ h | joined _ _ _ _ h | accepted _ _ _ _ _ h | replaced _ _ _ _ _ h =>
    rw [h.timer_eq] at hnew
    cases hnew
  | refuted _ _ _ _ _ _ _ h | buried _ _ _ _ _ h =>
    rw [h.timer_eq] at hnew
    cases hnew

theorem suspect_newcomer (cfg : Config) (hname : ∀ i : ℕ, i.repr ≠ cfg.name) (fl : Floats)
    (leaveFd : ℤ) (e : Env) (n : ℕ) (from_ : String) :
    let p := run cfg fl leaveFd e (newcomers e (n + 1))
    let s : Suspect := ⟨1,n.repr,from_⟩
    p.member.nodeTimers n.repr = none ∧ p.member.table.numNodes.load = (n + 2) % 2 ^ 32 ∧
      (p.next cfg fl (.suspect (genSuspectBroadcast s) e)).member.nodeTimers n.repr =
        some (Member.newSuspicion cfg fl e s ((n + 2) % 2 ^ 32)) := by
  intro p s
  obtain ⟨hfree,hleave,-,hnone⟩ := run_newcomers hname fl leaveFd e n
  obtain ⟨hfree',-,hlen,-⟩ := run_newcomers hname fl leaveFd e (n + 1)
  have hqueue := (run_sound cfg fl leaveFd e (newcomers e n)).queue
  have hnone' := hnone n (le_refl n)
  obtain ⟨hcell,-⟩ := join_cell (e := e) (a := ⟨1,n.repr,"10.0.0.1",7946⟩) hqueue hnone' (-1)
  rw [← run_newcomer (hname n) hfree hleave hnone'] at hcell
  obtain ⟨r,hr,hheap⟩ := Option.map_eq_some_iff.mp hcell.record_eq
  have ht : p.member.nodeTimers n.repr = none := hcell.timer_eq
  have hload : p.member.table.numNodes.load = (n + 2) % 2 ^ 32 := by
    rw [Table.numNodes_load,hlen]
  refine ⟨ht,hload,?_⟩
  have heq : p.member.suspectNode cfg fl e (genSuspectBroadcast s) =
      p.member.startSuspicion cfg fl e s r :=
    suspectNode_accepts (b := genSuspectBroadcast s) hfree' hr (hname n) (by rw [hheap]; rfl) ht
      (by rw [hheap]; rfl) e
  change (p.member.suspectNode cfg fl e (genSuspectBroadcast s)).nodeTimers n.repr = _
  rw [heq,← hload]
  exact startSuspicion_timer fl e s r

/-- The armed suspicion: both names that are taken from the count are in the table, and no more
confirmations are asked for than there are others to give them. The subtraction itself goes right
as long as the count has not wrapped to less than two. -/
theorem run_armed (cfg : Config) (fl : Floats) (leaveFd : ℤ) (e : Env) (ops : List Op) (op : Op)
    (x : String) (t : Suspicion)
    (hnone : (run cfg fl leaveFd e ops).member.nodeTimers x = none)
    (ht : ((run cfg fl leaveFd e ops).next cfg fl op).member.nodeTimers x = some t) :
    let table := (run cfg fl leaveFd e ops).member.table
    let n := table.numNodes.load
    2 ≤ table.nodes.length ∧ n = table.nodes.length % 2 ^ 32 ∧
      (table.others cfg x).length = table.nodes.length - 2 ∧
      (t.k = 0 ∨ t.k ≤ (table.others cfg x).length) ∧
      (2 ≤ table.nodes.length % 2 ^ 32 →
        2 ≤ n ∧ (n + (2 ^ 32 - 2)) % 2 ^ 32 = n - 2 ∧ (t.k = 0 ∨ t.k ≤ n - 2)) := by
  intro table n
  have hsound : (run cfg fl leaveFd e ops).member.Sound cfg := run_sound cfg fl leaveFd e ops
  obtain ⟨me,hme⟩ := hsound.known
  obtain ⟨hne,s,e',r,hr,rfl⟩ := next_arms hsound hnone ht
  have hothers : (table.others cfg x).length + 2 = table.nodes.length :=
    Table.length_others hme hr hne
  have hn : n = table.nodes.length % 2 ^ 32 := Table.numNodes_load _
  obtain ⟨hbyte,hk⟩ := newSuspicion_k cfg fl e' s n
  have hbound : (Member.newSuspicion cfg fl e' s n).k = 0 ∨
      (Member.newSuspicion cfg fl e' s n).k ≤ (table.others cfg x).length := by
    -- a count below two stands for at least `2 ^ 32` nodes, and `k` is a byte
    rcases hk with hk | hk <;> omega
  refine ⟨by omega,hn,by omega,hbound,fun hsmall => ?_⟩
  have hsub : (n + (2 ^ 32 - 2)) % 2 ^ 32 = n - 2 := by omega
  rw [hsub] at hk
  exact ⟨by omega,hsub,hk⟩

theorem run_armed_six : ∃ t : Suspicion, t.k = 2 ∧
    t.k ≤ (run (defaultLANConfig "node") .small 3 ⟨0,0,0,0,[],[]⟩
      (newcomers ⟨0,0,0,0,[],[]⟩ (4 + 1))).member.table.numNodes.load - 2 := by
  obtain ⟨hnone,hload,ht⟩ :=
    suspect_newcomer (defaultLANConfig "node") repr_ne_node .small 3 ⟨0,0,0,0,[],[]⟩ 4 "node"
  obtain ⟨-,hn,-,-,h⟩ := run_armed (defaultLANConfig "node") .small 3 ⟨0,0,0,0,[],[]⟩
    (newcomers ⟨0,0,0,0,[],[]⟩ (4 + 1)) _ _ _ hnone ht
  have hle := (h (by omega)).2.2
  have hk : (Member.newSuspicion (defaultLANConfig "node") .small ⟨0,0,0,0,[],[]⟩
      ⟨1,(4).repr,"node"⟩ ((4 + 2) % 2 ^ 32)).k = 2 := by
    simp [Member.newSuspicion,Suspicion.new,defaultLANConfig]
  exact ⟨_,hk,hle.resolve_left (by rw [hk]; decide)⟩

/-- With `2 ^ 32` nodes known the count reads zero, and the subtraction wraps. -/
theorem run_armed_wraps : ∃ p, p = run (defaultLANConfig "node") .small 3 ⟨0,0,0,0,[],[]⟩
      (newcomers ⟨0,0,0,0,[],[]⟩ (2 ^ 32 - 2 + 1)) ∧
    p.member.nodeTimers (2 ^ 32 - 2).repr = none ∧
    (∃ t, (p.next (defaultLANConfig "node") .small
        (.suspect (genSuspectBroadcast ⟨1,(2 ^ 32 - 2).repr,"node"⟩)
          ⟨0,0,0,0,[],[]⟩)).member.nodeTimers (2 ^ 32 - 2).repr = some t ∧ t.k = 2) ∧
    ¬2 ≤ p.member.table.numNodes.load ∧
    (p.member.table.numNodes.load + (2 ^ 32 - 2)) % 2 ^ 32 ≠
      p.member.table.numNodes.load - 2 := by
  obtain ⟨hnone,hload,ht⟩ := suspect_newcomer (defaultLANConfig "node") repr_ne_node .small 3
    ⟨0,0,0,0,[],[]⟩ (2 ^ 32 - 2) "node"
  refine ⟨_,rfl,hnone,⟨_,ht,?_⟩,by omega,by omega⟩
  simp [Member.newSuspicion,Suspicion.new,defaultLANConfig]

end Process

end GossipMemberlist
