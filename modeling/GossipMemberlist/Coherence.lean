import GossipMemberlist.Cell
import Mathlib.Data.List.Nodup

/-!
# The vector, the map and the count

The two containers always hold the same records. The count is a 32-bit estimate:
it agrees with the vector's size modulo `2 ^ 32`, and a long enough run of
newcomers takes it past its range.
-/

namespace GossipMemberlist

/-- The two containers of a member describe the same set of records. -/
structure Table.Coherent (t : Table) : Prop where
  distinct : (t.nodes.map fun r => (t.heap r).n.name).Nodup
  mapped : ∀ k r, t.nodeMap k = some r → ∀ r', r' = r ↔ r' ∈ t.nodes ∧ (t.heap r').n.name = k
  complete : ∀ r ∈ t.nodes, t.nodeMap (t.heap r).n.name = some r

theorem Table.coherent (t : Table) : t.Coherent where
  distinct := by
    refine (List.nodup_map_iff_inj_on t.nodup).mpr fun r hr r' hr' h => ?_
    have h₁ := nodeMap_of_mem hr
    rw [h,nodeMap_of_mem hr'] at h₁
    exact (Option.some.inj h₁).symm
  mapped := by
    intro k r hr r'
    constructor
    · rintro rfl
      exact ⟨(t.listed _).mpr ⟨k,hr⟩,t.named hr⟩
    · rintro ⟨hr',hk⟩
      have h := nodeMap_of_mem hr'
      rw [hk,hr] at h
      exact (Option.some.inj h).symm
  complete := fun _ hr => nodeMap_of_mem hr

theorem Table.numNodes_load (t : Table) : t.numNodes.load = t.nodes.length % 2 ^ 32 := by
  rw [WrapCounter.load,t.counted]

theorem repr_injective : Function.Injective Nat.repr := fun i j h => by
  have hdigits : Nat.toDigits 10 i = Nat.toDigits 10 j := by
    rw [← Nat.toList_repr,h,Nat.toList_repr]
  have heq := congrArg (fun ds => Nat.ofDigitChars 10 ds 0) hdigits
  simpa only [Nat.ofDigitChars_ten_toDigits] using heq

namespace Process

theorem run_coherent (cfg : Config) (fl : Floats) (leaveFd : ℤ) (e : Env) (ops : List Op) :
    let t := (run cfg fl leaveFd e ops).member.table
    t.Coherent ∧ t.numNodes.load = t.nodes.length % 2 ^ 32 :=
  ⟨Table.coherent _,Table.numNodes_load _⟩

def newcomers (e : Env) (n : ℕ) : List Op :=
  (List.range n).map fun i => .alive (genAliveBroadcast ⟨1,i.repr,"10.0.0.1",7946⟩) (-1) e

theorem run_newcomer {cfg : Config} {fl : Floats} {leaveFd : ℤ} {e : Env} {n : ℕ}
    (hname : n.repr ≠ cfg.name)
    (hfree : (run cfg fl leaveFd e (newcomers e n)).member.deadlocked = false)
    (hleave : (run cfg fl leaveFd e (newcomers e n)).member.leave = false)
    (hnone : (run cfg fl leaveFd e (newcomers e n)).member.table.nodeMap n.repr = none) :
    let m := (run cfg fl leaveFd e (newcomers e n)).member
    let a : Alive := ⟨1,n.repr,"10.0.0.1",7946⟩
    (run cfg fl leaveFd e (newcomers e (n + 1))).member =
      ((m.addNode e a).setTimer a.node none).acceptAlive e a (-1) m.table.next := by
  intro m a
  rw [newcomers,List.range_succ,List.map_append,run,Transitions.run_append]
  exact aliveNode_new (b := genAliveBroadcast a) hfree hleave hnone Nat.one_pos
    (fun _ => hname) e (-1)

theorem run_newcomers {cfg : Config} (hname : ∀ i : ℕ, i.repr ≠ cfg.name) (fl : Floats)
    (leaveFd : ℤ) (e : Env) (n : ℕ) :
    let m := (run cfg fl leaveFd e (newcomers e n)).member
    m.deadlocked = false ∧ m.leave = false ∧ m.table.nodes.length = n + 1 ∧
      ∀ i, n ≤ i → m.table.nodeMap i.repr = none := by
  induction n with
  | zero =>
    have hcell := (start_cell cfg leaveFd e).2
    have hlen : (start cfg leaveFd e).member.table.nodes.length = 1 := by
      rw [start_member]
      rfl
    obtain ⟨hleave,-,-,-,hfree⟩ := start_locals cfg leaveFd e
    exact ⟨hfree,hleave,hlen,fun i _ => Table.find_eq_none.mp (hcell _ (hname i)).record_eq⟩
  | succ n ih =>
    obtain ⟨hfree,hleave,hlen,hnone⟩ := ih
    set p := run cfg fl leaveFd e (newcomers e n) with hp
    let a : Alive := ⟨1,n.repr,"10.0.0.1",7946⟩
    have hnone' := hnone n (le_refl n)
    rw [run_newcomer (hname n) hfree hleave hnone']
    refine ⟨hfree,hleave,?_,fun i hi => ?_⟩
    · exact (Table.length_insert (s := Member.newNodeState e a) hnone' e.rand).trans (by rw [hlen])
    · have hne : i.repr ≠ a.node := fun h => by
        have heq : i = n := repr_injective h
        omega
      have hmap := Table.nodeMap_insert (s := Member.newNodeState e a) hnone' e.rand
      exact (congrFun hmap i.repr).trans ((Function.update_of_ne hne _ _).trans
        (hnone i (Nat.le_of_succ_le hi)))

theorem newcomers_wrap {cfg : Config} (hname : ∀ i : ℕ, i.repr ≠ cfg.name) (fl : Floats)
    (leaveFd : ℤ) (e : Env) {n : ℕ} (hn : 2 ^ 32 ≤ n) :
    (run cfg fl leaveFd e (newcomers e n)).member.table.numNodes.load ≠
      (run cfg fl leaveFd e (newcomers e n)).member.table.nodes.length := by
  obtain ⟨-,-,hlen,-⟩ := run_newcomers hname fl leaveFd e n
  have hlt := (run cfg fl leaveFd e (newcomers e n)).member.table.numNodes.load_lt
  omega

theorem repr_ne_node (i : ℕ) : i.repr ≠ "node" := fun h => by
  have hmem : 'n' ∈ i.repr.toList := by
    rw [h]
    decide
  rw [Nat.toList_repr] at hmem
  exact absurd (Nat.isDigit_of_mem_toDigits (by decide) (by decide) hmem) (by decide)

theorem numNodes_wraps :
    (run (defaultLANConfig "node") .small 3 ⟨0,0,0,0,[],[]⟩
      (newcomers ⟨0,0,0,0,[],[]⟩ (2 ^ 32))).member.table.numNodes.load ≠
    (run (defaultLANConfig "node") .small 3 ⟨0,0,0,0,[],[]⟩
      (newcomers ⟨0,0,0,0,[],[]⟩ (2 ^ 32))).member.table.nodes.length :=
  newcomers_wrap repr_ne_node .small 3 ⟨0,0,0,0,[],[]⟩ (le_refl _)

end Process

end GossipMemberlist
