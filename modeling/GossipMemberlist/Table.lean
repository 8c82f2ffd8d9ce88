import GossipMemberlist.Config
import GossipMemberlist.Library.OrderedList
import GossipMemberlist.Library.WrapCounter
import Mathlib.Logic.Function.Basic

/-!
# The node table

Records live on a heap, because the vector `nodes` and the map `nodeMap` share
them by pointer. A `Table` carries the proof that the two containers and the
counter agree, so a table in which they do not cannot be built.
-/

namespace GossipMemberlist

inductive NodeStateType
  | stateAlive | stateSuspect | stateDead | stateLeft
  deriving DecidableEq

structure Node where
  name : String
  addr : String
  port : UInt16
  deriving DecidableEq

structure NodeState where
  n : Node
  incarnation : ℕ
  state : NodeStateType
  stateChange : ℤ
  deriving DecidableEq

def NodeState.deadOrLeft (s : NodeState) : Bool := s.state = .stateDead ∨ s.state = .stateLeft

structure Table where
  heap : ℕ → NodeState
  next : ℕ
  nodes : List ℕ
  nodeMap : String → Option ℕ
  numNodes : WrapCounter 32
  named : ∀ {x r}, nodeMap x = some r → (heap r).n.name = x
  allocated : ∀ {x r}, nodeMap x = some r → r < next
  listed : ∀ r, r ∈ nodes ↔ ∃ x, nodeMap x = some r
  nodup : nodes.Nodup
  counted : numNodes.total = nodes.length

namespace Table

open OrderedList

def empty : Table where
  heap := fun _ => ⟨⟨"","",0⟩,0,.stateDead,0⟩
  next := 0
  nodes := []
  nodeMap := fun _ => none
  numNodes := .zero
  named := by simp
  allocated := by simp
  listed := by simp
  nodup := List.nodup_nil
  counted := rfl

/-- Store a record under a new name: in the map, at a random offset of the
vector, and in the count. -/
def insert (rand : ℕ) (s : NodeState) (t : Table) : Table :=
  if h : t.nodeMap s.n.name = none then
    { heap := Function.update t.heap t.next s
      next := t.next + 1
      nodes := placeAt rand t.next t.nodes
      nodeMap := Function.update t.nodeMap s.n.name (some t.next)
      numNodes := t.numNodes.fetchAdd 1
      named := by
        intro x r hr
        by_cases hx : x = s.n.name
        · have hn : t.next = r := by simpa [hx] using hr
          simp [← hn,hx]
        · rw [Function.update_of_ne hx] at hr
          rw [Function.update_of_ne (Nat.ne_of_lt (t.allocated hr))]
          exact t.named hr
      allocated := by
        intro x r hr
        by_cases hx : x = s.n.name
        · have hn : t.next = r := by simpa [hx] using hr
          omega
        · rw [Function.update_of_ne hx] at hr
          exact Nat.lt_succ_of_lt (t.allocated hr)
      listed := by
        intro r
        rw [(placeAt_perm rand t.next t.nodes).mem_iff,List.mem_cons,t.listed]
        constructor
        · rintro (rfl | ⟨x,hx⟩)
          · exact ⟨s.n.name,by simp⟩
          · have hne : x ≠ s.n.name := fun he => by rw [he,h] at hx; cases hx
            exact ⟨x,by rwa [Function.update_of_ne hne]⟩
        · rintro ⟨x,hx⟩
          by_cases he : x = s.n.name
          · exact Or.inl (by simpa [he,eq_comm] using hx)
          · exact Or.inr ⟨x,by rwa [Function.update_of_ne he] at hx⟩
      nodup := by
        rw [(placeAt_perm rand t.next t.nodes).nodup_iff,List.nodup_cons]
        refine ⟨fun hm => ?_,t.nodup⟩
        obtain ⟨x,hx⟩ := (t.listed _).mp hm
        exact Nat.lt_irrefl _ (t.allocated hx)
      counted := by
        simp [(placeAt_perm rand t.next t.nodes).length_eq,t.counted] }
  else t

/-- Write through a pointer; no write of the source changes a record's name. -/
def modify (r : ℕ) (f : NodeState → NodeState) (hf : ∀ s, (f s).n.name = s.n.name)
    (t : Table) : Table :=
  { t with
    heap := Function.update t.heap r (f (t.heap r))
    named := by
      intro x r' hr
      by_cases he : r' = r
      · subst he; simpa [hf] using t.named hr
      · simpa [Function.update_of_ne he] using t.named hr }

/-- `random_shuffle`; the argument is the order it produces. -/
def shuffle (shuffled : List ℕ) (t : Table) : Table :=
  if h : shuffled.Perm t.nodes then
    { t with
      nodes := shuffled
      listed := fun r => by rw [h.mem_iff,t.listed]
      nodup := h.nodup_iff.mpr t.nodup
      counted := by rw [h.length_eq,t.counted] }
  else t

def find (x : String) (t : Table) : Option NodeState := (t.nodeMap x).map t.heap

theorem find_eq {t : Table} {x : String} {r : ℕ} (h : t.nodeMap x = some r) :
    t.find x = some (t.heap r) := by simp [find,h]

theorem find_name {t : Table} {x : String} {s : NodeState} (h : t.find x = some s) :
    s.n.name = x := by
  obtain ⟨r,hr,rfl⟩ := Option.map_eq_some_iff.mp h
  exact t.named hr

theorem find_eq_none {t : Table} {x : String} : t.find x = none ↔ t.nodeMap x = none := by
  simp [find]

theorem nodeMap_inj {t : Table} {x y : String} {r : ℕ} (hx : t.nodeMap x = some r)
    (hy : t.nodeMap y = some r) : x = y := (t.named hx).symm.trans (t.named hy)

theorem nodeMap_of_mem {t : Table} {r : ℕ} (h : r ∈ t.nodes) :
    t.nodeMap (t.heap r).n.name = some r := by
  obtain ⟨x,hx⟩ := (t.listed r).mp h
  rw [t.named hx]
  exact hx

theorem nodeMap_insert {t : Table} {s : NodeState} (h : t.nodeMap s.n.name = none) (rand : ℕ) :
    (t.insert rand s).nodeMap = Function.update t.nodeMap s.n.name (some t.next) := by
  simp [insert,h]

theorem heap_insert {t : Table} {s : NodeState} (h : t.nodeMap s.n.name = none) (rand : ℕ) :
    (t.insert rand s).heap t.next = s := by
  simp [insert,h]

theorem length_insert {t : Table} {s : NodeState} (h : t.nodeMap s.n.name = none) (rand : ℕ) :
    (t.insert rand s).nodes.length = t.nodes.length + 1 := by
  simp [insert,h,(placeAt_perm rand t.next t.nodes).length_eq]

theorem modify_insert {t : Table} {s : NodeState} (h : t.nodeMap s.n.name = none) (rand : ℕ)
    (f : NodeState → NodeState) (hf : ∀ s, (f s).n.name = s.n.name) :
    (t.insert rand s).modify t.next f hf = t.insert rand (f s) := by
  simp [insert,modify,h,hf]

theorem find_insert {t : Table} {s : NodeState} (h : t.nodeMap s.n.name = none) (rand : ℕ)
    (x : String) : (t.insert rand s).find x = if x = s.n.name then some s else t.find x := by
  split
  · rename_i hx
    simp [find,insert,h,hx]
  · rename_i hx
    cases hr : t.nodeMap x with
    | none => simp [find,insert,h,hr,Function.update_of_ne hx]
    | some r =>
      simp [find,insert,h,hr,Function.update_of_ne hx,
        Function.update_of_ne (Nat.ne_of_lt (t.allocated hr))]

theorem find_modify {t : Table} {y : String} {r : ℕ} (hr : t.nodeMap y = some r)
    (f : NodeState → NodeState) (hf : ∀ s, (f s).n.name = s.n.name) (x : String) :
    (t.modify r f hf).find x = if x = y then some (f (t.heap r)) else t.find x := by
  split
  · rename_i hx
    simp [find,modify,hx,hr]
  · rename_i hx
    cases hr' : t.nodeMap x with
    | none => simp [find,modify,hr']
    | some r' =>
      have hne : r' ≠ r := fun he => hx (t.nodeMap_inj (he ▸ hr') hr)
      simp [find,modify,hr',Function.update_of_ne hne]

@[simp] theorem nodeMap_shuffle (ns : List ℕ) (t : Table) : (t.shuffle ns).nodeMap = t.nodeMap := by
  unfold shuffle
  split <;> rfl

@[simp] theorem find_shuffle (ns : List ℕ) (t : Table) (x : String) :
    (t.shuffle ns).find x = t.find x := by
  unfold shuffle
  split <;> rfl

end Table
end GossipMemberlist
