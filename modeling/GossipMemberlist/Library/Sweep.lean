import GossipMemberlist.Library.OrderedList
import GossipMemberlist.Library.Transitions

/-!
# Sweeping over a vector that grows

A cursor visits the slots of a vector one after the other. Meanwhile a new element
can take any slot, whose old occupant moves to the end. What lies ahead of the
cursor stays there until it is visited, so a sweep misses nothing that was there
when it began.
-/

structure Sweep (α : Type*) where
  items : List α
  cursor : ℕ

namespace Sweep

open OrderedList Transitions

variable {α : Type*}

inductive Move (α : Type*)
  | visit
  | place (k : ℕ) (a : α)

def step (s : Sweep α) : Move α → Sweep α
  | .visit => { s with cursor := s.cursor + 1 }
  | .place k a => { s with items := placeAt k a s.items }

def ahead (s : Sweep α) : List α := s.items.drop s.cursor

theorem mem_drop_placeAt {k n : ℕ} {a x : α} {l : List α} (h : x ∈ l.drop n) :
    x ∈ (placeAt k a l).drop n := by
  obtain ⟨i,hi⟩ := List.mem_iff_getElem?.mp h
  rw [List.getElem?_drop] at hi
  refine List.mem_iff_getElem?.mpr ?_
  unfold placeAt
  cases hb : l[k % l.length]? with
  | none =>
    have hlt : n + i < l.length := (List.getElem?_eq_some_iff.mp hi).1
    exact ⟨i,by rw [List.getElem?_drop,List.getElem?_append_left hlt,hi]⟩
  | some b =>
    have hlt : n + i < l.length := (List.getElem?_eq_some_iff.mp hi).1
    by_cases hk : k % l.length = n + i
    · -- `x` was in the slot that is taken
      have hx : b = x := by
        rw [hk,hi] at hb
        exact (Option.some.inj hb).symm
      refine ⟨l.length - n,?_⟩
      rw [List.getElem?_drop,Nat.add_sub_cancel' (by omega),
        List.getElem?_set_ne (by omega),List.getElem?_append_right (Nat.le_refl _),hx]
      simp
    · refine ⟨i,?_⟩
      rw [List.getElem?_drop,List.getElem?_set_ne hk,List.getElem?_append_left hlt,hi]

theorem ahead_visit (s : Sweep α) :
    s.ahead = s.items[s.cursor]?.toList ++ (s.step .visit).ahead :=
  List.drop_eq_getElem?_toList_append

variable [DecidableEq α]

def visits (x : α) (s : Sweep α) : Move α → Bool
  | .visit => s.items[s.cursor]? = some x
  | .place _ _ => false

theorem visited_or_ahead {x : α} {s : Sweep α} (hx : x ∈ s.ahead) (moves : List (Move α)) :
    1 ≤ tally step (visits x) s moves ∨ x ∈ (run step s moves).ahead := by
  induction moves generalizing s with
  | nil => exact Or.inr hx
  | cons move moves ih =>
    cases move with
    | visit =>
      rw [ahead_visit,List.mem_append,Option.mem_toList] at hx
      rcases hx with hx | hx
      · left
        simp [tally,visits,hx]
      · exact (ih hx).imp_left fun h => Nat.le_trans h (Nat.le_add_left _ _)
    | place k a =>
      have hx' : x ∈ (s.step (.place k a)).ahead := mem_drop_placeAt hx
      exact (ih hx').imp_left fun h => Nat.le_trans h (Nat.le_add_left _ _)

theorem tally_visits {x : α} {s : Sweep α} {moves : List (Move α)}
    (hmoves : ∀ k a, .place k a ∉ moves) :
    tally step (visits x) s moves + (run step s moves).ahead.count x = s.ahead.count x := by
  induction moves generalizing s with
  | nil => simp
  | cons move moves ih =>
    cases move with
    | visit =>
      have hih := ih (s := s.step .visit) fun k a h => hmoves k a (List.mem_cons_of_mem _ h)
      have hcount : (visits x s .visit).toNat = s.items[s.cursor]?.toList.count x := by
        cases h : s.items[s.cursor]? with
        | none => simp [visits,h]
        | some y => by_cases hy : y = x <;> simp [visits,h,hy]
      rw [ahead_visit s,List.count_append,← hih,tally,hcount,run_cons,Nat.add_assoc]
    | place k a => exact absurd List.mem_cons_self (hmoves k a)

end Sweep
