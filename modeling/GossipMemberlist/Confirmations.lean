import GossipMemberlist.Suspicion
import GossipMemberlist.Library.Transitions
import Mathlib.Data.Finset.Card
import Mathlib.Data.List.Dedup

/-!
# Counting confirmations

A suspicion counts the names it hears from. `Confirm` stops counting when it has
more than the number it wants, so it counts one name too many.
-/

namespace GossipMemberlist
namespace Suspicion

inductive Event
  | confirm (from_ : String) (now : ℤ)
  | ended

variable (fl : Floats)

def next (t : Suspicion) : Event → Suspicion
  | .confirm from_ now => (t.confirm fl now from_).1
  | .ended => { t with running := false }

def accepts (t : Suspicion) : Event → Bool
  | .confirm from_ now => (t.confirm fl now from_).2 ≠ .refused
  | .ended => false

def heard : List Event → List String
  | [] => []
  | .confirm from_ _::evs => from_::heard evs
  | .ended::evs => heard evs

def counted : Suspicion → List Event → List String
  | _, [] => []
  | t, e::evs => (if accepts fl t e then heard [e] else []) ++ counted (next fl t e) evs

def distinct (from_ : String) (evs : List Event) : Finset String := (heard evs).toFinset.erase from_

/-- What the comments promise of a sequence of calls on a suspicion that wants `k` names. -/
structure Disciplined (from_ : String) (k : ℕ) (t : Suspicion) (evs : List Event) : Prop where
  /-- As many calls return true as there are names, up to `k`. -/
  count : Transitions.tally (next fl) (accepts fl) t evs = Min.min k (distinct from_ evs).card
  once : (counted fl t evs).Nodup
  bounded : Transitions.Along (next fl) (fun t e => t.n ≤ k ∧ (next fl t e).n ≤ k) t evs
  /-- An accepted call works out the remaining time, with the new `n`. -/
  evaluated : Transitions.Along (next fl)
    (fun t e => accepts fl t e = true → 1 ≤ (next fl t e).n ∧ (next fl t e).n ≤ k) t evs

variable {fl} {t : Suspicion} {from_ : String} {k : ℕ}

theorem heard_append (evs evs' : List Event) : heard (evs ++ evs') = heard evs ++ heard evs' := by
  induction evs with
  | nil => rfl
  | cons e evs ih => cases e <;> simp [heard,ih]

theorem counted_snoc (evs : List Event) (e : Event) : counted fl t (evs ++ [e]) =
    counted fl t evs ++
      if accepts fl (Transitions.run (next fl) t evs) e then heard [e] else [] := by
  induction evs generalizing t with
  | nil => exact List.append_nil _
  | cons e' evs ih =>
    rw [List.cons_append,counted,ih,counted,List.append_assoc]
    rfl

/-- A call is refused without a trace, or counts a name that was not heard before. -/
theorem next_cases (fl : Floats) (t : Suspicion) (e : Event) :
    (accepts fl t e = false ∧ (next fl t e).n = t.n ∧ (next fl t e).k = t.k ∧
      (next fl t e).confirmations = t.confirmations ∧
      (t.k < t.n ∨ ∀ x ∈ heard [e], x ∈ t.confirmations)) ∨
    ∃ x now, e = .confirm x now ∧ accepts fl t e = true ∧ t.n ≤ t.k ∧ x ∉ t.confirmations ∧
      (next fl t e).n = t.n + 1 ∧ (next fl t e).k = t.k ∧
      (next fl t e).confirmations = x::t.confirmations := by
  cases e with
  | ended => exact Or.inl ⟨rfl,rfl,rfl,rfl,Or.inr (by simp [heard])⟩
  | confirm x now =>
    rcases confirm_cases fl now x t with ⟨hwhy,he⟩ | ⟨⟨hle,hx⟩,⟨-,he⟩ | ⟨-,-,he⟩ | ⟨-,-,he⟩⟩
    · refine Or.inl ⟨by simp [accepts,he],by rw [next,he],by rw [next,he],by rw [next,he],?_⟩
      exact hwhy.imp_right fun h => by simpa [heard] using h
    all_goals
      refine Or.inr ⟨x,now,rfl,by simp [accepts,he],hle,hx,?_⟩
      simp [next,he,count]

/-- A suspicion after calls that gave the names `xs` and counted `ys`. -/
structure Counts (from_ : String) (k : ℕ) (xs ys : List String) (t : Suspicion) : Prop where
  wants : t.k = k
  n : t.n = ys.length
  le : t.n ≤ k + 1
  names : t.confirmations = ys.reverse ++ [from_]
  nodup : t.confirmations.Nodup
  sub : ys ⊆ xs
  all : t.n ≤ k → ∀ x ∈ xs, x ∈ t.confirmations

theorem Counts.new (from_ : String) (k : ℕ) (min max start : ℤ) (f : Callback) :
    (new from_ k min max start f).Counts from_ k [] [] :=
  ⟨rfl,rfl,Nat.zero_le _,rfl,List.nodup_singleton _,List.nil_subset _,by simp⟩

theorem Counts.next {xs ys : List String} (h : t.Counts from_ k xs ys) (e : Event) :
    (next fl t e).Counts from_ k (xs ++ heard [e])
      (ys ++ if accepts fl t e then heard [e] else []) := by
  rcases next_cases fl t e with ⟨ha,hn,hk,hc,hwhy⟩ | ⟨x,now,rfl,ha,hle,hx,hn,hk,hc⟩
  · rw [ha,if_neg (by simp),List.append_nil]
    refine ⟨hk.trans h.wants,hn.trans h.n,hn ▸ h.le,hc.trans h.names,hc ▸ h.nodup,
      fun y hy => List.mem_append_left _ (h.sub hy),fun hle y hy => ?_⟩
    rw [hn] at hle
    rw [hc]
    rcases List.mem_append.mp hy with hy | hy
    · exact h.all hle y hy
    · exact hwhy.resolve_left (by have := h.wants; omega) y hy
  · rw [ha,if_pos rfl]
    have hone : heard [.confirm x now] = [x] := rfl
    rw [hone]
    refine ⟨hk.trans h.wants,by simp [hn,h.n],by have := h.wants; omega,by simp [hc,h.names],?_,?_,
      fun _ y hy => ?_⟩
    · rw [hc]
      exact List.nodup_cons.mpr ⟨hx,h.nodup⟩
    · exact List.append_subset.mpr ⟨fun y hy => List.mem_append_left _ (h.sub hy),
        List.subset_append_right _ _⟩
    · rw [hc]
      rcases List.mem_append.mp hy with hy | hy
      · exact List.mem_cons_of_mem x (h.all (h.wants ▸ hle) y hy)
      · exact List.mem_singleton.mp hy ▸ List.mem_cons_self

theorem Counts.run (fl : Floats) (from_ : String) (k : ℕ) (min max start : ℤ) (f : Callback)
    (evs : List Event) :
    (Transitions.run (Suspicion.next fl) (Suspicion.new from_ k min max start f) evs).Counts from_ k
      (heard evs) (counted fl (Suspicion.new from_ k min max start f) evs) := by
  induction evs using List.reverseRecOn with
  | nil => exact Counts.new from_ k min max start f
  | append_singleton evs e ih =>
    rw [Transitions.run_snoc,heard_append,counted_snoc]
    exact ih.next e

/-- The count goes one past the number that is wanted. -/
theorem Counts.card {xs ys : List String} (h : t.Counts from_ k xs ys) :
    t.n = Min.min (k + 1) (xs.toFinset.erase from_).card := by
  have hnodup : (ys.reverse ++ [from_]).Nodup := h.names ▸ h.nodup
  have hnot : from_ ∉ ys := fun hf =>
    (List.nodup_append.mp hnodup).2.2 from_ (List.mem_reverse.mpr hf) from_ (by simp) rfl
  have hys : ys.toFinset.card = t.n := by
    rw [h.n]
    exact List.toFinset_card_of_nodup (List.nodup_reverse.mp (List.nodup_append.mp hnodup).1)
  have hsub : ys.toFinset ⊆ xs.toFinset.erase from_ := fun x hx => by
    have hx := List.mem_toFinset.mp hx
    exact Finset.mem_erase.mpr ⟨fun he => hnot (he ▸ hx),List.mem_toFinset.mpr (h.sub hx)⟩
  have hle := Finset.card_le_card hsub
  have hbound := h.le
  by_cases hn : t.n ≤ k
  · have heq : ys.toFinset = xs.toFinset.erase from_ := by
      refine hsub.antisymm fun x hx => ?_
      obtain ⟨hne,hx⟩ := Finset.mem_erase.mp hx
      have hmem := h.all hn x (List.mem_toFinset.mp hx)
      rw [h.names] at hmem
      simpa [hne] using hmem
    rw [← heq]
    omega
  · omega

theorem tally_counted (t : Suspicion) (evs : List Event) :
    Transitions.tally (next fl) (accepts fl) t evs = (counted fl t evs).length := by
  induction evs generalizing t with
  | nil => rfl
  | cons e evs ih =>
    rw [Transitions.tally,ih,counted,List.length_append]
    congr 1
    cases h : accepts fl t e with
    | false => rfl
    | true =>
      cases e with
      | confirm => rfl
      | ended => cases h

theorem along_bounded (t : Suspicion) (evs : List Event)
    (h : (Transitions.run (next fl) t evs).n ≤ k) :
    Transitions.Along (next fl) (fun t e => t.n ≤ k ∧ (next fl t e).n ≤ k) t evs ∧
      Transitions.Along (next fl)
        (fun t e => accepts fl t e = true → 1 ≤ (next fl t e).n ∧ (next fl t e).n ≤ k) t evs := by
  have hstep : ∀ (t : Suspicion) (e : Event), t.n ≤ (next fl t e).n := fun t e => by
    rcases next_cases fl t e with ⟨-,hn,-⟩ | ⟨-,-,-,-,-,-,hn,-⟩ <;> omega
  induction evs generalizing t with
  | nil => exact ⟨trivial,trivial⟩
  | cons e evs ih =>
    have hle : (next fl t e).n ≤ k := (Transitions.run_mono hstep _ evs).trans h
    obtain ⟨h₁,h₂⟩ := ih (next fl t e) h
    refine ⟨⟨⟨(hstep t e).trans hle,hle⟩,h₁⟩,fun ha => ⟨?_,hle⟩,h₂⟩
    rcases next_cases fl t e with ⟨hno,-⟩ | ⟨-,-,-,-,-,-,hn,-⟩
    · rw [hno] at ha
      cases ha
    · omega

/-- The comments hold of a sequence of calls exactly when it gives no more names than wanted. -/
theorem disciplined_iff (fl : Floats) (from_ : String) (k : ℕ) (min max start : ℤ) (f : Callback)
    (evs : List Event) :
    Disciplined fl from_ k (Suspicion.new from_ k min max start f) evs ↔
      (distinct from_ evs).card ≤ k := by
  have hrun := Counts.run fl from_ k min max start f evs
  have hcard := hrun.card
  have hn := hrun.n
  change _ = Min.min _ (distinct from_ evs).card at hcard
  constructor
  · intro h
    have hcount := h.count
    rw [tally_counted] at hcount
    omega
  · intro h
    have hnk : (Transitions.run (next fl) (Suspicion.new from_ k min max start f) evs).n ≤ k := by
      rw [hcard]
      exact (Nat.min_le_right _ _).trans h
    obtain ⟨hb,he⟩ := along_bounded _ evs hnk
    have hnodup := hrun.nodup
    rw [hrun.names] at hnodup
    refine ⟨?_,List.nodup_reverse.mp (List.nodup_append.mp hnodup).1,hb,he⟩
    rw [tally_counted,← hn,hcard,Nat.min_eq_right (by omega),Nat.min_eq_right h]

/-- One accuser more than a suspicion wants that wants none. -/
theorem not_disciplined_zero :
    ¬Disciplined .small "a" 0 (new "a" 0 1000 6000 0 ⟨⟨1,"x","a"⟩,0⟩) [.confirm "b" 10] := by
  intro h
  exact absurd h.count (by decide)

end Suspicion
end GossipMemberlist
