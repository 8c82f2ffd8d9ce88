import Mathlib.Algebra.Ring.Nat
import Mathlib.Data.List.Basic
import Mathlib.Data.List.Nodup
import Mathlib.Tactic.SplitIfs

/-!
# Greedy passes over a list

Elements with a cost are taken from left to right as long as they fit into a
room that shrinks. An implementation that looks for the first element that fits,
takes it out and starts again computes the same selection, because an element
that was too large once stays too large.
-/

namespace Greedy

variable {α : Type*} (cost : α → ℕ)

/-- Take whatever still fits. -/
def scan : ℕ → List α → List α
  | _, [] => []
  | room, a::l => if cost a ≤ room then a::scan (room - cost a) l else scan room l

/-- The same, but give up as soon as no room is left. -/
def scanOpen : ℕ → List α → List α
  | _, [] => []
  | room, a::l =>
    if room = 0 then []
    else if cost a ≤ room then a::scanOpen (room - cost a) l
    else scanOpen room l

@[simp] theorem scanOpen_nil (room : ℕ) : scanOpen cost room [] = [] := rfl

@[simp] theorem scanOpen_zero (l : List α) : scanOpen cost 0 l = [] := by
  cases l <;> rfl

variable {cost} {room : ℕ} {l : List α}

theorem scanOpen_eq_scan (h : ∀ a ∈ l, 0 < cost a) : scanOpen cost room l = scan cost room l := by
  induction l generalizing room with
  | nil => rfl
  | cons a l ih =>
    have hl : ∀ b ∈ l, 0 < cost b := fun b hb => h b (List.mem_cons_of_mem a hb)
    have ha := h a List.mem_cons_self
    simp only [scanOpen,scan]
    split_ifs with h₀ hfit hfit
    · omega
    · subst h₀
      rw [← ih hl,scanOpen_zero]
    · rw [ih hl]
    · exact ih hl

theorem scanOpen_sublist (room : ℕ) (l : List α) : (scanOpen cost room l).Sublist l := by
  induction l generalizing room with
  | nil => exact List.Sublist.refl _
  | cons a l ih =>
    simp only [scanOpen]
    split_ifs
    · exact List.nil_sublist _
    · exact (ih _).cons_cons a
    · exact (ih room).cons a

theorem scanOpen_eq_nil_iff : scanOpen cost room l = [] ↔ room = 0 ∨ ∀ a ∈ l, room < cost a := by
  induction l with
  | nil => simp
  | cons a l ih =>
    simp only [scanOpen]
    split_ifs with h₀ hfit
    · simp [h₀]
    · simp [h₀]
      omega
    · simp only [ih,h₀,false_or,List.forall_mem_cons]
      exact ⟨fun h => ⟨by omega,h⟩,fun h => h.2⟩

theorem scanOpen_append (room : ℕ) (l l' : List α) : scanOpen cost room (l ++ l') =
    scanOpen cost room l ++ scanOpen cost (room - ((scanOpen cost room l).map cost).sum) l' := by
  induction l generalizing room with
  | nil => simp
  | cons a l ih =>
    simp only [List.cons_append,scanOpen]
    split_ifs with h₀ hfit
    · simp [h₀]
    · simp [ih,Nat.sub_sub]
    · exact ih room

theorem scanOpen_find [DecidableEq α] {a : α} (h₀ : room ≠ 0) (hl : l.Nodup)
    (ha : l.find? (fun b => cost b ≤ room) = some a) :
    scanOpen cost room l = a::scanOpen cost (room - cost a) (l.filter (· ≠ a)) := by
  induction l with
  | nil => cases ha
  | cons b l ih =>
    obtain ⟨hb,hl'⟩ := List.nodup_cons.mp hl
    rw [scanOpen,if_neg h₀]
    by_cases hfit : cost b ≤ room
    · obtain rfl : b = a := by simpa [List.find?_cons,hfit] using ha
      have hrest : (b::l).filter (· ≠ b) = l := by
        rw [List.filter_cons_of_neg (by simp)]
        exact List.filter_eq_self.mpr fun c hc => by
          simpa using fun he : c = b => hb (he ▸ hc)
      rw [if_pos hfit,hrest]
    · have ha' : l.find? (fun b => cost b ≤ room) = some a := by
        simpa [List.find?_cons,hfit] using ha
      have hne : b ≠ a := fun he => hb (he ▸ List.mem_of_find?_eq_some ha')
      have hrest : (b::l).filter (· ≠ a) = b::l.filter (· ≠ a) :=
        List.filter_cons_of_pos (by simpa using hne)
      rw [if_neg hfit,ih hl' ha',hrest]
      by_cases hr : room - cost a = 0
      · rw [hr,scanOpen_zero,scanOpen_zero]
      · rw [scanOpen,if_neg hr,if_neg (by omega)]

section Account

variable {σ : Type*} (cost) (add : σ → α → σ) (ok : σ → Prop)

/-- Whatever the pass takes leaves a running account in order. -/
def Keeps : σ → ℕ → List α → Prop
  | _, _, [] => True
  | s, room, a::l =>
    if room = 0 then True
    else if cost a ≤ room then ok (add s a) ∧ Keeps (add s a) (room - cost a) l
    else Keeps s room l

instance Keeps.decidable [DecidablePred ok] : ∀ s room l, Decidable (Keeps cost add ok s room l)
  | _, _, [] => isTrue trivial
  | s, room, a::l =>
    haveI := Keeps.decidable (add s a) (room - cost a) l
    haveI := Keeps.decidable s room l
    inferInstanceAs (Decidable (if room = 0 then True
      else if cost a ≤ room then ok (add s a) ∧ Keeps cost add ok (add s a) (room - cost a) l
      else Keeps cost add ok s room l))

variable {cost add ok}

variable (add ok) in
theorem not_ok_foldl (hmono : ∀ s a, ok (add s a) → ok s) {s : σ} (hs : ¬ok s) (l : List α) :
    ¬ok (l.foldl add s) := by
  induction l generalizing s with
  | nil => exact hs
  | cons a l ih => exact ih fun h => hs (hmono s a h)

variable (cost add ok) in
/-- An account that nothing added later can repair is in order at the end exactly when
it always was. -/
theorem keeps_iff (hmono : ∀ s a, ok (add s a) → ok s) (s : σ) (room : ℕ) (l : List α) :
    Keeps cost add ok s room l ↔
      scanOpen cost room l = [] ∨ ok ((scanOpen cost room l).foldl add s) := by
  induction l generalizing room s with
  | nil => simp [Keeps]
  | cons a l ih =>
    simp only [Keeps,scanOpen]
    split_ifs with h₀ hfit
    · simp
    · by_cases ha : ok (add s a)
      · have hempty : scanOpen cost (room - cost a) l = [] →
            ok ((scanOpen cost (room - cost a) l).foldl add (add s a)) := fun h => by
          rwa [h]
        simp [ha,ih,or_iff_right_of_imp hempty]
      · simp [ha,not_ok_foldl add ok hmono ha]
    · exact ih s room

end Account

theorem filter_least (key : α → ℕ) {k : ℕ} (hl : l.Pairwise fun a b => key a ≤ key b)
    (hk : ∀ a ∈ l, k ≤ key a) :
    l.filter (fun a => key a = k) ++ l.filter (fun a => key a ≠ k) = l := by
  induction l with
  | nil => rfl
  | cons a l ih =>
    obtain ⟨ha,hl'⟩ := List.pairwise_cons.mp hl
    by_cases hka : key a = k
    · simpa [hka] using ih hl' fun b hb => hk b (List.mem_cons_of_mem a hb)
    · have hne : ∀ b ∈ l, key b ≠ k := fun b hb => by
        have h₁ := ha b hb
        have h₂ := hk a List.mem_cons_self
        omega
      have hnone : l.filter (fun b => key b = k) = [] :=
        List.filter_eq_nil_iff.mpr fun b hb => by simpa using hne b hb
      have hall : l.filter (fun b => key b ≠ k) = l :=
        List.filter_eq_self.mpr fun b hb => by simpa using hne b hb
      rw [List.filter_cons_of_neg (by simpa using hka),List.filter_cons_of_pos (by simpa using hka),
        hnone,hall,List.nil_append]

theorem flatMap_tiers (key : α → ℕ) (k n : ℕ) (hl : l.Pairwise fun a b => key a ≤ key b)
    (hk : ∀ a ∈ l, k ≤ key a ∧ key a < k + n) :
    ((List.range' k n).flatMap fun i => l.filter fun a => key a = i) = l := by
  induction n generalizing k l with
  | zero =>
    refine (List.eq_nil_iff_forall_not_mem.mpr fun a ha => ?_).symm
    have := hk a ha
    omega
  | succ n ih =>
    have hsplit := filter_least key hl fun a ha => (hk a ha).1
    have hrest := ih (k + 1) (hl.sublist (List.filter_sublist (p := fun a => key a ≠ k)))
      fun a ha => by
        obtain ⟨ha,hne⟩ := List.mem_filter.mp ha
        have := hk a ha
        have : key a ≠ k := by simpa using hne
        omega
    have htiers : ((List.range' (k + 1) n).flatMap fun i => l.filter fun a => key a = i) =
        l.filter fun a => key a ≠ k := by
      rw [← hrest]
      refine List.flatMap_congr fun i hi => ?_
      have hi := (List.mem_range'_1.mp hi).1
      rw [List.filter_filter]
      refine List.filter_congr fun a _ => ?_
      by_cases hai : key a = i
      · simpa [hai] using (show i ≠ k by omega)
      · simp [hai]
    rw [List.range'_succ,List.flatMap_cons,htiers,hsplit]

end Greedy
