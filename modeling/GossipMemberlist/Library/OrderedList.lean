import Mathlib.Data.List.Basic
import Mathlib.Data.List.Perm.Basic

/-!
# Ordered sets and vectors as lists

The parts of ordered sets (`std::set` with a comparator) and of vectors that
programs rely on: insertion drops an element equivalent to a present one, the
bounds are positions in the order, and a new element can take a random slot
whose old occupant moves to the end.
-/

namespace OrderedList

variable {α : Type*}

/-- Insertion into a set ordered by the strict comparator `lt`. -/
def insertNew (lt : α → α → Bool) (a : α) : List α → List α
  | [] => [a]
  | b::l => if lt a b then a::b::l else if lt b a then b::insertNew lt a l else b::l

theorem insertNew_eq_or_perm (lt : α → α → Bool) (a : α) (l : List α) :
    insertNew lt a l = l ∨ (insertNew lt a l).Perm (a::l) := by
  induction l with
  | nil => exact Or.inr (List.Perm.refl _)
  | cons b l ih =>
    simp only [insertNew]
    split
    · exact Or.inr (List.Perm.refl _)
    · split
      · rcases ih with h | h
        · exact Or.inl (by rw [h])
        · exact Or.inr ((h.cons b).trans (List.Perm.swap a b l))
      · exact Or.inl rfl

theorem mem_insertNew {lt : α → α → Bool} {a x : α} {l : List α}
    (h : x ∈ insertNew lt a l) : x = a ∨ x ∈ l := by
  rcases insertNew_eq_or_perm lt a l with he | hp
  · exact Or.inr (he ▸ h)
  · exact List.mem_cons.mp (hp.mem_iff.mp h)

section Sorted

variable {lt : α → α → Bool} {a : α} {l : List α}

theorem insertNew_perm (h : ∀ b ∈ l, lt a b ∨ lt b a) : (insertNew lt a l).Perm (a::l) := by
  induction l with
  | nil => exact List.Perm.refl _
  | cons b l ih =>
    simp only [insertNew]
    by_cases hab : lt a b
    · rw [if_pos hab]
    · rw [if_neg hab,if_pos ((h b (by simp)).resolve_left hab)]
      exact ((ih fun c hc => h c (by simp [hc])).cons b).trans (List.Perm.swap a b l)

variable (htrans : ∀ a b c, lt a b → lt b c → lt a c)
include htrans

theorem insertNew_sorted (hl : l.Pairwise (lt · ·)) : (insertNew lt a l).Pairwise (lt · ·) := by
  induction l with
  | nil => simp [insertNew]
  | cons b l ih =>
    obtain ⟨hb,hl'⟩ := List.pairwise_cons.mp hl
    simp only [insertNew]
    split
    · rename_i hab
      refine List.pairwise_cons.mpr ⟨fun c hc => ?_,hl⟩
      rcases List.mem_cons.mp hc with rfl | hc
      · exact hab
      · exact htrans a b c hab (hb c hc)
    · split
      · rename_i hba
        refine List.pairwise_cons.mpr ⟨fun c hc => ?_,ih hl'⟩
        rcases mem_insertNew hc with rfl | hc
        · exact hba
        · exact hb c hc
      · exact hl

theorem insertNew_eq_self {b : α} (hl : l.Pairwise (lt · ·)) (hb : b ∈ l) (hab : ¬lt a b)
    (hba : ¬lt b a) : insertNew lt a l = l := by
  induction l with
  | nil => cases hb
  | cons c l ih =>
    obtain ⟨hc,hl'⟩ := List.pairwise_cons.mp hl
    simp only [insertNew]
    rcases List.mem_cons.mp hb with rfl | hb
    · rw [if_neg hab,if_neg hba]
    · have hac : ¬lt a c := fun h => hab (htrans a c b h (hc b hb))
      rw [if_neg hac,ih hl' hb,ite_self]

end Sorted

def lowerBound (lt : α → α → Bool) (v : α) (l : List α) : ℕ := l.findIdx fun e => !lt e v

def upperBound (lt : α → α → Bool) (v : α) (l : List α) : ℕ := l.findIdx fun e => lt v e

/-- What lies between two bounds starts with the first element that is past the lower one
and not past the upper one. -/
theorem getElem?_between {p low up : α → Bool} {l : List α}
    (hlow : ∀ a ∈ l, low a = (p a || up a)) (hup : ∀ a ∈ l, up a → ¬p a)
    (hl : l.Pairwise fun a b => up a → ¬p b) :
    (if l.findIdx low = l.findIdx up then none else l[l.findIdx low]?) = l.find? p := by
  induction l with
  | nil => simp
  | cons a l ih =>
    obtain ⟨ha,hl'⟩ := List.pairwise_cons.mp hl
    have ih := ih (fun b hb => hlow b (List.mem_cons_of_mem a hb))
      (fun b hb => hup b (List.mem_cons_of_mem a hb)) hl'
    have hla := hlow a List.mem_cons_self
    have hua := hup a List.mem_cons_self
    cases hp : p a with
    | true =>
      have hu : up a = false := Bool.eq_false_iff.mpr fun h => hua h hp
      simp [List.findIdx_cons,hla,hp,hu]
    | false =>
      cases hu : up a with
      | true =>
        have hnone : l.find? p = none := List.find?_eq_none.mpr fun b hb => ha b hb hu
        simp [List.findIdx_cons,hla,hp,hu,hnone]
      | false => simpa [List.findIdx_cons,hla,hp,hu] using ih

/-- Append `a`, but let it swap places with the element at `k` modulo the length. -/
def placeAt (k : ℕ) (a : α) (l : List α) : List α :=
  match l[k % l.length]? with
  | none => l ++ [a]
  | some b => (l ++ [b]).set (k % l.length) a

theorem placeAt_perm (k : ℕ) (a : α) (l : List α) : (placeAt k a l).Perm (a::l) := by
  unfold placeAt
  cases hb : l[k % l.length]? with
  | none => exact List.perm_append_singleton a l
  | some b =>
    obtain ⟨hk,hb⟩ := List.getElem?_eq_some_iff.mp hb
    have hsplit : l = l.take (k % l.length) ++ b::l.drop (k % l.length + 1) := by
      rw [← hb,List.getElem_cons_drop,List.take_append_drop]
    have hset : (l ++ [b]).set (k % l.length) a =
        l.take (k % l.length) ++ a::(l.drop (k % l.length + 1) ++ [b]) := by
      rw [List.set_append_left _ _ hk,List.set_eq_take_append_cons_drop,if_pos hk]
      simp
    change ((l ++ [b]).set (k % l.length) a).Perm (a::l)
    rw [hset]
    refine List.perm_middle.trans (List.Perm.cons a ?_)
    conv_rhs => rw [hsplit]
    exact (List.perm_append_singleton b _).append_left _

end OrderedList
