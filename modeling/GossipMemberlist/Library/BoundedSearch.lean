import Mathlib.Data.List.Basic

/-!
# Searching a vector with a budget

A cursor looks for an element from wherever it stands. When it comes to the end
the vector is put in another order and the cursor starts again. Every element
passed over and every new start costs one unit, and without budget the search
ends.
-/

namespace BoundedSearch

variable {α : Type*} (p : α → Bool) (order : ℕ → List α → List α)

/-- `order` may depend on what is left of the budget. -/
def search : ℕ → List α → ℕ → Option α
  | 0, _, _ => none
  | left+1, l, i =>
    match l[i]? with
    | none => search left (order left l) 0
    | some a => if p a then some a else search left l (i + 1)

variable {p order} {l : List α} {i left : ℕ}

theorem search_skip (d : ℕ) (h : ∀ x < d, ∃ a, l[i + x]? = some a ∧ p a = false) :
    search p order (left + d) l i = search p order left l (i + d) := by
  induction d generalizing i with
  | zero => rfl
  | succ d ih =>
    obtain ⟨a,ha,hp⟩ := h 0 (Nat.succ_pos d)
    have hrest := ih (i := i + 1) fun x hx => by
      obtain ⟨b,hb,hpb⟩ := h (x + 1) (Nat.succ_lt_succ hx)
      exact ⟨b,by rw [← hb]; congr 1; omega,hpb⟩
    rw [Nat.add_zero] at ha
    rw [← Nat.add_assoc,search]
    simp only [ha,hp,Bool.false_eq_true,if_false]
    rw [hrest,Nat.add_assoc,Nat.add_comm 1 d]

theorem skips_findIdx {d : ℕ} (hd : d ≤ (l.drop i).findIdx p) :
    ∀ x < d, ∃ a, l[i + x]? = some a ∧ p a = false := by
  intro x hx
  have hlt : x < (l.drop i).length :=
    Nat.lt_of_lt_of_le (Nat.lt_of_lt_of_le hx hd) List.findIdx_le_length
  refine ⟨(l.drop i)[x],?_,?_⟩
  · rw [← List.getElem?_drop]
    exact List.getElem?_eq_getElem hlt
  · simpa using List.not_of_lt_findIdx (Nat.lt_of_lt_of_le hx hd)

/-- The search ends with the first hit that the budget reaches. -/
theorem search_hit (hlt : (l.drop i).findIdx p < left) (hex : ∃ a ∈ l.drop i, p a) :
    search p order left l i = (l.drop i).find? p := by
  obtain ⟨t,rfl⟩ := Nat.exists_eq_add_of_lt hlt
  have hj := List.findIdx_lt_length.mpr hex
  have hget : l[i + (l.drop i).findIdx p]? = some ((l.drop i)[(l.drop i).findIdx p]) := by
    rw [← List.getElem?_drop]
    exact List.getElem?_eq_getElem hj
  have hp : p ((l.drop i)[(l.drop i).findIdx p]) = true := List.findIdx_getElem
  have hfind : (l.drop i).find? p = some ((l.drop i)[(l.drop i).findIdx p]) := by
    rw [List.find?_eq_getElem?_findIdx]
    exact List.getElem?_eq_getElem hj
  rw [show (l.drop i).findIdx p + t + 1 = (t + 1) + (l.drop i).findIdx p by omega,
    search_skip _ (skips_findIdx (Nat.le_refl _)),search,hfind]
  simp only [hget]
  rw [if_pos hp]

theorem search_short (h : left ≤ (l.drop i).findIdx p) : search p order left l i = none := by
  rw [← Nat.zero_add left,search_skip left (skips_findIdx h),search]

/-- What a search with a budget of one unit for each element finds: what lies ahead, or else
what the new order puts early enough. -/
theorem search_length (horder : ∀ k, (order k l).length = l.length) (i : ℕ) :
    search p order l.length l i =
      let rest := l.length - i
      let l' := order (l.length - rest - 1) l
      ((l.drop i).find? p).or
        (if rest + 1 + l'.findIdx p < l.length then l'.find? p else none) := by
  dsimp only
  by_cases hex : ∃ a ∈ l.drop i, p a
  · have hj := List.findIdx_lt_length.mpr hex
    have hle := List.length_drop (i := i) (l := l)
    obtain ⟨a,ha⟩ := Option.isSome_iff_exists.mp (List.find?_isSome.mpr hex)
    rw [search_hit (by omega) hex,ha,Option.some_or]
  · have hnone : (l.drop i).find? p = none :=
      List.find?_eq_none.mpr fun a ha hp => hex ⟨a,ha,hp⟩
    have hall : (l.drop i).findIdx p = l.length - i := by
      rw [← List.length_drop]
      exact List.findIdx_eq_length.mpr fun a ha => Bool.eq_false_iff.mpr fun hp => hex ⟨a,ha,hp⟩
    rw [hnone,Option.none_or]
    obtain ⟨t,ht⟩ : ∃ t, l.length = t + (l.length - i) := ⟨l.length - (l.length - i),by omega⟩
    have hskip : search p order l.length l i = search p order t l (i + (l.length - i)) := by
      conv_lhs => rw [ht]
      exact search_skip _ (skips_findIdx (Nat.le_of_eq hall.symm))
    rw [hskip]
    cases t with
    | zero => rw [search,if_neg (by omega)]
    | succ t =>
      have hend : l[i + (l.length - i)]? = none := List.getElem?_eq_none (by omega)
      have hk : l.length - (l.length - i) - 1 = t := by omega
      rw [search,hk]
      simp only [hend]
      split_ifs with hlt
      · have hlt' : (order t l).findIdx p < (order t l).length := by
          rw [horder t]
          omega
        have hhit : search p order t (order t l) 0 = ((order t l).drop 0).find? p :=
          search_hit (by rw [List.drop_zero]; omega)
            (by rw [List.drop_zero]; exact List.findIdx_lt_length.mp hlt')
        rwa [List.drop_zero] at hhit
      · exact search_short (by rw [List.drop_zero]; omega)

end BoundedSearch
