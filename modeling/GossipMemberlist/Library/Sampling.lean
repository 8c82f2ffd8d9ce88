import Mathlib.Data.List.Induction
import Mathlib.Data.List.Nodup

/-!
# Drawing without repetition

Candidates come one after the other; one that was kept before is passed over, and
once there are enough nothing more is kept. What is kept is a prefix of the
distinct candidates in the order in which they first came up.
-/

namespace Sampling

variable {α : Type*} [DecidableEq α]

def keep (k : ℕ) (kept : List α) (a : α) : List α :=
  if k ≤ kept.length then kept else if a ∈ kept then kept else kept ++ [a]

theorem eraseDups_snoc (l : List α) (a : α) :
    (l ++ [a]).eraseDups = if a ∈ l then l.eraseDups else l.eraseDups ++ [a] := by
  rw [List.eraseDups_append]
  by_cases ha : a ∈ l <;> simp [List.removeAll,ha,List.eraseDups_cons]

theorem eraseDups_nodup (l : List α) : l.eraseDups.Nodup := by
  induction l using List.reverseRecOn with
  | nil => exact List.nodup_nil
  | append_singleton l a ih =>
    rw [eraseDups_snoc]
    split
    · exact ih
    · rename_i ha
      exact List.nodup_append.mpr ⟨ih,List.nodup_singleton a,fun b hb c hc hbc => ha (by
        rw [List.mem_singleton.mp hc] at hbc
        exact hbc ▸ List.mem_eraseDups.mp hb)⟩

theorem take_eraseDups_snoc (k : ℕ) (l : List α) (a : α) :
    (l ++ [a]).eraseDups.take k = keep k (l.eraseDups.take k) a := by
  rw [eraseDups_snoc]
  by_cases hk : k ≤ l.eraseDups.length
  · have hkeep : keep k (l.eraseDups.take k) a = l.eraseDups.take k :=
      if_pos (by rw [List.length_take]; omega)
    rw [hkeep]
    split
    · rfl
    · exact List.take_append_of_le_length hk
  · have htake : l.eraseDups.take k = l.eraseDups := List.take_of_length_le (by omega)
    rw [htake,keep,if_neg hk]
    by_cases ha : a ∈ l
    · rw [if_pos ha,if_pos (List.mem_eraseDups.mpr ha),htake]
    · rw [if_neg ha,if_neg (mt List.mem_eraseDups.mp ha)]
      exact List.take_of_length_le (by rw [List.length_append,List.length_singleton]; omega)

theorem eraseDups_prefix {l l' : List α} (h : l <+: l') : l.eraseDups <+: l'.eraseDups := by
  obtain ⟨m,rfl⟩ := h
  rw [List.eraseDups_append]
  exact List.prefix_append _ _

theorem take_eraseDups_eq {k : ℕ} {l l' : List α} (h : l <+: l') (hk : k ≤ l.eraseDups.length) :
    l'.eraseDups.take k = l.eraseDups.take k := by
  obtain ⟨m,hm⟩ := eraseDups_prefix h
  rw [← hm,List.take_append_of_le_length hk]

end Sampling
