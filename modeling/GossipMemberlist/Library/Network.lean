import GossipMemberlist.Library.Transitions
import Mathlib.Logic.Function.Basic

/-!
# Machines on an unreliable network

A family of deterministic machines that send packets. A packet, once sent, stays
available: it may be delivered never, late, often and in any order. An event that
needs a packet which nobody has sent does not happen.
-/

structure Network (ι σ ε π : Type*) where
  step : ι → σ → ε → σ × List π
  delivers : List π → ε → Prop
  decidable : ∀ sent e, Decidable (delivers sent e)

namespace Network

variable {ι σ ε π : Type*} [DecidableEq ι] (N : Network ι σ ε π)

structure State (ι σ π : Type*) where
  node : ι → σ
  sent : List π

def act (c : State ι σ π) (i : ι) (e : ε) : State ι σ π :=
  let r := N.step i (c.node i) e
  ⟨Function.update c.node i r.1,r.2 ++ c.sent⟩

def next (c : State ι σ π) (ev : ι × ε) : State ι σ π :=
  haveI := N.decidable c.sent ev.2
  if N.delivers c.sent ev.2 then N.act c ev.1 ev.2 else c

def run (c : State ι σ π) (evs : List (ι × ε)) : State ι σ π := Transitions.run N.next c evs

variable {N}

theorem next_cases (c : State ι σ π) (ev : ι × ε) :
    N.next c ev = c ∨ N.delivers c.sent ev.2 ∧ N.next c ev = N.act c ev.1 ev.2 := by
  have := N.decidable c.sent ev.2
  by_cases h : N.delivers c.sent ev.2
  · exact Or.inr ⟨h,if_pos h⟩
  · exact Or.inl (if_neg h)

@[simp] theorem act_self (c : State ι σ π) (i : ι) (e : ε) :
    (N.act c i e).node i = (N.step i (c.node i) e).1 := Function.update_self ..

theorem act_other (c : State ι σ π) {i j : ι} (h : j ≠ i) (e : ε) :
    (N.act c i e).node j = c.node j := Function.update_of_ne h ..

theorem node_run (c : State ι σ π) (evs : List (ι × ε)) (i : ι) : ∃ es,
    (N.run c evs).node i = Transitions.run (fun s e => (N.step i s e).1) (c.node i) es := by
  refine Transitions.run_invariant (P := fun c' : State ι σ π => ∃ es,
    c'.node i = Transitions.run (fun s e => (N.step i s e).1) (c.node i) es) ⟨[],rfl⟩ ?_ evs
  rintro c' ⟨j,e⟩ ⟨es,h⟩
  rcases next_cases (N := N) c' (j,e) with hn | ⟨-,hn⟩
  · exact ⟨es,by rw [hn,h]⟩
  · by_cases hi : i = j
    · subst hi
      exact ⟨es ++ [e],by rw [hn,act_self,h,Transitions.run_snoc]⟩
    · exact ⟨es,by rw [hn,act_other c' hi,h]⟩

theorem node_silent {c : State ι σ π} {evs : List (ι × ε)} {i : ι} (h : ∀ ev ∈ evs, ev.1 ≠ i) :
    (N.run c evs).node i = c.node i := by
  induction evs using List.reverseRecOn with
  | nil => rfl
  | append_singleton evs ev ih =>
    have hold := ih fun ev' hev => h ev' (List.mem_append_left _ hev)
    have hi : i ≠ ev.1 := (h ev (List.mem_append_right _ List.mem_cons_self)).symm
    rw [run,Transitions.run_snoc]
    rcases next_cases (N := N) (N.run c evs) ev with hn | ⟨-,hn⟩
    · exact (congrArg (State.node · i) hn).trans hold
    · exact (congrArg (State.node · i) hn).trans ((act_other _ hi ev.2).trans hold)

theorem node_delivered {c : State ι σ π} {evs : List (ι × ε)}
    (h : Transitions.Along N.next (fun c ev => N.delivers c.sent ev.2) c evs) (i : ι) :
    (N.run c evs).node i = Transitions.run (fun s e => (N.step i s e).1) (c.node i)
      ((evs.filter (·.1 = i)).map (·.2)) := by
  induction evs generalizing c with
  | nil => rfl
  | cons ev evs ih =>
    have hnext : N.next c ev = N.act c ev.1 ev.2 := if_pos h.1
    have hrest := ih h.2
    rw [hnext] at hrest
    have hrun : N.run c (ev::evs) = N.run (N.act c ev.1 ev.2) evs := by
      rw [run,Transitions.run_cons,hnext]
      rfl
    rw [hrun,hrest]
    by_cases hi : ev.1 = i
    · subst hi
      simp
    · rw [act_other _ (Ne.symm hi),List.filter_cons_of_neg (by simpa using hi)]

/-- The invariant rule for a property that may mention the past: only delivered
events need looking at, and what has happened stays so. -/
theorem run_history {P : List (ι × ε) → State ι σ π → Prop} {c : State ι σ π} (h₀ : P [] c)
    (hpast : ∀ evs ev c, P evs c → P (evs ++ [ev]) c)
    (hstep : ∀ evs i e, P evs (N.run c evs) → N.delivers (N.run c evs).sent e →
      P (evs ++ [(i,e)]) (N.act (N.run c evs) i e)) (evs : List (ι × ε)) : P evs (N.run c evs) := by
  refine Transitions.run_history h₀ (fun evs ev h => ?_) evs
  rcases next_cases (N := N) (N.run c evs) ev with hn | ⟨hd,hn⟩
  · exact hn ▸ hpast evs ev _ h
  · exact hn ▸ hstep evs ev.1 ev.2 h hd

/-- A network refines another when every event that happens in it happens, translated,
in the other one too: then its runs are runs of the other one. -/
theorem refines {ε' π' : Type*} {M : Network ι σ ε' π'} (f : ε → ε') (ok : ε → Prop)
    (Rel : State ι σ π → State ι σ π' → Prop)
    (hstep : ∀ c c' i e, ok e → Rel c c' → N.delivers c.sent e →
      M.delivers c'.sent (f e) ∧ Rel (N.act c i e) (M.act c' i (f e)))
    {c : State ι σ π} {c' : State ι σ π'} (h : Rel c c') {evs : List (ι × ε)}
    (hok : ∀ ev ∈ evs, ok ev.2) :
    ∃ evs', evs'.Sublist (evs.map fun ev => (ev.1,f ev.2)) ∧ Rel (N.run c evs) (M.run c' evs') := by
  induction evs generalizing c c' with
  | nil => exact ⟨[],List.Sublist.refl _,h⟩
  | cons ev evs ih =>
    have hrest : ∀ ev' ∈ evs, ok ev'.2 := fun ev' h' => hok ev' (List.mem_cons_of_mem ev h')
    have hrun : N.run c (ev::evs) = N.run (N.next c ev) evs := by
      rw [run,Transitions.run_cons]
      rfl
    rw [hrun]
    rcases next_cases (N := N) c ev with hn | ⟨hd,hn⟩
    · obtain ⟨evs',hsub,hrel⟩ := ih h hrest
      exact ⟨evs',hsub.cons _,by rwa [hn]⟩
    · obtain ⟨hdeliver,hact⟩ := hstep c c' ev.1 ev.2 (hok ev List.mem_cons_self) h hd
      obtain ⟨evs',hsub,hrel⟩ := ih hact hrest
      refine ⟨(ev.1,f ev.2)::evs',hsub.cons_cons _,?_⟩
      have hnext : M.next c' (ev.1,f ev.2) = M.act c' ev.1 (f ev.2) := if_pos hdeliver
      rw [hn,run,run,Transitions.run_cons,hnext]
      exact hrel

end Network
