import GossipMemberlist.Cluster
import GossipMemberlist.Integrity
import GossipMemberlist.Threads

/-!
# Numbers that fit

What a parser has read fits its fields, and a member that is given only such
messages records, queues and sends numbers of 32 bits: everything it puts on the
network is a message of the gen functions, whatever its counter has been through.
-/

namespace GossipMemberlist

def Heard.Fits : Heard → Prop
  | .alive a _ => a.WellFormed
  | .suspect s _ => s.WellFormed
  | .dead d _ => d.WellFormed
  | .nothing => True

def Op.Fits : Op → Prop
  | .alive b _ _ | .suspect b _ | .dead b _ => b.WellFormed
  | .merge state _ => state.WellFormed
  | _ => True

structure Cell.Fits (c : Cell) : Prop where
  record : ∀ s, c.record = some s → IsUint32 s.incarnation
  rumours : ∀ b ∈ c.rumours, b.Generated

structure Member.Fits (m : Member) : Prop where
  cells : ∀ x, (m.cell x).Fits
  updates : ∀ b ∈ m.updates, b.Generated

structure Process.Fits (p : Process) : Prop where
  member : p.member.Fits
  probing : ∀ node ∈ p.probing, IsUint32 node.incarnation
  verdicts : ∀ b ∈ p.verdicts, b.Generated
  farewells : ∀ b ∈ p.farewells, b.Generated

theorem isUint32_load (c : WrapCounter 32) : IsUint32 c.load := c.load_lt

theorem isUint32_port (port : UInt16) : IsUint32 port.toNat :=
  Nat.lt_trans port.toNat_lt (by decide)

namespace Cell.Fits

variable {c c' : Cell} {s : NodeState} {timer : Option Suspicion} {b : Broadcast}

theorem keeps (h : c.Fits) (hc : c.Keeps c') : c'.Fits where
  record s hs := h.record s (hc.record_eq ▸ hs)
  rumours b hb := h.rumours b (hc.rumours_sub hb)

theorem fresh (hc : c.Becomes (some s) timer {b}) (hs : IsUint32 s.incarnation)
    (hb : b.Generated) : c.Fits where
  record s' hs' := by
    rw [hc.record_eq] at hs'
    cases hs'
    exact hs
  rumours b' hb' := by
    rw [hc.rumours_sub hb']
    exact hb

end Cell.Fits

namespace Member

variable {cfg : Config} {fl : Floats} {m : Member}

theorem fits_of_write {m' : Member} {y : String} {s : NodeState} {timer : Option Suspicion}
    {b : Broadcast} (h : m.Fits) (hupdates : m'.updates = m.updates)
    (hy : (m'.cell y).Becomes (some s) timer {b}) (hothers : ∀ x ≠ y, (m.cell x).Keeps (m'.cell x))
    (hs : IsUint32 s.incarnation) (hb : b.Generated) : m'.Fits where
  cells x := by
    by_cases hx : x = y
    · subst hx
      exact .fresh hy hs hb
    · exact (h.cells x).keeps (hothers x hx)
  updates := hupdates ▸ h.updates

theorem updateStep_fits (h : ∀ b ∈ m.updates, b.Generated) (u : UpdateStep) :
    ∀ b ∈ (m.updateStep cfg u).updates, b.Generated := by
  cases u with
  | add => exact h
  | load =>
    simp only [updateStep]
    split
    · intro b hb
      rcases List.mem_cons.mp hb with rfl | hb
      · exact .alive _ (isUint32_load _) (isUint32_port _)
      · exact h b hb
    · exact h

theorem updateSteps_fits (h : ∀ b ∈ m.updates, b.Generated) (us : List UpdateStep) :
    ∀ b ∈ (m.updateSteps cfg us).updates, b.Generated :=
  Transitions.run_invariant (P := fun m : Member => ∀ b ∈ m.updates, b.Generated) h
    (fun _ u h => updateStep_fits h u) us

theorem refuteInc_fits (h : ∀ b ∈ m.updates, b.Generated) (e : Env) (accusedInc : ℕ) :
    (∀ b ∈ (m.refuteInc cfg e accusedInc).1.updates, b.Generated) ∧
      IsUint32 (m.refuteInc cfg e accusedInc).2 := by
  have hbefore : ∀ b ∈ (m.updateSteps cfg e.before).updates, b.Generated :=
    updateSteps_fits h e.before
  unfold refuteInc
  dsimp only
  split
  · exact ⟨updateSteps_fits (m := { m.updateSteps cfg e.before with
      incarnation := (m.updateSteps cfg e.before).incarnation.fetchAdd
        (accusedInc - m.incarnation.load + 1) }) hbefore e.between,isUint32_load _⟩
  · exact ⟨hbefore,isUint32_load _⟩

theorem refute_fits (hm : m.queue.Consistent) (h : m.Fits) (e : Env) {r : ℕ}
    (hr : m.table.nodeMap cfg.name = some r) (accusedInc : ℕ) :
    ((m.setTimer cfg.name none).refute cfg e r accusedInc).Fits := by
  obtain ⟨i,a,b,hframe⟩ := refuteInc_frame cfg e accusedInc (m.setTimer cfg.name none)
  have hset : ∀ b ∈ (m.setTimer cfg.name none).updates, b.Generated := h.updates
  obtain ⟨hupdates,hinc⟩ : (∀ b ∈ ((m.setTimer cfg.name none).refuteInc cfg e accusedInc).1.updates,
      b.Generated) ∧ _ := refuteInc_fits hset e accusedInc
  have heq := refute_eq cfg e accusedInc (m := m.setTimer cfg.name none) hr
  obtain ⟨hy,hothers⟩ := write_cell (n := (m.setTimer cfg.name none).refute cfg e r accusedInc)
    (f := fun s =>
      { s with incarnation := ((m.setTimer cfg.name none).refuteInc cfg e accusedInc).2 })
    hm hr (fun _ => rfl) (by rw [heq]; rfl) (by simp only [heq,hframe]; rfl) (by rw [heq]; rfl)
  refine ⟨fun x => ?_,by rw [heq]; exact hupdates⟩
  by_cases hx : x = cfg.name
  · subst hx
    exact .fresh hy hinc (.alive _ hinc (isUint32_port _))
  · exact (h.cells x).keeps (hothers x hx)

end Member

variable {cfg : Config} {fl : Floats}

theorem Effect.fits {m m' : Member} {l : Heard} (h : Effect cfg fl m l m')
    (hm : m.queue.Consistent) (hl : l.Fits) (hfits : m.Fits) : m'.Fits := by
  have hsame : ∀ {m' : Member}, (∀ x, (m.cell x).record = (m'.cell x).record) →
      (∀ x, (m'.cell x).rumours ⊆ (m.cell x).rumours) → m'.updates = m.updates → m'.Fits := by
    intro m' hrecord hrumours hupdates
    exact ⟨fun x => ⟨fun s hs => (hfits.cells x).record s ((hrecord x).trans hs),
      fun b hb => (hfits.cells x).rumours b (hrumours x hb)⟩,hupdates ▸ hfits.updates⟩
  cases h with
  | ignored | disarmed | advanced | ended | leaving =>
    exact hsame (fun _ => rfl) (fun _ => subset_rfl) rfl
  | shuffled ns i =>
    exact hsame (fun x => by simp [Member.cell,Member.find]) (fun _ => subset_rfl) rfl
  | updating u =>
    obtain ⟨i,a,b,heq⟩ := Member.updateStep_frame cfg m u
    refine ⟨fun x => ?_,Member.updateStep_fits hfits.updates u⟩
    rw [heq]
    exact hfits.cells x
  | queued hq hold =>
    refine hsame (fun _ => rfl) (fun x => ?_) rfl
    rintro _ ⟨e,he,hn,rfl⟩
    obtain ⟨e₀,he₀,hb⟩ := hold e he
    exact ⟨e₀,he₀,hb ▸ hn,by rw [hb]⟩
  | @created a e hr hne hinc =>
    refine ⟨fun x => ?_,hfits.updates⟩
    rw [addNode_cell hr]
    split
    · refine ⟨fun s hs => ?_,(hfits.cells x).rumours⟩
      cases hs
      exact isUint32_zero
    · exact hfits.cells x
  | @joined a e notifyFd hr hne hinc =>
    obtain ⟨hy,hothers⟩ := join_cell (e := e) hm hr notifyFd
    exact Member.fits_of_write hfits rfl hy hothers hl.incarnation
      (.alive a hl.incarnation hl.port)
  | @accepted a e notifyFd r hr =>
    obtain ⟨hy,hothers⟩ := acceptAlive_cell hm hr e notifyFd
    exact Member.fits_of_write hfits rfl hy hothers hl.incarnation
      (.alive a hl.incarnation hl.port)
  | @replaced a e notifyFd r hr =>
    obtain ⟨hy,hothers⟩ := acceptAlive_cell hm hr e notifyFd
    exact Member.fits_of_write hfits rfl hy hothers hl.incarnation
      (.alive a hl.incarnation hl.port)
  | refuted e hr => exact Member.refute_fits hm hfits e hr _
  | @confirmed s e r t hr hinc ht =>
    obtain ⟨q,d,heq,hq⟩ := Member.confirmTimer_frame fl e s t m
    rw [heq]
    rcases hq with rfl | ⟨-,hq⟩
    · exact hsame (fun _ => rfl) (fun _ => subset_rfl) rfl
    · refine ⟨fun x => ⟨(hfits.cells x).record,fun b hb => ?_⟩,hfits.updates⟩
      obtain ⟨hnew,hold⟩ := queueBroadcast_rumours (b := ⟨s.node,genSuspectBroadcast s,-1⟩)
        (n := { m with
          nodeTimers := Function.update m.nodeTimers s.node (some (t.confirm fl e.now s.from_).1)
          queue := q, deadlocked := d }) hm hq
      by_cases hx : x = s.node
      · subst hx
        rw [hnew hb]
        exact .suspect s hl
      · exact (hfits.cells x).rumours b (hold x hx hb)
  | @suspected s e r hr =>
    obtain ⟨hy,hothers⟩ := startSuspicion_cell cfg fl hm hr e
    exact Member.fits_of_write hfits rfl hy hothers hl (.suspect s hl)
  | @buried d e notifyFd r hr =>
    obtain ⟨hy,hothers⟩ := acceptDead_cell hm hr e notifyFd
    exact Member.fits_of_write hfits rfl hy hothers hl (.dead d hl)

theorem PushNodeState.WellFormed.heard {state : PushNodeState} (h : state.WellFormed) (e : Env) :
    (state.heard cfg e).Fits := by
  unfold PushNodeState.heard
  split
  · exact ⟨h.incarnation,h.port⟩
  · exact h.incarnation
  · exact h.incarnation
  · exact h.incarnation
  · trivial

namespace Process

variable {p : Process}

theorem Fits.heard (h : p.Fits) {op : Op} (hop : op.Fits) : (p.heard cfg op).Fits := by
  cases op with
  | alive b notifyFd e => exact hop.alive
  | suspect b e => exact hop.suspect
  | dead b e => exact hop.dead
  | merge state e => exact hop.heard e
  | timerDead b e =>
    simp only [Process.heard]
    split
    · rename_i hb
      exact (h.verdicts b hb.1).wellFormed.dead
    · trivial
  | leaveDead b e =>
    simp only [Process.heard]
    split
    · rename_i hb
      exact (h.farewells b hb.1).wellFormed.dead
    · trivial
  | probeFail node e =>
    simp only [Process.heard]
    split
    · rename_i hnode
      exact h.probing node hnode.1
    · trivial
  | updateAlive b notifyFd e =>
    simp only [Process.heard]
    split
    · rename_i hb
      exact (h.member.updates b hb.1).wellFormed.alive
    · trivial
  | _ => trivial

theorem Fits.next (h : p.Fits) (hp : p.member.Sound cfg) {op : Op} (hop : op.Fits) :
    (p.next cfg fl op).Fits := by
  have heffect : Effect cfg fl _ _ _ := step_effect hp op
  obtain ⟨u,hu,henters⟩ := p.enters_eq op
  have hcarries := next_carries cfg fl p op
  have hrecord : ∀ x s, p.member.find x = some s → IsUint32 s.incarnation :=
    fun x => (h.member.cells x).record
  refine ⟨heffect.fits (p.enters_sound hp op).queue (h.heard hop) ?_,?_,?_,?_⟩
  · rw [henters]
    exact ⟨h.member.cells,fun b hb => h.member.updates b (hu hb)⟩
  · intro node hnode
    rcases hcarries.probing node hnode with hold | ⟨x,hx⟩
    · exact h.probing node hold
    · exact hrecord x node hx
  · intro b hb
    rcases hcarries.verdicts b hb with hold | ⟨f,s,-,hconvicts,rfl⟩
    · exact h.verdicts b hold
    · exact .dead _ (hrecord _ s hconvicts.2.1)
  · intro b hb
    rcases hcarries.farewells b hb with hold | ⟨s,hs,rfl⟩
    · exact h.farewells b hold
    · exact .dead _ (hrecord _ s hs)

theorem start_fits (cfg : Config) (leaveFd : ℤ) (e : Env) : (start cfg leaveFd e).Fits := by
  obtain ⟨hself,hothers⟩ := start_cell cfg leaveFd e
  obtain ⟨-,-,-,hupdates,-⟩ := start_locals cfg leaveFd e
  have hone : IsUint32 1 := Nat.one_lt_two_pow (by decide)
  refine ⟨⟨fun x => ?_,fun b hb => ?_⟩,fun _ h => absurd h List.not_mem_nil,
    fun _ h => absurd h List.not_mem_nil,fun _ h => absurd h List.not_mem_nil⟩
  · by_cases hx : x = cfg.name
    · subst hx
      exact .fresh hself hone (.alive _ hone (isUint32_port _))
    · refine ⟨fun s hs => ?_,fun b hb => absurd ((hothers x hx).rumours_sub hb)
        (Set.notMem_empty b)⟩
      rw [(hothers x hx).record_eq] at hs
      cases hs
  · rw [hupdates] at hb
    cases hb

end Process

end GossipMemberlist
