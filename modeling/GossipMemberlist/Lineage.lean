import GossipMemberlist.Provenance

/-!
# The lineage of what a cluster knows

Everything that is recorded, queued, under way or in flight in a cluster is good
in the sense of provenance, after every run in which no counter wraps.
-/

namespace GossipMemberlist
namespace Roster

variable {ι : Type*} [DecidableEq ι]

variable {R : Roster ι} {V V' : String → ℕ → Prop} {W W' : ι → String → ℕ → Prop}
  {evs : List (ι × Op)} {i : ι} {op : Op}

theorem run_steady (R : Roster ι) (evs : List (ι × Op)) (i : ι) :
    ((R.run evs).node i).Steady (R.config i) := by
  obtain ⟨ops,h⟩ := R.run_node evs i
  rw [h]
  exact Process.run_steady ..

theorem run_timed (R : Roster ι) (evs : List (ι × Op)) (i : ι) (n : String) :
    (((R.run evs).node i).member.cell n).Timed (R.config i) n := by
  obtain ⟨ops,h⟩ := R.run_node evs i
  rw [h]
  exact Process.run_timed ..

theorem Provenance.heard (h : R.Provenance V W (R.run evs))
    (hd : op.arrives (R.run evs).sent = true)
    (hissue : ((R.run evs).node i).Issues op (W i) V) :
    R.GoodHeard V (R.run evs) i (((R.run evs).node i).heard (R.config i) op) := by
  cases op with
  | alive b notifyFd e =>
    simp only [Op.arrives,decide_eq_true_eq] at hd
    cases h.sent _ hd.1 with
    | broadcast hb =>
      cases hb with
      | alive ha => exact Or.inr ha
      | suspect | dead => exact absurd hd.2.1 nofun
  | suspect b e =>
    simp only [Op.arrives,decide_eq_true_eq] at hd
    cases h.sent _ hd.1 with
    | broadcast hb =>
      cases hb with
      | suspect hs => exact hs
      | alive | dead => exact absurd hd.2 nofun
  | dead b e =>
    simp only [Op.arrives,decide_eq_true_eq] at hd
    cases h.sent _ hd.1 with
    | broadcast hb =>
      cases hb with
      | dead hdead => exact Or.inl hdead
      | alive | suspect => exact absurd hd.2 nofun
  | merge state e =>
    obtain ⟨pkt,hpkt,hbrings⟩ := List.any_eq_true.mp hd
    cases h.sent pkt hpkt with
    | broadcast => cases hbrings
    | pushPull hstates =>
      obtain ⟨s,rfl,hs⟩ := hstates state (of_decide_eq_true hbrings)
      exact hs.heard e
  | timerDead b e =>
    simp only [Process.heard]
    split
    · rename_i hb
      obtain ⟨d,rfl,hdead⟩ := (h.nodes i).verdicts b hb.1
      exact Or.inl ⟨hdead.below,hdead.left,fun hne => hissue _ e rfl hb (hdead.dead hne)⟩
    · trivial
  | leaveDead b e =>
    simp only [Process.heard]
    split
    · rename_i hb
      obtain ⟨k,hk,rfl⟩ := (h.nodes i).farewells b hb.1
      exact Or.inr ⟨rfl,rfl,hk⟩
    · trivial
  | probeFail node e =>
    simp only [Process.heard]
    split
    · rename_i hnode
      exact ⟨((h.nodes i).probing node hnode.1).below⟩
    · trivial
  | updateAlive b notifyFd e =>
    simp only [Process.heard]
    split
    · rename_i hb
      obtain ⟨inc,-,rfl⟩ := (run_steady R evs i).announces b hb.1
      exact Or.inl rfl
    · trivial
  | _ => trivial

theorem cellMove (h : R.Provenance V W (R.run evs))
    (hwrap : NoWrap (R.network.act (R.run evs) i op)) (n : String) :
    let p := (R.run evs).node i
    let p' := p.next (R.config i) R.floats op
    CellMove R (R.run evs) (R.network.act (R.run evs) i op) i n p.member.leave
      p.member.incarnation.total p'.member.incarnation.total (p.heard (R.config i) op)
      (p.member.cell n) (p'.member.cell n) := by
  intro p p'
  have hsteady : p.Steady (R.config i) := run_steady R evs i
  have hself : (R.network.act (R.run evs) i op).node i = p' := Network.act_self ..
  refine ⟨(Process.next_cellStep R.floats hsteady.sound op n).1,fun s hs => Table.find_name hs,?_,
    h.own i,fun hn => hn ▸ hsteady.record,fun hn => hn ▸ rfl,fun hn => ?_⟩
  · rw [← hself]
    exact hwrap i
  · rw [own,hself,hn]
    rfl

theorem Provenance.grows (h : R.Provenance V W (R.run evs))
    (hd : op.arrives (R.run evs).sent = true)
    (hissue : ((R.run evs).node i).Issues op (W i) V)
    (hwrap : NoWrap (R.network.act (R.run evs) i op)) :
    let c' := R.network.act (R.run evs) i op
    R.Grows (R.run evs) c' ∧ ∀ j, R.ownInc c' j ≤ total c' j := by
  intro c'
  have hmove := cellMove h hwrap (R.name i)
  have htotal := (Process.next_cellStep R.floats (run_steady R evs i).sound op (R.name i)).2.2
  obtain ⟨s,s',hs,hown,hinc,hhi,hleft⟩ := hmove.own (h.heard hd hissue) htotal
  have hs' : R.own c' i = some s' := hown
  have hall (j : ι) : R.ownInc (R.run evs) j ≤ R.ownInc c' j ∧
      (∀ t, R.own (R.run evs) j = some t → t.state = .stateLeft → R.own c' j = some t) ∧
      R.ownInc c' j ≤ total c' j := by
    by_cases hj : j = i
    · subst hj
      refine ⟨by simpa [ownInc,hs,hs'] using hinc,fun t ht hstate => ?_,?_⟩
      · cases hs.symm.trans ht
        rw [hs',hleft hstate]
      · rw [ownInc,hs',total,Network.act_self]
        exact hhi
    · have hsame : c'.node j = (R.run evs).node j := Network.act_other _ hj op
      simp only [ownInc,Roster.own,total,hsame]
      exact ⟨le_refl _,fun _ ht _ => ht,h.own j⟩
  exact ⟨⟨fun j => (hall j).1,fun j => (hall j).2.1⟩,fun j => (hall j).2.2⟩

theorem Provenance.next (h : R.Provenance V W (R.run evs))
    (hd : op.arrives (R.run evs).sent = true)
    (hissue : ((R.run evs).node i).Issues op (W i) V)
    (hwrap : NoWrap (R.network.act (R.run evs) i op)) (hW : ∀ n k, W i n k → W' i n k)
    (hverdict : ∀ f s, op = .timerCheck f → ((R.run evs).node i).Convicts f s →
      W' i s.n.name s.incarnation) :
    R.GoodNode V (W' i) (R.network.act (R.run evs) i op) i
      (((R.run evs).node i).next (R.config i) R.floats op) := by
  obtain ⟨hgrows,-⟩ := h.grows hd hissue hwrap
  have hnode := (h.nodes i).mono hgrows (fun _ _ => id) hW
  have hcarries := Process.next_carries (R.config i) R.floats ((R.run evs).node i) op
  refine ⟨fun n => ?_,fun node hn => ?_,fun b hb => ?_,fun b hb => ?_⟩
  · exact (cellMove h hwrap n).good (h.heard hd hissue) ((h.nodes i).cells n) hgrows
  · rcases hcarries.probing node hn with hold | ⟨n,hs⟩
    · exact hnode.probing node hold
    · exact (hnode.cells n).record node hs
  · rcases hcarries.verdicts b hb with hold | ⟨f,s,hop,hconv,rfl⟩
    · exact hnode.verdicts b hold
    · obtain ⟨hs,hstate,-⟩ := hconv.2
      have hgood := (hnode.cells _).record s hs
      refine ⟨_,rfl,hgood.below,fun hself => ?_,fun _ => hverdict f s hop hconv⟩
      -- nobody suspects itself
      obtain ⟨t,ht⟩ := (run_timed R evs i _).watched s hs hstate
      exact absurd ((Table.find_name hs).symm.trans hself) ((run_timed R evs i _).episode t ht).1
  · rcases hcarries.farewells b hb with hold | ⟨s,hs,rfl⟩
    · exact hnode.farewells b hold
    · refine ⟨s.incarnation,?_,rfl⟩
      have hle := hgrows.inc i
      rwa [ownInc,show R.own (R.run evs) i = some s from hs] at hle

theorem Provenance.act (h : R.Provenance V W (R.run evs))
    (hd : op.arrives (R.run evs).sent = true)
    (hissue : ((R.run evs).node i).Issues op (W i) V)
    (hwrap : NoWrap (R.network.act (R.run evs) i op)) (hW : ∀ j n k, W j n k → W' j n k)
    (hverdict : ∀ f s, op = .timerCheck f → ((R.run evs).node i).Convicts f s →
      W' i s.n.name s.incarnation) : R.Provenance V W' (R.network.act (R.run evs) i op) := by
  obtain ⟨hgrows,hown⟩ := h.grows hd hissue hwrap
  refine ⟨hown,fun j => ?_,fun pkt hpkt => ?_⟩
  · by_cases hj : j = i
    · subst hj
      rw [Network.act_self]
      exact h.next hd hissue hwrap (hW j) hverdict
    · rw [Network.act_other _ hj]
      exact (h.nodes j).mono hgrows (fun _ _ => id) (hW j)
  · rcases List.mem_append.mp hpkt with hnew | hold
    · exact ((h.nodes i).sends (run_steady R evs i).sound hnew).mono hgrows fun _ _ => id
    · exact (h.sent pkt hold).mono hgrows fun _ _ => id

/-- A suspicion callback of the member `i` has found the node of this name suspect
under this number. -/
def Convicted (R : Roster ι) (evs : List (ι × Op)) (i : ι) (n : String) (k : ℕ) : Prop :=
  ∃ pre f post s, evs = pre ++ (i,.timerCheck f)::post ∧ ((R.run pre).node i).Convicts f s ∧
    s.n.name = n ∧ s.incarnation = k

/-- The callback has gone on to hand its dead message to `deadNode`. -/
def Issued (R : Roster ι) (evs : List (ι × Op)) (n : String) (k : ℕ) : Prop :=
  ∃ pre i b e post, evs = pre ++ (i,.timerDead b e)::post ∧ R.Convicted pre i n k ∧
    (b ∈ ((R.run pre).node i).verdicts ∧ ((R.run pre).node i).member.deadlocked = false) ∧
    b.dead.node = n ∧ b.dead.incarnation = k

theorem Convicted.mono {n : String} {k : ℕ} (h : R.Convicted evs i n k) (ev : ι × Op) :
    R.Convicted (evs ++ [ev]) i n k := by
  obtain ⟨pre,f,post,s,rfl,h⟩ := h
  exact ⟨pre,f,post ++ [ev],s,by simp,h⟩

theorem Issued.mono {n : String} {k : ℕ} (h : R.Issued evs n k) (ev : ι × Op) :
    R.Issued (evs ++ [ev]) n k := by
  obtain ⟨pre,i,b,e,post,rfl,h⟩ := h
  exact ⟨pre,i,b,e,post ++ [ev],by simp,h⟩

theorem NoWrap.of_act (h : NoWrap (R.network.act (R.run evs) i op)) : NoWrap (R.run evs) :=
  fun j => (R.total_act evs i j op).trans_lt (h j)

theorem run_provenance (R : Roster ι) (evs : List (ι × Op)) (hwrap : NoWrap (R.run evs)) :
    R.Provenance (R.Issued evs) (R.Convicted evs) (R.run evs) := by
  refine Network.run_history (N := R.network) (c := R.start)
    (P := fun evs c => NoWrap c → R.Provenance (R.Issued evs) (R.Convicted evs) c)
    (fun _ => start_provenance R _ _) (fun evs ev c h hwrap => ?_) (fun evs i op h hd hwrap => ?_)
    evs hwrap
  · exact (h hwrap).mono (fun _ _ h => h.mono ev) (fun _ _ _ h => h.mono ev)
  · have h := (h (NoWrap.of_act hwrap)).mono (fun _ _ h => Issued.mono h (i,op)) (fun _ _ _ => id)
    refine h.act hd ?_ hwrap (fun _ _ _ h => h.mono _) ?_
    · rintro b e rfl hb hconv
      exact ⟨evs,i,b,e,[],rfl,hconv,hb,rfl,rfl⟩
    · rintro f s rfl hconv
      exact ⟨evs,f,[],s,rfl,hconv,rfl,rfl⟩

end Roster
end GossipMemberlist
