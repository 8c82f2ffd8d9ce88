import GossipMemberlist.Accounting
import GossipMemberlist.Notification
import GossipMemberlist.Library.Greedy

/-!
# What a call selects

`GetBroadcasts` searches the set tier by tier between two bounds and removes what
it finds before it searches again. On a queue in good order this is one greedy
pass over the set.
-/

namespace GossipMemberlist
namespace BroadcastQueue

open OrderedList Greedy

/-- A queue as the ordered set keeps it: an entry knows the length of its message, and numbers
and lengths fit their types. -/
structure Ordered (q : BroadcastQueue) : Prop extends q.Consistent where
  sorted : q.tq.Pairwise fun e f => e.lt f
  ids : ∀ e ∈ q.tq, e.id < 2 ^ 32
  lengths : ∀ e ∈ q.tq, e.msgLen < 2 ^ 64 - 1
  measured : ∀ e ∈ q.tq, e.msgLen = e.b.msg.byteSizeLong
  idGen : q.idGen < 2 ^ 32

section Free

variable {limit overhead u c : ℕ}

theorem free_add (h : c ≤ free limit overhead u) :
    free limit overhead (u + c) = free limit overhead u - c := by
  unfold free at h ⊢
  omega

theorem free_eq (h : overhead ≤ limit) (hlimit : limit < 2 ^ 64) :
    free limit overhead 0 = limit - overhead := by
  unfold free
  omega

end Free

variable {q q₀ : BroadcastQueue}

theorem Ordered.tiers (hq : q.Ordered) : q.tq.Pairwise fun e f => e.transmits ≤ f.transmits :=
  hq.sorted.imp fun h => by
    rw [LimitedBroadcast.lt_iff] at h
    omega

theorem Ordered.nodup (hq : q.Ordered) : q.tq.Nodup := hq.names.of_map

theorem candidate_eq (hq : q.Ordered) (i space : ℕ) :
    q.candidate i space = q.tq.find? fun e => e.transmits = i ∧ e.msgLen ≤ space := by
  refine getElem?_between (fun e he => ?_) (fun e he h => ?_) ?_
  · have hid := hq.ids e he
    have hlen := hq.lengths e he
    rw [Bool.eq_iff_iff,Bool.or_eq_true,Bool.not_eq_true',Bool.eq_false_iff,ne_eq]
    simp only [LimitedBroadcast.lt_iff,LimitedBroadcast.key,decide_eq_true_eq]
    omega
  · simp only [LimitedBroadcast.lt_iff,LimitedBroadcast.key,decide_eq_true_eq] at h ⊢
    omega
  · refine hq.tiers.imp fun {e f} h he => ?_
    simp only [LimitedBroadcast.lt_iff,LimitedBroadcast.key,decide_eq_true_eq] at he ⊢
    omega

theorem candidate_fits (hq : q.Ordered) {i space : ℕ} {cur : LimitedBroadcast}
    (h : q.candidate i space = some cur) : cur.transmits = i ∧ cur.msgLen ≤ space := by
  rw [candidate_eq hq] at h
  simpa using List.find?_some h

theorem Ordered.left {s : Selection} {transmitLimit : ℕ} {out : List LimitedBroadcast}
    (hq₀ : q₀.Ordered) (hs : s.Trace q₀ transmitLimit out) : s.queue.Ordered := by
  have hsub : s.queue.tq.Sublist q₀.tq := hs.left ▸ List.filter_sublist
  exact ⟨hs.queue,hq₀.sorted.sublist hsub,fun e he => hq₀.ids e (hsub.subset he),
    fun e he => hq₀.lengths e (hsub.subset he),fun e he => hq₀.measured e (hsub.subset he),
    hs.idGen ▸ hq₀.idGen⟩

theorem pick_tq {s : Selection} (hs : s.queue.Ordered) {cur : LimitedBroadcast}
    (hc : cur ∈ s.queue.tq) (transmitLimit : ℕ) :
    (s.pick transmitLimit cur).queue.tq = s.queue.tq.filter (· ≠ cur) := by
  have hd : (s.queue.deleteItem cur).tq = s.queue.tq.filter (· ≠ cur) := by
    rw [deleteItem_tq hs.toConsistent]
    refine List.filter_congr fun e he => ?_
    have hiff : e.b.node = cur.b.node ↔ e = cur :=
      ⟨fun h => hs.toConsistent.node_inj he hc h,fun h => h ▸ rfl⟩
    simp [hiff]
  unfold Selection.pick
  dsimp only
  split <;> exact hd

@[simp] theorem pick_bytesUsed (transmitLimit : ℕ) (cur : LimitedBroadcast) (s : Selection) :
    (s.pick transmitLimit cur).bytesUsed = s.bytesUsed + cur.msgLen := by
  unfold Selection.pick
  dsimp only
  split <;> rfl

variable {transmitLimit : ℕ} (overhead limit i : ℕ)

theorem takenTier_eq (hq₀ : q₀.Ordered) (fuel : ℕ) {s : Selection} {out : List LimitedBroadcast}
    (hs : s.Trace q₀ transmitLimit out) (hfuel : s.queue.tq.length < fuel) :
    takenTier transmitLimit overhead limit i fuel s =
      scanOpen LimitedBroadcast.msgLen (free limit overhead s.bytesUsed)
        (s.queue.tq.filter fun e => e.transmits = i) := by
  induction fuel generalizing s out with
  | zero => exact absurd hfuel (Nat.not_lt_zero _)
  | succ fuel ih =>
    have hord := hq₀.left hs
    have hfind : s.queue.candidate i (free limit overhead s.bytesUsed) =
        (s.queue.tq.filter fun e => e.transmits = i).find?
          fun e => e.msgLen ≤ free limit overhead s.bytesUsed := by
      rw [candidate_eq hord,List.find?_filter]
      congr 1
      funext e
      simp
    simp only [takenTier]
    by_cases hfree : free limit overhead s.bytesUsed = 0
    · rw [if_pos hfree,hfree,scanOpen_zero]
    · rw [if_neg hfree]
      cases hcur : s.queue.candidate i (free limit overhead s.bytesUsed) with
      | none =>
        rw [hfind,List.find?_eq_none] at hcur
        exact (scanOpen_eq_nil_iff.mpr (Or.inr fun e he => by simpa using hcur e he)).symm
      | some cur =>
        have hmem := candidate_mem hcur
        have hfit := (candidate_fits hord hcur).2
        rw [hfind] at hcur
        have htq := pick_tq hord hmem transmitLimit
        have hlen : (s.pick transmitLimit cur).queue.tq.length < fuel := by
          have : (s.queue.tq.filter (· ≠ cur)).length < s.queue.tq.length :=
            List.length_filter_lt_length_iff_exists.mpr ⟨cur,hmem,by simp⟩
          rw [htq]
          omega
        have hcomm : ((s.queue.tq.filter (· ≠ cur)).filter fun e => e.transmits = i) =
            (s.queue.tq.filter fun e => e.transmits = i).filter (· ≠ cur) := by
          rw [List.filter_filter,List.filter_filter]
          exact List.filter_congr fun e _ => Bool.and_comm _ _
        dsimp only
        rw [ih (hs.pick hq₀.toConsistent hmem) hlen,pick_bytesUsed,free_add hfit,htq,hcomm,
          ← scanOpen_find hfree (hord.nodup.filter _) hcur]

theorem pickTier_free (hq₀ : q₀.Ordered) (fuel : ℕ) {s : Selection} {out : List LimitedBroadcast}
    (hs : s.Trace q₀ transmitLimit out) :
    free limit overhead (pickTier transmitLimit overhead limit i fuel s).1.bytesUsed =
        free limit overhead s.bytesUsed -
          ((takenTier transmitLimit overhead limit i fuel s).map (·.msgLen)).sum ∧
      ((pickTier transmitLimit overhead limit i fuel s).2 = true →
        free limit overhead (pickTier transmitLimit overhead limit i fuel s).1.bytesUsed = 0) := by
  induction fuel generalizing s out with
  | zero => simp [pickTier,takenTier]
  | succ fuel ih =>
    simp only [pickTier,takenTier]
    by_cases hfree : free limit overhead s.bytesUsed = 0
    · simp [hfree]
    · cases hcur : s.queue.candidate i (free limit overhead s.bytesUsed) with
      | none => simp [hfree]
      | some cur =>
        have hfit := (candidate_fits (hq₀.left hs) hcur).2
        obtain ⟨h₁,h₂⟩ := ih (hs.pick hq₀.toConsistent (candidate_mem hcur))
        simp only [hfree,if_false,List.map_cons,List.sum_cons]
        refine ⟨?_,h₂⟩
        rw [h₁,pick_bytesUsed,free_add hfit,Nat.sub_sub]

/-- Tier after tier, the rounds are a greedy pass over the tiers. -/
theorem takenTiers_eq (hq₀ : q₀.Ordered) {fuel : ℕ} {is : List ℕ} (his : is.Nodup) {s : Selection}
    {out : List LimitedBroadcast} (hs : s.Trace q₀ transmitLimit out)
    (hfuel : s.queue.tq.length < fuel) :
    takenTiers transmitLimit overhead limit fuel is s =
      scanOpen LimitedBroadcast.msgLen (free limit overhead s.bytesUsed)
        (is.flatMap fun i => s.queue.tq.filter fun e => e.transmits = i) := by
  induction is generalizing s out with
  | nil => rfl
  | cons i is ih =>
    obtain ⟨hi,his⟩ := List.nodup_cons.mp his
    have htier := takenTier_eq overhead limit i hq₀ fuel hs hfuel
    obtain ⟨hfree,hend⟩ := pickTier_free overhead limit i hq₀ fuel hs
    have hs' := hs.pickTier overhead limit i fuel hq₀.toConsistent
    have hleft : (pickTier transmitLimit overhead limit i fuel s).1.queue.tq =
        s.queue.tq.filter fun e => e ∉ takenTier transmitLimit overhead limit i fuel s := by
      rw [hs'.left,hs.left,List.filter_filter]
      exact List.filter_congr fun e _ => by simp [Bool.and_comm]
    have hrest : (is.flatMap fun j =>
        (pickTier transmitLimit overhead limit i fuel s).1.queue.tq.filter fun e =>
          e.transmits = j) =
        is.flatMap fun j => s.queue.tq.filter fun e => e.transmits = j := by
      refine List.flatMap_congr fun j hj => ?_
      have hne : j ≠ i := fun he => hi (he ▸ hj)
      rw [hleft,List.filter_filter]
      refine List.filter_congr fun e _ => ?_
      by_cases he : e.transmits = j
      · have hnot : e ∉ takenTier transmitLimit overhead limit i fuel s := fun hmem => by
          rw [htier] at hmem
          have := (List.mem_filter.mp ((scanOpen_sublist _ _).subset hmem)).2
          exact hne (he.symm.trans (by simpa using this))
        simp [he,hnot]
      · simp [he]
    have hlen : (pickTier transmitLimit overhead limit i fuel s).1.queue.tq.length < fuel := by
      rw [hleft]
      exact Nat.lt_of_le_of_lt (List.length_filter_le _ _) hfuel
    have hih := ih his hs' hlen
    rw [hrest,hfree] at hih
    rw [List.flatMap_cons,scanOpen_append,← htier]
    simp only [takenTiers]
    split
    · rename_i hgoto
      rw [← hfree,hend hgoto,scanOpen_zero]
    · rw [hih]

variable (fl : Floats) (estNumNodes : ℕ) (haveMsg : Bool)

theorem Ordered.transmits_head_le (hq : q.Ordered) {first e : LimitedBroadcast}
    (hfirst : q.tq.head? = some first) (he : e ∈ q.tq) : first.transmits ≤ e.transmits := by
  obtain ⟨l,hl⟩ := List.head?_eq_some_iff.mp hfirst
  have ht := hq.tiers
  rw [hl] at he ht
  rcases List.mem_cons.mp he with rfl | he
  · exact Nat.le_refl _
  · exact (List.pairwise_cons.mp ht).1 e he

/-- One call is one greedy pass over the set. -/
theorem taken_eq (hq : q.Ordered) : q.taken fl estNumNodes overhead limit haveMsg =
    scanOpen LimitedBroadcast.msgLen (free limit overhead 0) q.tq := by
  unfold taken
  cases hfirst : q.tq.head? with
  | none => simp [List.head?_eq_none_iff.mp hfirst]
  | some first =>
    cases hlast : q.tq.getLast? with
    | none => simp [List.getLast?_eq_none_iff.mp hlast] at hfirst
    | some last =>
      have htiers := flatMap_tiers LimitedBroadcast.transmits first.transmits
        (last.transmits + 1 - first.transmits) hq.tiers fun e he => ?_
      · dsimp only
        rw [takenTiers_eq overhead limit hq List.nodup_range'
          (Selection.Trace.initial hq.toConsistent _ haveMsg) (Nat.lt_succ_self _),htiers]
      · have h₁ := hq.transmits_head_le hfirst he
        have h₂ : e.transmits ≤ last.transmits := by
          obtain ⟨l,hl⟩ := List.getLast?_eq_some_iff.mp hlast
          have ht := hq.tiers
          rw [hl] at he ht
          rcases List.mem_append.mp he with he | he
          · exact (List.pairwise_append.mp ht).2.2 e he last (by simp)
          · exact (List.mem_singleton.mp he) ▸ Nat.le_refl _
        omega

theorem mem_reinsert (reinsert : List LimitedBroadcast) {q : BroadcastQueue} {e : LimitedBroadcast}
    (he : e ∈ (reinsert.foldl (fun q lb => q.addItem lb) q).tq) : e ∈ q.tq ∨ e ∈ reinsert := by
  induction reinsert generalizing q with
  | nil => exact Or.inl he
  | cons lb reinsert ih =>
    rcases ih he with h | h
    · rcases mem_addItem h with rfl | h
      · exact Or.inr List.mem_cons_self
      · exact Or.inl h
    · exact Or.inr (List.mem_cons_of_mem lb h)

theorem reinsert_sorted (reinsert : List LimitedBroadcast) {q : BroadcastQueue}
    (hq : q.tq.Pairwise fun e f => e.lt f) :
    (reinsert.foldl (fun q lb => q.addItem lb) q).tq.Pairwise fun e f => e.lt f := by
  induction reinsert generalizing q with
  | nil => exact hq
  | cons lb reinsert ih => exact ih (insertNew_sorted LimitedBroadcast.lt_trans hq)

theorem getBroadcasts_entries (hq : q.Consistent) {e : LimitedBroadcast}
    (he : e ∈ (q.getBroadcasts fl estNumNodes overhead limit haveMsg).2.2.tq) :
    ∃ e₀ ∈ q.tq, e₀ = e ∨ e₀.again = e := by
  obtain ⟨s,hs,h⟩ := getBroadcasts_trace fl estNumNodes overhead limit haveMsg hq
  rw [h] at he
  rcases mem_reinsert _ he with he | he
  · rw [hs.left] at he
    exact ⟨e,(List.mem_filter.mp he).1,Or.inl rfl⟩
  · rw [hs.reinsert] at he
    obtain ⟨e₀,he₀,rfl⟩ := List.mem_map.mp he
    exact ⟨e₀,hs.sub e₀ (List.mem_filter.mp he₀).1,Or.inr rfl⟩

theorem Ordered.getBroadcasts (hq : q.Ordered) :
    (q.getBroadcasts fl estNumNodes overhead limit haveMsg).2.2.Ordered := by
  have hentries := @getBroadcasts_entries q overhead limit fl estNumNodes haveMsg hq.toConsistent
  have hspec := getBroadcasts_spec fl estNumNodes overhead limit haveMsg hq.toConsistent
  obtain ⟨s,hs,h⟩ := getBroadcasts_trace fl estNumNodes overhead limit haveMsg hq.toConsistent
  refine ⟨hspec.1,?_,fun e he => ?_,fun e he => ?_,fun e he => ?_,?_⟩
  · rw [h]
    exact reinsert_sorted _ (hq.left hs).sorted
  · obtain ⟨e₀,he₀,rfl | rfl⟩ := hentries he <;> exact hq.ids e₀ he₀
  · obtain ⟨e₀,he₀,rfl | rfl⟩ := hentries he <;> exact hq.lengths e₀ he₀
  · obtain ⟨e₀,he₀,rfl | rfl⟩ := hentries he <;> exact hq.measured e₀ he₀
  · rw [h]
    exact (reinsert_idGen _ _).trans hs.idGen ▸ hq.idGen

theorem mem_queueBroadcast_fresh {b : MemberlistBroadcast} {e : LimitedBroadcast}
    (hq : q.Consistent) (he : e ∈ (q.queueBroadcast b 0).tq) : e = q.fresh b ∨ e ∈ q.tq := by
  rw [queueBroadcast_eq] at he
  refine (mem_addItem he).imp_right fun he => ?_
  have hq' : { q with idGen := q.nextId }.Consistent := ⟨hq.names,hq.mapped⟩
  rw [deleteItem_tq hq'] at he
  exact (List.mem_filter.mp he).1

theorem Ordered.queueBroadcast (hq : q.Ordered) {b : MemberlistBroadcast}
    (hb : b.msg.byteSizeLong < 2 ^ 64 - 1) : (q.queueBroadcast b 0).Ordered := by
  have hid : q.nextId < 2 ^ 32 := by
    have := hq.idGen
    unfold nextId
    split <;> omega
  have hq' : { q with idGen := q.nextId }.Consistent := ⟨hq.names,hq.mapped⟩
  refine ⟨queueBroadcast_consistent hq.toConsistent b 0,?_,fun e he => ?_,fun e he => ?_,
    fun e he => ?_,?_⟩
  · rw [queueBroadcast_eq]
    refine insertNew_sorted LimitedBroadcast.lt_trans ?_
    rw [deleteItem_tq hq']
    exact hq.sorted.sublist List.filter_sublist
  · rcases mem_queueBroadcast_fresh hq.toConsistent he with rfl | he
    · exact hid
    · exact hq.ids e he
  · rcases mem_queueBroadcast_fresh hq.toConsistent he with rfl | he
    · exact hb
    · exact hq.lengths e he
  · rcases mem_queueBroadcast_fresh hq.toConsistent he with rfl | he
    · rfl
    · exact hq.measured e he
  · rw [queueBroadcast_idGen]
    exact hid

theorem Ordered.call (hq : q.Ordered) {c : Call}
    (hc : ∀ b ∈ queued [c], b.msg.byteSizeLong < 2 ^ 64 - 1) : (q.call fl c).Ordered := by
  cases c with
  | queueBroadcast b => exact hq.queueBroadcast (hc b List.mem_cons_self)
  | getBroadcasts estNumNodes overhead limit haveMsg =>
    exact hq.getBroadcasts overhead limit fl estNumNodes haveMsg
  | prune maxRetain =>
    obtain ⟨hcons,hsub⟩ := prune_spec maxRetain hq.toConsistent
    exact ⟨hcons,hq.sorted.sublist hsub,fun e he => hq.ids e (hsub.subset he),
      fun e he => hq.lengths e (hsub.subset he),fun e he => hq.measured e (hsub.subset he),
      by simpa [BroadcastQueue.call] using hq.idGen⟩
  | clear =>
    exact ⟨clear_consistent q,List.Pairwise.nil,fun _ he => absurd he List.not_mem_nil,
      fun _ he => absurd he List.not_mem_nil,fun _ he => absurd he List.not_mem_nil,
      by simp [BroadcastQueue.call,BroadcastQueue.clear]⟩

theorem Ordered.new (retransmitMult : ℕ) : (new retransmitMult).Ordered :=
  ⟨new_consistent retransmitMult,List.Pairwise.nil,by simp [BroadcastQueue.new],
    by simp [BroadcastQueue.new],by simp [BroadcastQueue.new],by simp [BroadcastQueue.new]⟩

theorem after_ordered (retransmitMult : ℕ) (calls : List Call)
    (hlen : ∀ b ∈ queued calls, b.msg.byteSizeLong < 2 ^ 64 - 1) :
    (after fl retransmitMult calls).Ordered := by
  induction calls using List.reverseRecOn with
  | nil => exact Ordered.new retransmitMult
  | append_singleton calls c ih =>
    rw [queued_append] at hlen
    rw [after_snoc]
    exact (ih fun b hb => hlen b (List.mem_append_left _ hb)).call fl fun b hb =>
      hlen b (List.mem_append_right _ hb)

/-- The invariant of the queue: numbers tell entries apart, and no message is empty. -/
structure Represented (q : BroadcastQueue) : Prop extends q.Ordered where
  numbered : (q.tq.map (·.id)).Nodup
  filled : ∀ e ∈ q.tq, 0 < e.msgLen

theorem Represented.getBroadcasts (hq : q.Represented) :
    (q.getBroadcasts fl estNumNodes overhead limit haveMsg).2.2.Represented := by
  have hentries := @getBroadcasts_entries q overhead limit fl estNumNodes haveMsg hq.toConsistent
  obtain ⟨s,hs,h⟩ := getBroadcasts_trace fl estNumNodes overhead limit haveMsg hq.toConsistent
  have hids := hs.ids hq.numbered
  refine ⟨hq.toOrdered.getBroadcasts overhead limit fl estNumNodes haveMsg,?_,fun e he => ?_⟩
  · rw [h,((reinsert_perm s.reinsert hids).map LimitedBroadcast.id).nodup_iff,List.map_append]
    exact hids
  · obtain ⟨e₀,he₀,rfl | rfl⟩ := hentries he <;> exact hq.filled e₀ he₀

/-- Fewer broadcasts than there are numbers, none of them empty, keep the queue so. -/
theorem after_represented (retransmitMult : ℕ) (calls : List Call)
    (hcount : (queued calls).length < 2 ^ 32)
    (hlen : ∀ b ∈ queued calls, 0 < b.msg.byteSizeLong ∧ b.msg.byteSizeLong < 2 ^ 64 - 1) :
    (after fl retransmitMult calls).Represented := by
  induction calls using List.reverseRecOn with
  | nil => exact ⟨Ordered.new retransmitMult,List.nodup_nil,by simp [new]⟩
  | append_singleton calls c ih =>
    have hnum := after_numbered fl retransmitMult (calls ++ [c]) hcount
    have hord := after_ordered fl retransmitMult (calls ++ [c]) fun b hb => (hlen b hb).2
    rw [queued_append,List.length_append] at hcount
    rw [queued_append] at hlen
    have hq := ih (by omega) fun b hb => hlen b (List.mem_append_left _ hb)
    rw [after_snoc] at hnum hord ⊢
    refine ⟨hord,hnum.ids,?_⟩
    cases c with
    | queueBroadcast b =>
      intro e he
      rcases mem_queueBroadcast_fresh hq.toConsistent he with rfl | he
      · exact (hlen b (List.mem_append_right _ List.mem_cons_self)).1
      · exact hq.filled e he
    | getBroadcasts estNumNodes overhead limit haveMsg =>
      exact (hq.getBroadcasts overhead limit fl estNumNodes haveMsg).filled
    | prune maxRetain =>
      exact fun e he => hq.filled e ((prune_spec maxRetain hq.toConsistent).2.subset he)
    | clear => exact fun _ he => absurd he List.not_mem_nil

/-- A call hands out what one greedy pass over the set takes, in that order. The entries
taken count one more transmission and stay below the limit only; the others stay as they are. -/
theorem getBroadcasts_greedy (hq : q.Represented) (hle : overhead ≤ limit)
    (hlimit : limit < 2 ^ 64) :
    let picks := scan LimitedBroadcast.msgLen (limit - overhead) q.tq
    let r := q.getBroadcasts fl estNumNodes overhead limit haveMsg
    let transmitLimit := retransmitLimit fl q.retransmitMult estNumNodes
    r.2.1 = picks.map (·.b.msg) ∧
      r.2.2.tq.Perm ((q.tq.filter fun e => e ∉ picks) ++
        (picks.filter fun e => e.transmits + 1 < transmitLimit).map LimitedBroadcast.again) ∧
      r.2.2.Represented := by
  have htaken : q.taken fl estNumNodes overhead limit haveMsg =
      scan LimitedBroadcast.msgLen (limit - overhead) q.tq := by
    rw [taken_eq overhead limit fl estNumNodes haveMsg hq.toOrdered,free_eq hle hlimit,
      scanOpen_eq_scan hq.filled]
  have hperm := getBroadcasts_perm estNumNodes overhead limit haveMsg fl hq.toConsistent hq.numbered
  obtain ⟨-,-,hout⟩ := taken_spec estNumNodes overhead limit haveMsg fl hq.toConsistent
  rw [htaken] at hout
  dsimp only at hperm ⊢
  rw [htaken] at hperm
  exact ⟨hout,hperm,hq.getBroadcasts overhead limit fl estNumNodes haveMsg⟩

/-- Three entries and room for the two smaller ones. -/
theorem getBroadcasts_greedy_three :
    let b (node addr : String) : MemberlistBroadcast :=
      ⟨node,genAliveBroadcast ⟨1,node,addr,6666⟩,-1⟩
    let q := after .small 1 [.queueBroadcast (b "a" "10.0.0.1"),
      .queueBroadcast (b "b" "a-host-name-that-does-not-fit-in"),.queueBroadcast (b "c" "10.0.0.3")]
    let picks := scan LimitedBroadcast.msgLen (45 - 4) q.tq
    let r := q.getBroadcasts .small 3 4 45 false
    picks.map (·.b.node) = ["c","a"] ∧ r.2.1 = picks.map (·.b.msg) ∧ r.2.2.Represented := by
  intro b q picks r
  have hq : q.Represented := after_represented .small 1 _ (by decide) (by decide +kernel)
  obtain ⟨hout,-,hr⟩ :=
    getBroadcasts_greedy 4 45 .small 3 false hq (by decide) (by decide)
  exact ⟨by decide +kernel,hout,hr⟩

end BroadcastQueue
end GossipMemberlist
