import GossipMemberlist.QueueRuns

/-!
# Accounting of the transmit queue

A queued broadcast leaves the queue only for one of the reasons the queue knows,
and its transmission count is the number of calls that have handed it out since
it was queued. Until the number generator wraps, the numbers of queued entries
differ, and no insertion into the set is refused.
-/

namespace GossipMemberlist
namespace BroadcastQueue

open OrderedList

variable (fl : Floats)

def handedOut (q : BroadcastQueue) : Call → List MemberlistBroadcast
  | .getBroadcasts estNumNodes overhead limit haveMsg =>
    (q.taken fl estNumNodes overhead limit haveMsg).map (·.b)
  | _ => []

/-- The messages a call appends to the compound broadcast it was given. -/
def output (q : BroadcastQueue) : Call → List Broadcast
  | .getBroadcasts estNumNodes overhead limit haveMsg =>
    (q.getBroadcasts fl estNumNodes overhead limit haveMsg).2.1
  | _ => []

/-- Calls after which an entry for this node may be gone or another one. -/
def Call.Displaces (node : String) : Call → Prop
  | .queueBroadcast b => b.node = node
  | .clear => True
  | _ => False

/-- The queue after `n` broadcasts were queued. -/
structure Numbered (n : ℕ) (q : BroadcastQueue) : Prop extends q.Consistent where
  idGen : q.idGen ≤ n
  ids : (q.tq.map (·.id)).Nodup
  below : ∀ e ∈ q.tq, e.id ≤ q.idGen

variable {fl} {n : ℕ} {q : BroadcastQueue}

theorem Numbered.new (retransmitMult : ℕ) : (new retransmitMult).Numbered 0 :=
  ⟨new_consistent retransmitMult,Nat.le_refl _,List.nodup_nil,fun _ he => by cases he⟩

theorem Numbered.clear (n : ℕ) (q : BroadcastQueue) : q.clear.Numbered n :=
  ⟨clear_consistent q,Nat.zero_le _,List.nodup_nil,fun _ he => by cases he⟩

theorem Numbered.queueBroadcast_perm (hq : q.Numbered n) (hn : n + 1 < 2 ^ 32)
    (b : MemberlistBroadcast) (t : ℕ) :
    (q.queueBroadcast b t).tq.Perm (⟨t,b.msg.byteSizeLong,q.idGen + 1,b⟩::
      q.tq.filter fun e => e.b.node ≠ b.node) := by
  have hgen := hq.idGen
  have hid : (if q.idGen = 2 ^ 32 - 1 then 1 else q.idGen + 1) = q.idGen + 1 :=
    if_neg (by omega)
  have hq' : { q with idGen := q.idGen + 1 }.Consistent := ⟨hq.names,hq.mapped⟩
  let lb : LimitedBroadcast := ⟨t,b.msg.byteSizeLong,q.idGen + 1,b⟩
  have htq : ({ q with idGen := q.idGen + 1 }.deleteItem lb).tq =
      q.tq.filter fun e => e.b.node ≠ b.node := deleteItem_tq hq' lb
  have hnew : lb.id ∉
      ({ q with idGen := q.idGen + 1 }.deleteItem lb).tq.map LimitedBroadcast.id := by
    rw [htq,List.mem_map]
    rintro ⟨e,he,hid⟩
    have hle := hq.below e (List.mem_filter.mp he).1
    change e.id = q.idGen + 1 at hid
    omega
  have hp := addItem_perm hnew
  rw [htq] at hp
  simpa only [queueBroadcast,hid] using hp

@[simp] theorem queueBroadcast_idGen (b : MemberlistBroadcast) (t : ℕ) (q : BroadcastQueue) :
    (q.queueBroadcast b t).idGen = if q.idGen = 2 ^ 32 - 1 then 1 else q.idGen + 1 := by
  simp only [queueBroadcast,addItem_idGen,deleteItem_idGen]

theorem Numbered.queueBroadcast (hq : q.Numbered n) (hn : n + 1 < 2 ^ 32)
    (b : MemberlistBroadcast) (t : ℕ) : (q.queueBroadcast b t).Numbered (n + 1) := by
  have hgen := hq.idGen
  have hid : (q.queueBroadcast b t).idGen = q.idGen + 1 := by
    rw [queueBroadcast_idGen,if_neg (by omega)]
  have hp := hq.queueBroadcast_perm hn b t
  have hold : ∀ e ∈ q.tq.filter fun e => e.b.node ≠ b.node, e.id ≤ q.idGen :=
    fun e he => hq.below e (List.mem_filter.mp he).1
  refine ⟨queueBroadcast_consistent hq.toConsistent b t,by omega,?_,fun e he => ?_⟩
  · rw [(hp.map LimitedBroadcast.id).nodup_iff,List.map_cons,List.nodup_cons,List.mem_map]
    refine ⟨?_,hq.ids.sublist (List.filter_sublist.map _)⟩
    rintro ⟨e,he,hid⟩
    have hle := hold e he
    change e.id = q.idGen + 1 at hid
    omega
  · rw [hid]
    rcases List.mem_cons.mp (hp.mem_iff.mp he) with rfl | he
    · exact Nat.le_refl _
    · exact Nat.le_succ_of_le (hold e he)

variable (estNumNodes overhead limit : ℕ) (haveMsg : Bool)

theorem taken_spec (fl : Floats) (hq : q.Consistent) :
    (q.taken fl estNumNodes overhead limit haveMsg).Nodup ∧
      (∀ e ∈ q.taken fl estNumNodes overhead limit haveMsg, e ∈ q.tq) ∧
      (q.getBroadcasts fl estNumNodes overhead limit haveMsg).2.1 =
        (q.taken fl estNumNodes overhead limit haveMsg).map (·.b.msg) := by
  obtain ⟨s,hs,h⟩ := getBroadcasts_trace fl estNumNodes overhead limit haveMsg hq
  exact ⟨hs.nodup,hs.sub,by rw [h]; exact hs.cbc⟩

/-- What tells queued entries apart, and a transmission does not change, tells apart the
entries left in the set and those that go back. -/
theorem Selection.Trace.nodup_map {β : Type*} {key : LimitedBroadcast → β}
    (hkey : ∀ e : LimitedBroadcast, key e.again = key e) (hq : (q.tq.map key).Nodup)
    {transmitLimit : ℕ} {out : List LimitedBroadcast} {s : Selection}
    (hs : s.Trace q transmitLimit out) : (s.queue.tq.map key ++ s.reinsert.map key).Nodup := by
  have hback : s.reinsert.map key =
      (out.filter fun e => e.transmits + 1 < transmitLimit).map key := by
    rw [hs.reinsert,List.map_map]
    exact List.map_congr_left fun e _ => hkey e
  rw [hback,hs.left,← List.map_append]
  have hsub : ∀ e ∈ (q.tq.filter fun e => e ∉ out) ++
      out.filter (fun e => e.transmits + 1 < transmitLimit), e ∈ q.tq := by
    intro e he
    rcases List.mem_append.mp he with he | he
    · exact (List.mem_filter.mp he).1
    · exact hs.sub e (List.mem_filter.mp he).1
  refine List.Nodup.map_on (fun e he f hf h => ?_) ?_
  · exact List.inj_on_of_nodup_map hq (hsub e he) (hsub f hf) h
  · refine List.nodup_append.mpr ⟨?_,hs.nodup.filter _,fun e he f hf hef => ?_⟩
    · exact (List.Nodup.of_map _ hq).filter _
    · subst hef
      simpa [(List.mem_filter.mp hf).1] using (List.mem_filter.mp he).2

theorem Selection.Trace.ids (hids : (q.tq.map (·.id)).Nodup) {transmitLimit : ℕ}
    {out : List LimitedBroadcast} {s : Selection} (hs : s.Trace q transmitLimit out) :
    (s.queue.tq.map (·.id) ++ s.reinsert.map (·.id)).Nodup :=
  hs.nodup_map (fun _ => rfl) hids

/-- `GetBroadcasts` leaves every other entry alone and puts back each entry it took
out, transmitted once more, unless that reaches the limit. -/
theorem getBroadcasts_perm (fl : Floats) (hq : q.Consistent) (hids : (q.tq.map (·.id)).Nodup) :
    let out := q.taken fl estNumNodes overhead limit haveMsg
    let transmitLimit := retransmitLimit fl q.retransmitMult estNumNodes
    (q.getBroadcasts fl estNumNodes overhead limit haveMsg).2.2.tq.Perm
      ((q.tq.filter fun e => e ∉ out) ++
        (out.filter fun e => e.transmits + 1 < transmitLimit).map LimitedBroadcast.again) := by
  obtain ⟨s,hs,h⟩ := getBroadcasts_trace fl estNumNodes overhead limit haveMsg hq
  dsimp only
  rw [h,← hs.left,← hs.reinsert]
  exact reinsert_perm s.reinsert (hs.ids hids)

theorem Numbered.getBroadcasts (fl : Floats) (hq : q.Numbered n) :
    (q.getBroadcasts fl estNumNodes overhead limit haveMsg).2.2.Numbered n := by
  have hspec := getBroadcasts_spec fl estNumNodes overhead limit haveMsg hq.toConsistent
  obtain ⟨s,hs,h⟩ := getBroadcasts_trace fl estNumNodes overhead limit haveMsg hq.toConsistent
  have hp := reinsert_perm s.reinsert (hs.ids hq.ids)
  have hid : (q.getBroadcasts fl estNumNodes overhead limit haveMsg).2.2.idGen = q.idGen := by
    rw [h]
    exact (reinsert_idGen _ _).trans hs.idGen
  refine ⟨hspec.1,hid ▸ hq.idGen,?_,fun e he => ?_⟩
  · rw [h,(hp.map LimitedBroadcast.id).nodup_iff,List.map_append]
    exact hs.ids hq.ids
  · rw [h] at he
    rw [hid]
    rcases List.mem_append.mp (hp.mem_iff.mp he) with he | he
    · rw [hs.left] at he
      exact hq.below e (List.mem_filter.mp he).1
    · rw [hs.reinsert] at he
      obtain ⟨e₀,he₀,rfl⟩ := List.mem_map.mp he
      exact hq.below e₀ (hs.sub e₀ (List.mem_filter.mp he₀).1)

theorem Numbered.prune (maxRetain : ℕ) (hq : q.Numbered n) : (q.prune maxRetain).Numbered n := by
  obtain ⟨hc,hsub⟩ := prune_spec maxRetain hq.toConsistent
  refine ⟨hc,?_,hq.ids.sublist (hsub.map _),fun e he => ?_⟩
  · rw [prune_idGen]
    exact hq.idGen
  · rw [prune_idGen]
    exact hq.below e (hsub.subset he)

theorem Numbered.call (fl : Floats) (hq : q.Numbered n) (c : Call)
    (hn : n + (queued [c]).length < 2 ^ 32) :
    (q.call fl c).Numbered (n + (queued [c]).length) := by
  cases c with
  | queueBroadcast b => exact hq.queueBroadcast hn b 0
  | getBroadcasts estNumNodes overhead limit haveMsg =>
    exact hq.getBroadcasts estNumNodes overhead limit haveMsg fl
  | prune maxRetain => exact hq.prune maxRetain
  | clear => exact Numbered.clear n q

theorem after_numbered (fl : Floats) (retransmitMult : ℕ) (calls : List Call)
    (h : (queued calls).length < 2 ^ 32) :
    (after fl retransmitMult calls).Numbered (queued calls).length := by
  induction calls using List.reverseRecOn with
  | nil => exact Numbered.new retransmitMult
  | append_singleton calls c ih =>
    rw [queued_append,List.length_append] at h ⊢
    rw [after_snoc]
    exact (ih (by omega)).call fl c h

/-- Where a queued entry comes from: the call that queued its broadcast, after which
nothing displaced it, and the calls since then that handed it out. The last clause
counts the calls whose output shows the message, which says the same as long as
no other node has an equal one. -/
structure History (fl : Floats) (retransmitMult : ℕ) (calls : List Call) (e : LimitedBroadcast)
    (pre post : List Call) : Prop where
  split : calls = pre ++ .queueBroadcast e.b::post
  kept : ∀ c ∈ post, ¬c.Displaces e.b.node
  transmits : e.transmits = Transitions.tally (call fl) (fun q c => e.b ∈ q.handedOut fl c)
    (after fl retransmitMult (pre ++ [.queueBroadcast e.b])) post
  messages : (∀ b ∈ queued calls, b.msg = e.b.msg → b.node = e.b.node) →
    e.transmits = Transitions.tally (call fl) (fun q c => e.b.msg ∈ q.output fl c)
      (after fl retransmitMult (pre ++ [.queueBroadcast e.b])) post

section History

variable {retransmitMult : ℕ} {calls pre post : List Call} {e : LimitedBroadcast}

theorem History.queued (h : History fl retransmitMult calls e pre post) :
    e.b ∈ queued calls := by
  rw [h.split,queued_append]
  simp [BroadcastQueue.queued]

theorem output_eq (hq : q.Consistent) (c : Call) :
    q.output fl c = (q.handedOut fl c).map (·.msg) := by
  cases c with
  | getBroadcasts estNumNodes overhead limit haveMsg =>
    rw [output,handedOut,List.map_map]
    exact (taken_spec estNumNodes overhead limit haveMsg fl hq).2.2
  | queueBroadcast b => rfl
  | prune maxRetain => rfl
  | clear => rfl

theorem handedOut_mem (hq : q.Consistent) {c : Call} {b : MemberlistBroadcast}
    (h : b ∈ q.handedOut fl c) : ∃ e ∈ q.tq, e.b = b := by
  cases c with
  | getBroadcasts estNumNodes overhead limit haveMsg =>
    obtain ⟨e,he,rfl⟩ := List.mem_map.mp h
    exact ⟨e,(taken_spec estNumNodes overhead limit haveMsg fl hq).2.1 e he,rfl⟩
  | queueBroadcast b => cases h
  | prune maxRetain => cases h
  | clear => cases h

theorem mem_output_iff (hq : q.Consistent) {all : List MemberlistBroadcast}
    (hall : ∀ e ∈ q.tq, e.b ∈ all) (he : e ∈ q.tq)
    (hdistinct : ∀ b ∈ all, b.msg = e.b.msg → b.node = e.b.node) (fl : Floats) (c : Call) :
    e.b.msg ∈ q.output fl c ↔ e.b ∈ q.handedOut fl c := by
  rw [output_eq hq c,List.mem_map]
  constructor
  · rintro ⟨b,hb,hmsg⟩
    obtain ⟨f,hf,rfl⟩ := handedOut_mem hq hb
    have hef : e = f := hq.node_inj he hf (hdistinct f.b (hall f hf) hmsg).symm
    rwa [hef]
  · exact fun hb => ⟨e.b,hb,rfl⟩

theorem History.snoc (h : History fl retransmitMult calls e pre post)
    (hq : (after fl retransmitMult calls).Consistent)
    (hall : ∀ e ∈ (after fl retransmitMult calls).tq, e.b ∈ BroadcastQueue.queued calls)
    (he : e ∈ (after fl retransmitMult calls).tq) {c : Call} (hc : ¬c.Displaces e.b.node)
    {e' : LimitedBroadcast} (hb : e'.b = e.b)
    (ht : e'.transmits = e.transmits +
      (decide (e.b ∈ (after fl retransmitMult calls).handedOut fl c)).toNat) :
    History fl retransmitMult (calls ++ [c]) e' pre (post ++ [c]) := by
  have hrun : Transitions.run (BroadcastQueue.call fl)
      (after fl retransmitMult (pre ++ [.queueBroadcast e.b])) post =
      after fl retransmitMult calls := by
    rw [← after_append,h.split]
    simp
  refine ⟨by rw [h.split,hb]; simp,fun c' hc' => ?_,?_,fun hdistinct => ?_⟩
  · rw [hb]
    rcases List.mem_append.mp hc' with hc' | hc'
    · exact h.kept c' hc'
    · exact List.mem_singleton.mp hc' ▸ hc
  · rw [hb,Transitions.tally_snoc,hrun,← h.transmits]
    exact ht
  · rw [hb] at hdistinct ⊢
    have hdistinct' : ∀ b ∈ BroadcastQueue.queued calls, b.msg = e.b.msg → b.node = e.b.node :=
      fun b hbq => hdistinct b (by rw [queued_append]; exact List.mem_append_left _ hbq)
    have hiff := mem_output_iff hq hall he hdistinct' fl c
    rw [Transitions.tally_snoc,hrun,← h.messages hdistinct',ht]
    simp only [hiff]

theorem after_history (fl : Floats) (retransmitMult : ℕ) (calls : List Call)
    (h : (BroadcastQueue.queued calls).length < 2 ^ 32) :
    ∀ e ∈ (after fl retransmitMult calls).tq, ∃ pre post,
      History fl retransmitMult calls e pre post := by
  induction calls using List.reverseRecOn with
  | nil => exact fun _ he => by cases he
  | append_singleton calls c ih =>
    rw [queued_append,List.length_append] at h
    have hih := ih (by omega)
    have hq := after_numbered fl retransmitMult calls (by omega)
    have hall : ∀ e ∈ (after fl retransmitMult calls).tq, e.b ∈ BroadcastQueue.queued calls := by
      intro e he
      obtain ⟨pre,post,hh⟩ := hih e he
      exact hh.queued
    -- an entry that the call neither displaces nor hands out keeps its history
    have hkeep : ∀ e ∈ (after fl retransmitMult calls).tq, ¬c.Displaces e.b.node →
        e.b ∉ (after fl retransmitMult calls).handedOut fl c →
        ∃ pre post, History fl retransmitMult (calls ++ [c]) e pre post := by
      intro e he hc hout
      obtain ⟨pre,post,hh⟩ := hih e he
      exact ⟨pre,post ++ [c],hh.snoc hq.toConsistent hall he hc rfl (by simp [hout])⟩
    intro e he
    rw [after_snoc] at he
    cases c with
    | queueBroadcast b =>
      have hp := hq.queueBroadcast_perm h b 0
      rcases List.mem_cons.mp (hp.mem_iff.mp he) with rfl | he
      · exact ⟨calls,[],rfl,fun _ hc => absurd hc List.not_mem_nil,rfl,fun _ => rfl⟩
      · obtain ⟨he,hn⟩ := List.mem_filter.mp he
        have hne : e.b.node ≠ b.node := by simpa using hn
        exact hkeep e he (fun hd => hne hd.symm) (by simp [handedOut])
    | getBroadcasts estNumNodes overhead limit haveMsg =>
      have hp := getBroadcasts_perm estNumNodes overhead limit haveMsg fl hq.toConsistent hq.ids
      have hsub := (taken_spec estNumNodes overhead limit haveMsg fl hq.toConsistent).2.1
      rcases List.mem_append.mp (hp.mem_iff.mp he) with he | he
      · obtain ⟨he,hout⟩ := List.mem_filter.mp he
        refine hkeep e he (fun hd => hd) fun hb => ?_
        obtain ⟨f,hf,hb⟩ := List.mem_map.mp hb
        have hef := hq.node_inj (hsub f hf) he (congrArg MemberlistBroadcast.node hb)
        simp [← hef,hf] at hout
      · obtain ⟨e₀,he₀,rfl⟩ := List.mem_map.mp he
        have hout := (List.mem_filter.mp he₀).1
        obtain ⟨pre,post,hh⟩ := hih e₀ (hsub e₀ hout)
        have hb : e₀.b ∈ (after fl retransmitMult calls).handedOut fl
            (.getBroadcasts estNumNodes overhead limit haveMsg) := List.mem_map_of_mem hout
        have hc : ¬(Call.getBroadcasts estNumNodes overhead limit haveMsg).Displaces e₀.b.node :=
          fun hd => hd
        exact ⟨pre,_,hh.snoc hq.toConsistent hall (hsub e₀ hout) hc rfl
          (by simp [hb,LimitedBroadcast.again])⟩
    | prune maxRetain =>
      have hsub := (prune_spec maxRetain hq.toConsistent).2
      exact hkeep e (hsub.subset he) (fun hd => hd) (by simp [handedOut])
    | clear => cases he

end History

def Call.Removes (fl : Floats) (q : BroadcastQueue) (e : LimitedBroadcast) : Call → Prop
  | .queueBroadcast b => b.node = e.b.node
  | .getBroadcasts estNumNodes overhead limit haveMsg =>
    e ∈ q.taken fl estNumNodes overhead limit haveMsg ∧
      retransmitLimit fl q.retransmitMult estNumNodes ≤ e.transmits + 1
  | .prune _ => True
  | .clear => True

theorem Numbered.call_keeps (fl : Floats) (hq : q.Numbered n) (c : Call)
    (hn : n + (queued [c]).length < 2 ^ 32) {e : LimitedBroadcast} (he : e ∈ q.tq)
    (hc : ¬c.Removes fl q e) : ∃ e' ∈ (q.call fl c).tq, e'.b = e.b ∧ e'.id = e.id := by
  cases c with
  | queueBroadcast b =>
    have hp := hq.queueBroadcast_perm hn b 0
    have hne : e.b.node ≠ b.node := fun h => hc h.symm
    refine ⟨e,hp.mem_iff.mpr (List.mem_cons_of_mem _ ?_),rfl,rfl⟩
    simpa using ⟨he,hne⟩
  | getBroadcasts estNumNodes overhead limit haveMsg =>
    have hp := getBroadcasts_perm estNumNodes overhead limit haveMsg fl hq.toConsistent hq.ids
    by_cases hout : e ∈ q.taken fl estNumNodes overhead limit haveMsg
    · have hlim : e.transmits + 1 < retransmitLimit fl q.retransmitMult estNumNodes :=
        Nat.lt_of_not_le fun hle => hc ⟨hout,hle⟩
      refine ⟨e.again,hp.mem_iff.mpr (List.mem_append_right _ ?_),rfl,rfl⟩
      exact List.mem_map_of_mem (by simpa using ⟨hout,hlim⟩)
    · exact ⟨e,hp.mem_iff.mpr (List.mem_append_left _ (by simpa using ⟨he,hout⟩)),rfl,rfl⟩
  | prune maxRetain => exact absurd trivial hc
  | clear => exact absurd trivial hc

/-- The accounting of the transmit queue, for any calls with fewer than `2 ^ 32`
queueings. -/
theorem transmit_accounting (fl : Floats) (retransmitMult : ℕ) (calls : List Call)
    (h : (queued calls).length < 2 ^ 32) :
    let q := after fl retransmitMult calls
    (q.tq.map (·.b.node)).Nodup ∧
    (∀ e ∈ q.tq, ∃ pre post, History fl retransmitMult calls e pre post) ∧
    (∀ estNumNodes overhead limit haveMsg,
      let out := q.taken fl estNumNodes overhead limit haveMsg
      let r := q.getBroadcasts fl estNumNodes overhead limit haveMsg
      out.Nodup ∧ (∀ e ∈ out, e ∈ q.tq) ∧ r.2.1 = out.map (·.b.msg) ∧
        r.2.2.tq.Perm ((q.tq.filter fun e => e ∉ out) ++
          (out.filter fun e => e.transmits + 1 <
            retransmitLimit fl q.retransmitMult estNumNodes).map LimitedBroadcast.again)) ∧
    (∀ b, (queued calls).length + 1 < 2 ^ 32 →
      (q.queueBroadcast b 0).tq.Perm (⟨0,b.msg.byteSizeLong,q.idGen + 1,b⟩::
        q.tq.filter fun e => e.b.node ≠ b.node)) ∧
    ∀ c, (queued calls).length + (queued [c]).length < 2 ^ 32 → ∀ e ∈ q.tq, ¬c.Removes fl q e →
      ∃ e' ∈ (q.call fl c).tq, e'.b = e.b ∧ e'.id = e.id := by
  have hq := after_numbered fl retransmitMult calls h
  refine ⟨hq.names,after_history fl retransmitMult calls h,
    fun estNumNodes overhead limit haveMsg => ?_,fun b hb => hq.queueBroadcast_perm hb b 0,
    fun c hc e he hr => hq.call_keeps fl c hc he hr⟩
  obtain ⟨hn,hsub,hout⟩ := taken_spec estNumNodes overhead limit haveMsg fl hq.toConsistent
  exact ⟨hn,hsub,hout,
    getBroadcasts_perm estNumNodes overhead limit haveMsg fl hq.toConsistent hq.ids⟩

/-- One transmission of a broadcast that was queued once. -/
theorem transmit_accounting_once :
    let b : MemberlistBroadcast := ⟨"b",genAliveBroadcast ⟨1,"b","10.0.0.2",6666⟩,-1⟩
    let calls : List Call := [.queueBroadcast b,.getBroadcasts 3 2 1400 false]
    let q := after .small 4 calls
    q.tq.map (·.transmits) = [1] ∧
      ∀ e ∈ q.tq, ∃ pre post, History .small 4 calls e pre post := by
  intro b calls q
  exact ⟨by decide +kernel,(transmit_accounting .small 4 calls (by decide)).2.1⟩

end BroadcastQueue
end GossipMemberlist
