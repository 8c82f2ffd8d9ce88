import GossipMemberlist.QueueRuns
import Mathlib.Data.List.Perm.Subperm

/-!
# Notification law of the transmit queue

`Finished` tells whoever waits for a broadcast that it has left the queue. Until
a call hands a broadcast out, it is called once for each broadcast that is gone;
the call that hands one out calls it too, although the broadcast is put back.
-/

namespace GossipMemberlist
namespace BroadcastQueue

open OrderedList

/-- Of every broadcast as many copies are queued or were notified as came in. -/
def Notified (calls : List Call) (q : BroadcastQueue) : Prop :=
  (q.tq.map (·.b) ++ q.finished).Perm (queued calls)

instance (calls : List Call) (q : BroadcastQueue) : Decidable (Notified calls q) :=
  inferInstanceAs (Decidable (List.Perm _ _))

def nextId (q : BroadcastQueue) : ℕ := if q.idGen = 2 ^ 32 - 1 then 1 else q.idGen + 1

/-- The call hands nothing out, and what it queues differs from every other node's
entry in length or in number. -/
def Quiet (q : BroadcastQueue) : Call → Prop
  | .queueBroadcast b => ∀ e ∈ q.tq, e.b.node ≠ b.node → e.msgLen = b.msg.byteSizeLong →
      e.id ≠ q.nextId
  | .getBroadcasts _ overhead limit _ =>
      free limit overhead 0 = 0 ∨ ∀ e ∈ q.tq, free limit overhead 0 < e.msgLen
  | .prune _ => True
  | .clear => True

structure Resting (q : BroadcastQueue) : Prop extends q.Consistent where
  sorted : q.tq.Pairwise fun e f => e.lt f
  transmits : ∀ e ∈ q.tq, e.transmits = 0
  ids : ∀ e ∈ q.tq, e.id < 2 ^ 32
  idGen : q.idGen < 2 ^ 32

theorem Resting.new (retransmitMult : ℕ) : (new retransmitMult).Resting :=
  ⟨new_consistent retransmitMult,List.Pairwise.nil,by simp [BroadcastQueue.new],
    by simp [BroadcastQueue.new],by simp [BroadcastQueue.new]⟩

variable {q : BroadcastQueue}

theorem deleteItem_notified (lb : LimitedBroadcast) (q : BroadcastQueue) :
    ((q.deleteItem lb).tq.map (·.b) ++ (q.deleteItem lb).finished).Perm
      (q.tq.map (·.b) ++ q.finished) := by
  unfold deleteItem
  split
  · let p : LimitedBroadcast → Bool := fun e => e.b.node = lb.b.node
    have hnot : (q.tq.filter fun e => e.b.node ≠ lb.b.node) = q.tq.filter fun e => !p e :=
      List.filter_congr fun e _ => by simp [p]
    have hsplit : (q.tq.filter p ++ q.tq.filter fun e => !p e).Perm q.tq :=
      List.filter_append_perm p q.tq
    dsimp only
    rw [hnot,List.perm_iff_count]
    intro b
    have hcount := (hsplit.map (·.b)).count_eq b
    rw [List.map_append,List.count_append] at hcount
    simp only [List.count_append,p] at hcount ⊢
    omega
  · exact List.Perm.refl _

theorem Resting.deleteItem (hq : q.Resting) (lb : LimitedBroadcast) :
    (q.deleteItem lb).Resting := by
  have htq := deleteItem_tq hq.toConsistent lb
  have hsub : (q.deleteItem lb).tq.Sublist q.tq := htq ▸ List.filter_sublist
  exact ⟨deleteItem_consistent hq.toConsistent lb,hq.sorted.sublist hsub,
    fun e he => hq.transmits e (hsub.subset he),fun e he => hq.ids e (hsub.subset he),
    by simpa using hq.idGen⟩

def fresh (b : MemberlistBroadcast) (q : BroadcastQueue) : LimitedBroadcast :=
  ⟨0,b.msg.byteSizeLong,q.nextId,b⟩

@[simp] theorem fresh_b (b : MemberlistBroadcast) (q : BroadcastQueue) : (q.fresh b).b = b := rfl

theorem queueBroadcast_eq (b : MemberlistBroadcast) (q : BroadcastQueue) :
    q.queueBroadcast b 0 =
      ({ q with idGen := q.nextId }.deleteItem (q.fresh b)).addItem (q.fresh b) :=
  rfl

theorem nextId_lt (hq : q.Resting) : q.nextId < 2 ^ 32 := by
  have hgen := hq.idGen
  unfold nextId
  split <;> omega

theorem Resting.numbered (hq : q.Resting) : { q with idGen := q.nextId }.Resting :=
  ⟨⟨hq.names,hq.mapped⟩,hq.sorted,hq.transmits,hq.ids,nextId_lt hq⟩

theorem Resting.queueBroadcast (hq : q.Resting) (b : MemberlistBroadcast) :
    (q.queueBroadcast b 0).Resting := by
  have hd := hq.numbered.deleteItem (q.fresh b)
  have hc := queueBroadcast_consistent hq.toConsistent b 0
  rw [queueBroadcast_eq] at hc ⊢
  refine ⟨hc,insertNew_sorted LimitedBroadcast.lt_trans hd.sorted,fun e he => ?_,fun e he => ?_,
    hd.idGen⟩
  · rcases mem_addItem he with rfl | he
    · rfl
    · exact hd.transmits e he
  · rcases mem_addItem he with rfl | he
    · exact nextId_lt hq
    · exact hd.ids e he

/-- A resting queue takes every broadcast in but one that the set already has under
another name. -/
theorem queueBroadcast_notified (hq : q.Resting) (b : MemberlistBroadcast) :
    ((q.queueBroadcast b 0).tq.map (·.b) ++ (q.queueBroadcast b 0).finished).Perm
      (b::(q.tq.map (·.b) ++ q.finished)) ↔ q.Quiet (.queueBroadcast b) := by
  have hd := hq.numbered.deleteItem (q.fresh b)
  have hperm := deleteItem_notified (q.fresh b) { q with idGen := q.nextId }
  have htq := deleteItem_tq hq.numbered.toConsistent (q.fresh b)
  rw [queueBroadcast_eq]
  generalize { q with idGen := q.nextId }.deleteItem (q.fresh b) = d at hd hperm htq
  constructor
  · intro h e he hn hlen hid
    have hed : e ∈ d.tq := by
      rw [htq]
      exact List.mem_filter.mpr ⟨he,by simp [hn]⟩
    have ht := hq.transmits e he
    have hsame : (d.addItem (q.fresh b)).tq = d.tq :=
      insertNew_eq_self LimitedBroadcast.lt_trans hd.sorted hed
        (LimitedBroadcast.not_lt_of_eq ht.symm hlen.symm hid.symm)
        (LimitedBroadcast.not_lt_of_eq ht hlen hid)
    have hl := h.length_eq
    rw [hsame,addItem_finished,hperm.length_eq] at hl
    simp at hl
  · intro h
    have hp : (d.addItem (q.fresh b)).tq.Perm (q.fresh b::d.tq) := by
      refine insertNew_perm fun e he => ?_
      rw [htq,fresh_b] at he
      obtain ⟨he,hn⟩ := List.mem_filter.mp he
      have ht := hq.transmits e he
      have hne := h e he (by simpa using hn)
      simp only [LimitedBroadcast.lt_iff,fresh]
      omega
    rw [addItem_finished]
    exact ((hp.map LimitedBroadcast.b).append_right d.finished).trans (hperm.cons b)

theorem pruneBack_notified (maxRetain : ℕ) {i : LimitedBroadcast} {rs : List LimitedBroadcast}
    (hrs : q.tq.reverse = i::rs) :
    ((q.pruneBack maxRetain i).tq.map (·.b) ++ (q.pruneBack maxRetain i).finished).Perm
      (q.tq.map (·.b) ++ q.finished) := by
  have htq : q.tq = rs.reverse ++ [i] := by simpa using congrArg List.reverse hrs
  unfold pruneBack
  split
  · simp only [finish,htq,List.dropLast_concat,List.map_append,List.map_cons,List.map_nil,
      List.append_assoc]
    exact List.perm_append_comm.append_left _
  · exact List.Perm.refl _

theorem prune_notified (maxRetain : ℕ) (q : BroadcastQueue) :
    ((q.prune maxRetain).tq.map (·.b) ++ (q.prune maxRetain).finished).Perm
      (q.tq.map (·.b) ++ q.finished) :=
  prune_invariant maxRetain
    (P := fun q' => (q'.tq.map (·.b) ++ q'.finished).Perm (q.tq.map (·.b) ++ q.finished))
    (fun _ _ _ h hrs => (pruneBack_notified maxRetain hrs).trans h) (List.Perm.refl _)

theorem Resting.prune (hq : q.Resting) (maxRetain : ℕ) : (q.prune maxRetain).Resting := by
  obtain ⟨hc,hsub⟩ := prune_spec maxRetain hq.toConsistent
  exact ⟨hc,hq.sorted.sublist hsub,fun e he => hq.transmits e (hsub.subset he),
    fun e he => hq.ids e (hsub.subset he),by simpa using hq.idGen⟩

theorem Resting.clear (q : BroadcastQueue) : q.clear.Resting :=
  ⟨clear_consistent q,List.Pairwise.nil,fun _ he => absurd he List.not_mem_nil,
    fun _ he => absurd he List.not_mem_nil,by simp [BroadcastQueue.clear]⟩

/-- A resting queue has one tier, and its search finds an entry unless all are too
long. -/
theorem candidate_none_iff (hq : q.Resting) (space : ℕ) :
    q.candidate 0 space = none ↔ ∀ e ∈ q.tq, space < e.msgLen := by
  have hup : upperBound LimitedBroadcast.lt (.key (0 + 1) (2 ^ 64 - 1) (2 ^ 32 - 1)) q.tq =
      q.tq.length := by
    refine List.findIdx_eq_length.mpr fun e he => ?_
    rw [Bool.eq_false_iff,ne_eq,LimitedBroadcast.lt_iff]
    have ht := hq.transmits e he
    simp only [LimitedBroadcast.key]
    omega
  have hlow : lowerBound LimitedBroadcast.lt (.key 0 space (2 ^ 32 - 1)) q.tq = q.tq.length ↔
      ∀ e ∈ q.tq, space < e.msgLen := by
    rw [lowerBound,List.findIdx_eq_length]
    refine forall₂_congr fun e he => ?_
    have ht := hq.transmits e he
    have hid := hq.ids e he
    simp only [Bool.not_eq_false',LimitedBroadcast.lt_iff,LimitedBroadcast.key]
    omega
  unfold candidate
  dsimp only
  rw [hup,← hlow]
  split
  · rename_i h
    exact ⟨fun _ => h,fun _ => rfl⟩
  · rename_i h
    rw [List.getElem?_eq_none_iff]
    exact ⟨fun hle => absurd (le_antisymm List.findIdx_le_length hle) h,fun heq => absurd heq h⟩

variable (fl : Floats)

theorem taken_nil_iff (hq : q.Resting) (estNumNodes overhead limit : ℕ) (haveMsg : Bool) :
    q.taken fl estNumNodes overhead limit haveMsg = [] ↔
      q.Quiet (.getBroadcasts estNumNodes overhead limit haveMsg) := by
  unfold taken
  cases hfirst : q.tq.head? with
  | none => simp [Quiet,List.head?_eq_none_iff.mp hfirst]
  | some first =>
    cases hlast : q.tq.getLast? with
    | none => simp [List.getLast?_eq_none_iff.mp hlast] at hfirst
    | some last =>
      have h₁ := hq.transmits first (List.mem_of_mem_head? (by simp [hfirst]))
      have h₂ := hq.transmits last (List.mem_of_mem_getLast? (by simp [hlast]))
      have htiers : List.range' 0 (0 + 1 - 0) = [0] := rfl
      have hquiet : q.Quiet (.getBroadcasts estNumNodes overhead limit haveMsg) ↔
          free limit overhead 0 = 0 ∨ q.candidate 0 (free limit overhead 0) = none := by
        rw [candidate_none_iff hq]
        rfl
      dsimp only
      rw [h₁,h₂,htiers,hquiet]
      simp only [takenTiers,takenTier,ite_self,List.append_nil]
      by_cases hfree : free limit overhead 0 = 0
      · simp [hfree]
      · cases hc : q.candidate 0 (free limit overhead 0) <;> simp [hfree]

theorem getBroadcasts_quiet (hq : q.Resting) {estNumNodes overhead limit : ℕ} {haveMsg : Bool}
    (h : q.Quiet (.getBroadcasts estNumNodes overhead limit haveMsg)) :
    let q' := (q.getBroadcasts fl estNumNodes overhead limit haveMsg).2.2
    q'.tq = q.tq ∧ q'.finished = q.finished ∧ q'.Resting := by
  obtain ⟨s,hs,hr⟩ := getBroadcasts_trace fl estNumNodes overhead limit haveMsg hq.toConsistent
  rw [(taken_nil_iff fl hq estNumNodes overhead limit haveMsg).mpr h] at hs
  have htq : s.queue.tq = q.tq := by simpa using hs.left
  have hre : s.reinsert = [] := by simpa using hs.reinsert
  have hfin : s.queue.finished = q.finished := by simpa using hs.finished
  dsimp only
  rw [hr,hre]
  exact ⟨htq,hfin,hs.queue,htq ▸ hq.sorted,htq ▸ hq.transmits,htq ▸ hq.ids,
    hs.idGen ▸ hq.idGen⟩

theorem addItem_length_le (lb : LimitedBroadcast) (q : BroadcastQueue) :
    q.tq.length ≤ (q.addItem lb).tq.length := by
  rcases insertNew_eq_or_perm LimitedBroadcast.lt lb q.tq with h | h
  · simp only [addItem,h,le_refl]
  · simp [addItem,h.length_eq]

theorem reinsert_length_le (reinsert : List LimitedBroadcast) (q : BroadcastQueue) :
    q.tq.length ≤ (reinsert.foldl (fun q lb => q.addItem lb) q).tq.length := by
  induction reinsert generalizing q with
  | nil => exact le_refl _
  | cons lb reinsert ih => exact (addItem_length_le lb q).trans (ih (q.addItem lb))

theorem reinsert_length_lt {reinsert : List LimitedBroadcast} (hr : reinsert ≠ [])
    (hq : ∀ e ∈ q.tq, e.transmits = 0) (h : ∀ e ∈ reinsert, e.transmits = 1) :
    q.tq.length < (reinsert.foldl (fun q lb => q.addItem lb) q).tq.length := by
  obtain ⟨lb,reinsert,rfl⟩ := List.exists_cons_of_ne_nil hr
  have hlb := h lb (by simp)
  have hp : (q.addItem lb).tq.Perm (lb::q.tq) := by
    refine insertNew_perm fun e he => ?_
    have he := hq e he
    rw [LimitedBroadcast.lt_iff,LimitedBroadcast.lt_iff]
    omega
  have hle := reinsert_length_le reinsert (q.addItem lb)
  rw [hp.length_eq,List.length_cons] at hle
  exact hle

/-- `Finished` is called once for an entry that goes back and twice for one that does not. -/
theorem finished_length (transmitLimit : ℕ) (out : List LimitedBroadcast) :
    (out.flatMap fun e => if e.transmits + 1 < transmitLimit then [e.b] else [e.b,e.b]).length +
      (out.filter fun e => e.transmits + 1 < transmitLimit).length = 2 * out.length := by
  induction out with
  | nil => rfl
  | cons e out ih =>
    by_cases h : e.transmits + 1 < transmitLimit
    · simp only [List.flatMap_cons,List.filter_cons,h,decide_true,if_true,List.length_append,
        List.length_cons,List.length_nil]
      omega
    · simp only [List.flatMap_cons,List.filter_cons,h,decide_false,if_false,List.length_append,
        List.length_cons,List.length_nil,Bool.false_eq_true]
      omega

/-- A call that takes an entry out calls `Finished` once too often. -/
theorem getBroadcasts_loud (hq : q.Resting) {estNumNodes overhead limit : ℕ} {haveMsg : Bool}
    (h : q.taken fl estNumNodes overhead limit haveMsg ≠ []) :
    let q' := (q.getBroadcasts fl estNumNodes overhead limit haveMsg).2.2
    q.tq.length + q.finished.length < q'.tq.length + q'.finished.length := by
  obtain ⟨s,hs,hr⟩ := getBroadcasts_trace fl estNumNodes overhead limit haveMsg hq.toConsistent
  dsimp only
  rw [hr]
  generalize q.taken fl estNumNodes overhead limit haveMsg = out at h hs
  have hleft : q.tq.length ≤ s.queue.tq.length + out.length := by
    have hsub : (q.tq.filter fun e => e ∈ out).Subperm out :=
      List.subperm_of_subset ((List.Nodup.of_map _ hq.names).filter _)
        fun e he => by simpa using (List.mem_filter.mp he).2
    have hle := hsub.length_le
    have hsplit := List.length_eq_length_filter_add (l := q.tq) fun e => decide (e ∈ out)
    rw [hs.left]
    simp only [decide_not]
    omega
  have hfin := congrArg List.length hs.finished
  have hre := congrArg List.length hs.reinsert
  have hcount := finished_length (retransmitLimit fl q.retransmitMult estNumNodes) out
  have hpos : 0 < out.length := List.length_pos_iff.mpr h
  rw [List.length_append] at hfin
  rw [List.length_map] at hre
  simp only [reinsert_finished,hfin]
  by_cases hnil : s.reinsert = []
  · have hle := reinsert_length_le s.reinsert s.queue
    rw [hnil,List.length_nil] at hre
    omega
  · have hlt := reinsert_length_lt hnil
      (fun e he => hq.transmits e (List.mem_of_mem_filter (hs.left ▸ he))) fun e he => by
        obtain ⟨e₀,he₀,rfl⟩ := List.mem_map.mp (hs.reinsert ▸ he)
        simp [LimitedBroadcast.again,hq.transmits e₀ (hs.sub e₀ (List.mem_of_mem_filter he₀))]
    have hle := List.length_filter_le
      (fun e => decide (e.transmits + 1 < retransmitLimit fl q.retransmitMult estNumNodes)) out
    omega

variable {fl}

theorem Resting.call (hq : q.Resting) {c : Call} (h : q.Quiet c) : (q.call fl c).Resting := by
  cases c with
  | queueBroadcast b => exact hq.queueBroadcast b
  | getBroadcasts estNumNodes overhead limit haveMsg => exact (getBroadcasts_quiet fl hq h).2.2
  | prune maxRetain => exact hq.prune maxRetain
  | clear => exact Resting.clear q

theorem notified_snoc (calls : List Call) (c : Call) (q : BroadcastQueue) :
    Notified (calls ++ [c]) q ↔
      (q.tq.map (·.b) ++ q.finished).Perm (queued calls ++ queued [c]) := by
  rw [Notified,queued_append]

/-- From a resting queue on which the law holds, a call keeps the law exactly when it
is quiet. -/
theorem notified_call_iff (hq : q.Resting) {calls : List Call} (hn : Notified calls q) (c : Call) :
    Notified (calls ++ [c]) (q.call fl c) ↔ q.Quiet c := by
  rw [notified_snoc]
  have hnil : (queued calls ++ []).Perm (q.tq.map LimitedBroadcast.b ++ q.finished) := by
    simpa using hn.symm
  cases c with
  | queueBroadcast b =>
    have hp : (queued calls ++ [b]).Perm (b::(q.tq.map LimitedBroadcast.b ++ q.finished)) :=
      (List.perm_append_singleton b _).trans (hn.symm.cons b)
    rw [← queueBroadcast_notified hq b]
    exact ⟨fun h => h.trans hp,fun h => h.trans hp.symm⟩
  | getBroadcasts estNumNodes overhead limit haveMsg =>
    constructor
    · intro h
      rw [← taken_nil_iff fl hq]
      by_contra hout
      have hlt := getBroadcasts_loud fl hq hout
      have hl := (h.trans hnil).length_eq
      simp only [List.length_append,List.length_map,call] at hl hlt
      omega
    · intro h
      obtain ⟨htq,hfin,-⟩ := getBroadcasts_quiet fl hq h
      simp only [call,htq,hfin]
      exact hnil.symm
  | prune maxRetain =>
    exact ⟨fun _ => trivial,fun _ => (prune_notified maxRetain q).trans hnil.symm⟩
  | clear =>
    have hp : (q.finished ++ q.tq.map LimitedBroadcast.b).Perm
        (q.tq.map LimitedBroadcast.b ++ q.finished) := List.perm_append_comm
    exact ⟨fun _ => trivial,fun _ => hp.trans hnil.symm⟩

/-- The law holds after every call of a sequence exactly when all of them are quiet. -/
theorem notification_law (fl : Floats) (retransmitMult : ℕ) (calls : List Call) :
    (∀ pre, pre <+: calls → Notified pre (after fl retransmitMult pre)) ↔
      Transitions.Along (call fl) Quiet (new retransmitMult) calls := by
  have hboth : ((∀ pre, pre <+: calls → Notified pre (after fl retransmitMult pre)) ↔
      Transitions.Along (call fl) Quiet (new retransmitMult) calls) ∧
      (Transitions.Along (call fl) Quiet (new retransmitMult) calls →
        (after fl retransmitMult calls).Resting) := by
    induction calls using List.reverseRecOn with
    | nil =>
      refine ⟨⟨fun _ => trivial,fun _ pre hpre => ?_⟩,fun _ => Resting.new retransmitMult⟩
      rw [List.prefix_nil.mp hpre]
      exact List.Perm.refl _
    | append_singleton calls c ih =>
      obtain ⟨hiff,hrest⟩ := ih
      rw [Transitions.along_append,Transitions.along_cons,after_snoc]
      refine ⟨⟨fun h => ?_,fun ⟨hal,hc,_⟩ pre hpre => ?_⟩,
        fun ⟨hal,hc,_⟩ => (hrest hal).call hc⟩
      · have hpre : ∀ pre, pre <+: calls → Notified pre (after fl retransmitMult pre) :=
          fun pre hp => h pre (hp.trans (List.prefix_append calls [c]))
        have hal := hiff.mp hpre
        have hlast := h (calls ++ [c]) (List.prefix_refl _)
        rw [after_snoc] at hlast
        exact ⟨hal,(notified_call_iff (hrest hal) (hpre calls (List.prefix_refl _)) c).mp hlast,
          trivial⟩
      · rcases List.prefix_concat_iff.mp hpre with rfl | hp
        · rw [after_snoc]
          exact (notified_call_iff (hrest hal) (hiff.mpr hal calls (List.prefix_refl _)) c).mpr hc
        · exact hiff.mpr hal pre hp
  exact hboth.1

/-- One queued broadcast is handed out and goes back into the queue: its `Finished`
has been called. -/
theorem finished_while_queued :
    let b : MemberlistBroadcast := ⟨"b",genAliveBroadcast ⟨1,"b","10.0.0.2",6666⟩,7⟩
    let calls : List Call := [.queueBroadcast b,.getBroadcasts 3 2 1400 false]
    let q := after .small 4 calls
    q.tq.map (·.b) = [b] ∧ q.finished = [b] ∧ ¬Notified calls q := by
  intro b calls q
  decide +kernel

end BroadcastQueue
end GossipMemberlist
