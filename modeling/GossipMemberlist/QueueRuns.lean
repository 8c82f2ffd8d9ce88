import GossipMemberlist.TransmitQueue
import GossipMemberlist.Library.Transitions
import Mathlib.Data.List.Nodup

/-!
# Runs of the transmit queue

The calls on `broadcastQueue` in any order. Each holds the mutex of the queue
from beginning to end, so a run is a list of calls. What one `GetBroadcasts`
does to every queued entry is stated over the list of entries that it takes out.
-/

namespace GossipMemberlist

namespace LimitedBroadcast

theorem lt_iff {e f : LimitedBroadcast} : e.lt f ↔ e.transmits < f.transmits ∨
    e.transmits = f.transmits ∧ (f.msgLen < e.msgLen ∨ e.msgLen = f.msgLen ∧ f.id < e.id) := by
  unfold lt
  split
  · simp
    omega
  · split <;> simp <;> omega

theorem lt_trans (e f g : LimitedBroadcast) (h : e.lt f) (h' : f.lt g) : e.lt g := by
  rw [lt_iff] at *
  omega

theorem lt_or_lt_of_id_ne {e f : LimitedBroadcast} (h : e.id ≠ f.id) : e.lt f ∨ f.lt e := by
  rw [lt_iff,lt_iff]
  omega

theorem not_lt_of_eq {e f : LimitedBroadcast} (ht : e.transmits = f.transmits)
    (hl : e.msgLen = f.msgLen) (hi : e.id = f.id) : ¬e.lt f := by
  rw [lt_iff]
  omega

def again (e : LimitedBroadcast) : LimitedBroadcast := { e with transmits := e.transmits + 1 }

end LimitedBroadcast

namespace BroadcastQueue

open OrderedList

/-- `overhead` and `limit` are unsigned 64-bit; the value an uninitialized flag of
the call happens to hold and the answer of `EstNumNodes` are part of the call. -/
inductive Call
  | queueBroadcast (b : MemberlistBroadcast)
  | getBroadcasts (estNumNodes overhead limit : ℕ) (haveMsg : Bool)
  | prune (maxRetain : ℕ)
  | clear

variable (fl : Floats)

def call (q : BroadcastQueue) : Call → BroadcastQueue
  | .queueBroadcast b => q.queueBroadcast b 0
  | .getBroadcasts estNumNodes overhead limit haveMsg =>
    (q.getBroadcasts fl estNumNodes overhead limit haveMsg).2.2
  | .prune maxRetain => q.prune maxRetain
  | .clear => q.clear

def after (retransmitMult : ℕ) (calls : List Call) : BroadcastQueue :=
  Transitions.run (call fl) (new retransmitMult) calls

@[simp] theorem after_nil (retransmitMult : ℕ) : after fl retransmitMult [] = new retransmitMult :=
  rfl

@[simp] theorem after_snoc (retransmitMult : ℕ) (calls : List Call) (c : Call) :
    after fl retransmitMult (calls ++ [c]) = (after fl retransmitMult calls).call fl c :=
  Transitions.run_snoc _ _ _ _

theorem after_append (retransmitMult : ℕ) (calls calls' : List Call) :
    after fl retransmitMult (calls ++ calls') =
      Transitions.run (call fl) (after fl retransmitMult calls) calls' :=
  Transitions.run_append _ _ _ _

def queued : List Call → List MemberlistBroadcast
  | [] => []
  | .queueBroadcast b::calls => b::queued calls
  | _::calls => queued calls

theorem queued_append (calls calls' : List Call) :
    queued (calls ++ calls') = queued calls ++ queued calls' := by
  induction calls with
  | nil => rfl
  | cons c calls ih => cases c <;> simp [queued,ih]

def takenTier (transmitLimit overhead limit i : ℕ) : ℕ → Selection → List LimitedBroadcast
  | 0, _ => []
  | fuel+1, s =>
    let space := free limit overhead s.bytesUsed
    if space = 0 then []
    else match s.queue.candidate i space with
      | none => []
      | some cur => cur::takenTier transmitLimit overhead limit i fuel (s.pick transmitLimit cur)

def takenTiers (transmitLimit overhead limit fuel : ℕ) :
    List ℕ → Selection → List LimitedBroadcast
  | [], _ => []
  | i::is, s =>
    let r := pickTier transmitLimit overhead limit i fuel s
    takenTier transmitLimit overhead limit i fuel s ++
      if r.2 then [] else takenTiers transmitLimit overhead limit fuel is r.1

/-- The entries that a `GetBroadcasts` call takes out of the queue, in order. -/
def taken (estNumNodes overhead limit : ℕ) (haveMsg : Bool) (q : BroadcastQueue) :
    List LimitedBroadcast :=
  match q.tq.head?, q.tq.getLast? with
  | some first, some last =>
    takenTiers (retransmitLimit fl q.retransmitMult estNumNodes) overhead limit (q.tq.length + 1)
      (List.range' first.transmits (last.transmits + 1 - first.transmits)) ⟨q,[],0,[],haveMsg⟩
  | _, _ => []

/-- What a `GetBroadcasts` call has done once it took out the entries `out`. -/
structure Selection.Trace (q₀ : BroadcastQueue) (transmitLimit : ℕ) (out : List LimitedBroadcast)
    (s : Selection) : Prop where
  sub : ∀ e ∈ out, e ∈ q₀.tq
  nodup : out.Nodup
  cbc : s.cbc = out.map (·.b.msg)
  queue : s.queue.Consistent
  left : s.queue.tq = q₀.tq.filter fun e => e ∉ out
  idGen : s.queue.idGen = q₀.idGen
  reinsert : s.reinsert =
    (out.filter fun e => e.transmits + 1 < transmitLimit).map LimitedBroadcast.again
  finished : s.queue.finished = q₀.finished ++
    out.flatMap fun e => if e.transmits + 1 < transmitLimit then [e.b] else [e.b,e.b]

section Trace

variable {q₀ : BroadcastQueue} {transmitLimit : ℕ} {out : List LimitedBroadcast} {s : Selection}

theorem Consistent.node_inj {q : BroadcastQueue} (hq : q.Consistent) {e f : LimitedBroadcast}
    (he : e ∈ q.tq) (hf : f ∈ q.tq) (h : e.b.node = f.b.node) : e = f :=
  List.inj_on_of_nodup_map hq.names he hf h

@[simp] theorem deleteItem_idGen (lb : LimitedBroadcast) (q : BroadcastQueue) :
    (q.deleteItem lb).idGen = q.idGen := by
  unfold deleteItem
  split <;> rfl

theorem deleteItem_finished {q : BroadcastQueue} (hq : q.Consistent) {cur : LimitedBroadcast}
    (hc : cur ∈ q.tq) : (q.deleteItem cur).finished = q.finished ++ [cur.b] := by
  have hone : q.tq.filter (fun e => e.b.node = cur.b.node) = [cur] := by
    have hcongr : q.tq.filter (fun e => e.b.node = cur.b.node) = q.tq.filter (· = cur) :=
      List.filter_congr fun e he => by
        simpa using ⟨fun h => hq.node_inj he hc h,fun h => h ▸ rfl⟩
    rw [hcongr,List.filter_eq,List.count_eq_one_of_mem (List.Nodup.of_map _ hq.names) hc]
    rfl
  rw [deleteItem,if_pos (hq.mapped cur hc)]
  simp only [hone,List.map_cons,List.map_nil]

theorem Selection.Trace.pick (hs : s.Trace q₀ transmitLimit out) (hq₀ : q₀.Consistent)
    {cur : LimitedBroadcast} (hc : cur ∈ s.queue.tq) :
    (s.pick transmitLimit cur).Trace q₀ transmitLimit (out ++ [cur]) := by
  have hcur : cur ∈ q₀.tq ∧ cur ∉ out := by simpa [hs.left] using hc
  have hleft : (s.queue.deleteItem cur).tq = q₀.tq.filter fun e => e ∉ out ++ [cur] := by
    rw [deleteItem_tq hs.queue,hs.left,List.filter_filter]
    refine List.filter_congr fun e he => ?_
    have hiff : e.b.node = cur.b.node ↔ e = cur :=
      ⟨fun h => hq₀.node_inj he hcur.1 h,fun h => h ▸ rfl⟩
    simp [hiff,and_comm]
  have hsub : ∀ e ∈ out ++ [cur], e ∈ q₀.tq := by
    intro e he
    rcases List.mem_append.mp he with he | he
    · exact hs.sub e he
    · exact List.mem_singleton.mp he ▸ hcur.1
  have hnodup : (out ++ [cur]).Nodup :=
    (List.perm_append_singleton cur out).nodup_iff.mpr (List.nodup_cons.mpr ⟨hcur.2,hs.nodup⟩)
  have hd := deleteItem_consistent hs.queue cur
  have hf := deleteItem_finished hs.queue hc
  unfold Selection.pick
  dsimp only
  by_cases hlim : cur.transmits + 1 < transmitLimit
  · rw [if_neg (by omega)]
    refine ⟨hsub,hnodup,by simp [hs.cbc],hd,hleft,by simp [hs.idGen],?_,?_⟩
    · simp [hs.reinsert,hlim,LimitedBroadcast.again]
    · simp [hf,hs.finished,hlim]
  · rw [if_pos (by omega)]
    refine ⟨hsub,hnodup,by simp [hs.cbc],⟨hd.names,hd.mapped⟩,hleft,by simp [finish,hs.idGen],
      ?_,?_⟩
    · simp [hs.reinsert,hlim]
    · simp [finish,hf,hs.finished,hlim]

theorem Selection.Trace.pickTier (overhead limit i fuel : ℕ) (hq₀ : q₀.Consistent)
    (hs : s.Trace q₀ transmitLimit out) :
    (pickTier transmitLimit overhead limit i fuel s).1.Trace q₀ transmitLimit
      (out ++ takenTier transmitLimit overhead limit i fuel s) := by
  induction fuel generalizing s out with
  | zero => simpa [BroadcastQueue.pickTier,takenTier] using hs
  | succ fuel ih =>
    simp only [BroadcastQueue.pickTier,takenTier]
    split
    · simpa using hs
    · cases hcur : s.queue.candidate i (free limit overhead s.bytesUsed) with
      | none => simpa using hs
      | some cur => simpa using ih (hs.pick hq₀ (candidate_mem hcur))

theorem Selection.Trace.pickTiers (overhead limit fuel : ℕ) (is : List ℕ) (hq₀ : q₀.Consistent)
    (hs : s.Trace q₀ transmitLimit out) :
    (pickTiers transmitLimit overhead limit fuel is s).Trace q₀ transmitLimit
      (out ++ takenTiers transmitLimit overhead limit fuel is s) := by
  induction is generalizing s out with
  | nil => simpa [BroadcastQueue.pickTiers,takenTiers] using hs
  | cons i is ih =>
    have hi := hs.pickTier overhead limit i fuel hq₀
    simp only [BroadcastQueue.pickTiers,takenTiers]
    split
    · simpa using hi
    · rw [← List.append_assoc]
      exact ih hi

theorem Selection.Trace.initial {q : BroadcastQueue} (hq : q.Consistent) (transmitLimit : ℕ)
    (haveMsg : Bool) : (Selection.mk q [] 0 [] haveMsg).Trace q transmitLimit [] :=
  ⟨by simp,List.nodup_nil,rfl,hq,by simp,rfl,rfl,by simp⟩

variable (estNumNodes overhead limit : ℕ) (haveMsg : Bool)

def selection (q : BroadcastQueue) : Selection :=
  match q.tq.head?, q.tq.getLast? with
  | some first, some last =>
    pickTiers (retransmitLimit fl q.retransmitMult estNumNodes) overhead limit (q.tq.length + 1)
      (List.range' first.transmits (last.transmits + 1 - first.transmits)) ⟨q,[],0,[],haveMsg⟩
  | _, _ => ⟨q,[],0,[],haveMsg⟩

theorem getBroadcasts_eq (q : BroadcastQueue) :
    let s := selection fl estNumNodes overhead limit haveMsg q
    (q.getBroadcasts fl estNumNodes overhead limit haveMsg).2 =
      (s.cbc,s.reinsert.foldl (fun q lb => q.addItem lb) s.queue) := by
  unfold getBroadcasts selection
  cases q.tq.head? with
  | none => rfl
  | some first => cases q.tq.getLast? <;> rfl

theorem selection_trace {q : BroadcastQueue} (hq : q.Consistent) :
    (selection fl estNumNodes overhead limit haveMsg q).Trace q
      (retransmitLimit fl q.retransmitMult estNumNodes)
      (q.taken fl estNumNodes overhead limit haveMsg) := by
  have h₀ := Selection.Trace.initial hq (retransmitLimit fl q.retransmitMult estNumNodes) haveMsg
  unfold selection taken
  cases q.tq.head? with
  | none => exact h₀
  | some first =>
    cases q.tq.getLast? with
    | none => exact h₀
    | some last => simpa using h₀.pickTiers overhead limit _ _ hq

/-- A call ends by reinserting what it took out and did not drop. -/
theorem getBroadcasts_trace {q : BroadcastQueue} (hq : q.Consistent) :
    ∃ s : Selection, s.Trace q (retransmitLimit fl q.retransmitMult estNumNodes)
        (q.taken fl estNumNodes overhead limit haveMsg) ∧
      (q.getBroadcasts fl estNumNodes overhead limit haveMsg).2 =
        (s.cbc,s.reinsert.foldl (fun q lb => q.addItem lb) s.queue) :=
  ⟨_,selection_trace fl estNumNodes overhead limit haveMsg hq,
    getBroadcasts_eq fl estNumNodes overhead limit haveMsg q⟩

end Trace

@[simp] theorem addItem_idGen (lb : LimitedBroadcast) (q : BroadcastQueue) :
    (q.addItem lb).idGen = q.idGen := rfl

@[simp] theorem addItem_finished (lb : LimitedBroadcast) (q : BroadcastQueue) :
    (q.addItem lb).finished = q.finished := rfl

@[simp] theorem reinsert_idGen (reinsert : List LimitedBroadcast) (q : BroadcastQueue) :
    (reinsert.foldl (fun q lb => q.addItem lb) q).idGen = q.idGen := by
  induction reinsert generalizing q with
  | nil => rfl
  | cons lb reinsert ih => rw [List.foldl_cons,ih,addItem_idGen]

@[simp] theorem reinsert_finished (reinsert : List LimitedBroadcast) (q : BroadcastQueue) :
    (reinsert.foldl (fun q lb => q.addItem lb) q).finished = q.finished := by
  induction reinsert generalizing q with
  | nil => rfl
  | cons lb reinsert ih => rw [List.foldl_cons,ih,addItem_finished]

theorem addItem_perm {q : BroadcastQueue} {lb : LimitedBroadcast} (h : lb.id ∉ q.tq.map (·.id)) :
    (q.addItem lb).tq.Perm (lb::q.tq) :=
  insertNew_perm fun e he => LimitedBroadcast.lt_or_lt_of_id_ne fun hid =>
    h (List.mem_map.mpr ⟨e,he,hid.symm⟩)

/-- Entries with different numbers are all reinserted. -/
theorem reinsert_perm (reinsert : List LimitedBroadcast) {q : BroadcastQueue}
    (hn : (q.tq.map (·.id) ++ reinsert.map (·.id)).Nodup) :
    (reinsert.foldl (fun q lb => q.addItem lb) q).tq.Perm (q.tq ++ reinsert) := by
  induction reinsert generalizing q with
  | nil => simp
  | cons lb reinsert ih =>
    have hlb : lb.id ∉ q.tq.map (·.id) := fun h =>
      (List.nodup_append.mp hn).2.2 _ h _ (by simp) rfl
    have hp := addItem_perm hlb
    have hn' : ((q.addItem lb).tq.map (·.id) ++ reinsert.map (·.id)).Nodup := by
      have hp' := ((hp.map (·.id)).append_right (reinsert.map (·.id))).nodup_iff
      exact hp'.mpr (List.perm_middle.nodup_iff.mp (by simpa using hn))
    exact (ih hn').trans ((hp.append_right reinsert).trans List.perm_middle.symm)

@[simp] theorem prune_idGen (maxRetain : ℕ) (q : BroadcastQueue) :
    (q.prune maxRetain).idGen = q.idGen := by
  refine prune_invariant maxRetain (P := fun q' => q'.idGen = q.idGen) (fun q' i _ h _ => ?_) rfl
  unfold pruneBack
  split <;> exact h

end BroadcastQueue
end GossipMemberlist
