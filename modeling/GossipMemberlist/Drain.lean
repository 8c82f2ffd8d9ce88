import GossipMemberlist.Selections

/-!
# Draining the transmit queue

As long as nothing new is queued and the number of nodes stays the same, each call of
`GetBroadcasts` pays for what it hands out: an entry is due once for every transmission
that is left to it, and once it is handed out it is due once less. So calls with enough
room empty the queue, after each entry has gone out as often as it was due.
-/

namespace GossipMemberlist

open Greedy OrderedList Transitions

namespace LimitedBroadcast

/-- The calls that still have to hand the entry out; there is one in any case. -/
def remaining (transmitLimit : ℕ) (e : LimitedBroadcast) : ℕ := max 1 (transmitLimit - e.transmits)

variable {transmitLimit : ℕ} {e : LimitedBroadcast}

theorem remaining_again (h : e.transmits + 1 < transmitLimit) :
    e.again.remaining transmitLimit + 1 = e.remaining transmitLimit := by
  simp only [remaining,again]
  omega

theorem remaining_last (h : ¬e.transmits + 1 < transmitLimit) : e.remaining transmitLimit = 1 := by
  simp only [remaining]
  omega

theorem remaining_pos (transmitLimit : ℕ) (e : LimitedBroadcast) :
    0 < e.remaining transmitLimit := by
  simp only [remaining]
  omega

end LimitedBroadcast

namespace BroadcastQueue

/-- The arguments of a `GetBroadcasts` call besides the answer of `EstNumNodes`. -/
structure Request where
  overhead : ℕ
  limit : ℕ
  haveMsg : Bool

def Request.space (r : Request) : ℕ := free r.limit r.overhead 0

def Request.call (estNumNodes : ℕ) (r : Request) : Call :=
  .getBroadcasts estNumNodes r.overhead r.limit r.haveMsg

def serve (fl : Floats) (estNumNodes : ℕ) (q : BroadcastQueue) (r : Request) : BroadcastQueue :=
  q.call fl (r.call estNumNodes)

/-- The calls that still have to hand out the entries whose broadcasts are in `P`. -/
def due (transmitLimit : ℕ) (P : MemberlistBroadcast → Bool) (l : List LimitedBroadcast) : ℕ :=
  ((l.filter fun e => P e.b).map (·.remaining transmitLimit)).sum

section Due

variable {transmitLimit : ℕ} {P : MemberlistBroadcast → Bool}

theorem due_perm {l l' : List LimitedBroadcast} (h : l.Perm l') :
    due transmitLimit P l = due transmitLimit P l' :=
  ((h.filter _).map _).sum_nat

theorem due_append (l l' : List LimitedBroadcast) :
    due transmitLimit P (l ++ l') = due transmitLimit P l + due transmitLimit P l' := by
  simp [due]

theorem due_cons (e : LimitedBroadcast) (l : List LimitedBroadcast) :
    due transmitLimit P (e::l) =
      (if P e.b then e.remaining transmitLimit else 0) + due transmitLimit P l := by
  by_cases h : P e.b <;> simp [due,h]

theorem due_again (out : List LimitedBroadcast) :
    due transmitLimit P
        ((out.filter fun e => e.transmits + 1 < transmitLimit).map LimitedBroadcast.again) +
      (out.filter fun e => P e.b).length = due transmitLimit P out := by
  induction out with
  | nil => rfl
  | cons e out ih =>
    rw [due_cons,← ih]
    by_cases hlim : e.transmits + 1 < transmitLimit
    · have hagain := LimitedBroadcast.remaining_again hlim
      have hb : e.again.b = e.b := rfl
      simp only [List.filter_cons,hlim,decide_true,if_true,List.map_cons,due_cons,hb]
      split
      · rw [List.length_cons]
        omega
      · omega
    · have hlast := LimitedBroadcast.remaining_last hlim
      simp only [List.filter_cons,hlim,decide_false,Bool.false_eq_true,if_false]
      split
      · rw [List.length_cons]
        omega
      · omega

theorem count_notices (transmitLimit : ℕ) (b : MemberlistBroadcast)
    (out : List LimitedBroadcast) :
    (out.flatMap fun e => if e.transmits + 1 < transmitLimit then [e.b] else [e.b,e.b]).count b +
        ((out.filter fun e => e.transmits + 1 < transmitLimit).map
          LimitedBroadcast.again).countP (fun e => e.b = b) =
      2 * out.countP (fun e => e.b = b) := by
  induction out with
  | nil => rfl
  | cons e out ih =>
    have hb : e.again.b = e.b := rfl
    rw [List.flatMap_cons,List.count_append,List.filter_cons,List.countP_cons]
    by_cases hlim : e.transmits + 1 < transmitLimit <;> by_cases heq : e.b = b
    all_goals
      simp [hlim,heq,hb] at ih ⊢
      omega

theorem due_eq_zero {l : List LimitedBroadcast} (h : due transmitLimit (fun _ => true) l = 0) :
    l = [] := by
  cases l with
  | nil => rfl
  | cons e l =>
    have hpos := e.remaining_pos transmitLimit
    rw [due_cons,if_pos rfl] at h
    omega

end Due

variable (fl : Floats) (estNumNodes : ℕ) {q : BroadcastQueue}

@[simp] theorem deleteItem_retransmitMult (lb : LimitedBroadcast) (q : BroadcastQueue) :
    (q.deleteItem lb).retransmitMult = q.retransmitMult := by
  unfold deleteItem
  split <;> rfl

theorem Selection.pick_retransmitMult (transmitLimit : ℕ) (cur : LimitedBroadcast) (s : Selection) :
    (s.pick transmitLimit cur).queue.retransmitMult = s.queue.retransmitMult := by
  unfold Selection.pick
  dsimp only
  split <;> simp [finish]

theorem reinsert_retransmitMult (reinsert : List LimitedBroadcast) (q : BroadcastQueue) :
    (reinsert.foldl (fun q lb => q.addItem lb) q).retransmitMult = q.retransmitMult := by
  induction reinsert generalizing q with
  | nil => rfl
  | cons lb reinsert ih => exact ih (q.addItem lb)

theorem serve_retransmitMult (q : BroadcastQueue) (r : Request) :
    (q.serve fl estNumNodes r).retransmitMult = q.retransmitMult := by
  have h := getBroadcasts_eq fl estNumNodes r.overhead r.limit r.haveMsg q
  rw [serve,Request.call,call,h,reinsert_retransmitMult]
  unfold selection
  split
  · refine pickTiers_invariant (P := fun s => s.queue.retransmitMult = q.retransmitMult)
      (fun s cur hs _ => ?_) _ _ _ _ rfl
    rw [Selection.pick_retransmitMult,hs]
  · rfl

/-- What a call takes out and what it leaves make up the set. -/
theorem taken_perm (hq : q.Represented) (r : Request) :
    let out := q.taken fl estNumNodes r.overhead r.limit r.haveMsg
    (out ++ q.tq.filter fun e => e ∉ out).Perm q.tq := by
  obtain ⟨hnodup,hsub,-⟩ := taken_spec estNumNodes r.overhead r.limit r.haveMsg fl hq.toConsistent
  dsimp only
  generalize q.taken fl estNumNodes r.overhead r.limit r.haveMsg = out at hnodup hsub ⊢
  have htaken : (q.tq.filter fun e => e ∈ out).Perm out :=
    (List.perm_ext_iff_of_nodup (hq.nodup.filter _) hnodup).mpr fun e => by
      simpa using hsub e
  have hsplit := List.filter_append_perm (fun e => decide (e ∈ out)) q.tq
  simpa using (htaken.symm.append_right _).trans hsplit

theorem serve_due (hq : q.Represented) (P : MemberlistBroadcast → Bool) (r : Request) :
    let transmitLimit := retransmitLimit fl q.retransmitMult estNumNodes
    due transmitLimit P (q.serve fl estNumNodes r).tq +
        ((q.handedOut fl (r.call estNumNodes)).filter P).length =
      due transmitLimit P q.tq := by
  have hparts := taken_perm fl estNumNodes hq r
  have hperm := getBroadcasts_perm estNumNodes r.overhead r.limit r.haveMsg fl hq.toConsistent
    hq.numbered
  dsimp only at hparts hperm ⊢
  generalize hout : q.taken fl estNumNodes r.overhead r.limit r.haveMsg = out at hparts hperm
  generalize retransmitLimit fl q.retransmitMult estNumNodes = transmitLimit at hperm ⊢
  have hcount : ((q.handedOut fl (r.call estNumNodes)).filter P).length =
      (out.filter fun e => P e.b).length := by
    simp only [Request.call,handedOut,hout,List.filter_map,List.length_map,Function.comp_def]
  have hagain := @due_again transmitLimit P out
  have htq : due transmitLimit P (q.serve fl estNumNodes r).tq = _ := due_perm hperm
  rw [htq,hcount,due_append,← due_perm hparts,due_append]
  omega

theorem serve_count (hq : q.Represented) (b : MemberlistBroadcast) (r : Request) :
    ((q.handedOut fl (r.call estNumNodes)).filter (· = b)).length =
      (decide (b ∈ q.handedOut fl (r.call estNumNodes))).toNat := by
  obtain ⟨hnodup,hsub,-⟩ := taken_spec estNumNodes r.overhead r.limit r.haveMsg fl hq.toConsistent
  have hout : (q.handedOut fl (r.call estNumNodes)).Nodup :=
    hnodup.map_on fun e he f hf h => hq.node_inj (hsub e he) (hsub f hf) (congrArg (·.node) h)
  rw [List.filter_eq,List.length_replicate,hout.count]
  by_cases hb : b ∈ q.handedOut fl (r.call estNumNodes) <;> simp [hb]

theorem serve_finished (hq : q.Represented) (b : MemberlistBroadcast) (r : Request) :
    (q.serve fl estNumNodes r).finished.count b +
        (q.serve fl estNumNodes r).tq.countP (fun e => e.b = b) =
      q.finished.count b + q.tq.countP (fun e => e.b = b) +
        (decide (b ∈ q.handedOut fl (r.call estNumNodes))).toNat := by
  have hparts := taken_perm fl estNumNodes hq r
  have hperm := getBroadcasts_perm estNumNodes r.overhead r.limit r.haveMsg fl hq.toConsistent
    hq.numbered
  have hcount := serve_count fl estNumNodes hq b r
  obtain ⟨s,hs,h⟩ := getBroadcasts_trace fl estNumNodes r.overhead r.limit r.haveMsg
    hq.toConsistent
  have hfinished : (q.serve fl estNumNodes r).finished = s.queue.finished := by
    rw [serve,Request.call,call,h,reinsert_finished]
  have htq : (q.serve fl estNumNodes r).tq.countP (fun e => e.b = b) = _ :=
    hperm.countP_eq (fun e => e.b = b)
  rw [hfinished,hs.finished,htq,← hcount,← hparts.countP_eq,List.count_append,List.countP_append,
    List.countP_append]
  simp only [Request.call,handedOut,List.filter_map,List.length_map,← List.countP_eq_length_filter]
  have hnotices := count_notices (retransmitLimit fl q.retransmitMult estNumNodes) b
    (q.taken fl estNumNodes r.overhead r.limit r.haveMsg)
  simp only [Function.comp_def]
  omega

theorem Represented.serve (hq : q.Represented) (r : Request) :
    (q.serve fl estNumNodes r).Represented :=
  hq.getBroadcasts r.overhead r.limit fl estNumNodes r.haveMsg

/-- A call with room for every entry hands something out. -/
theorem serve_progress (hq : q.Represented) {B : ℕ} (hB : ∀ e ∈ q.tq, e.msgLen ≤ B) {r : Request}
    (hr : B ≤ r.space) (hne : q.tq ≠ []) : q.handedOut fl (r.call estNumNodes) ≠ [] := by
  intro h
  have htaken := taken_eq r.overhead r.limit fl estNumNodes r.haveMsg hq.toOrdered
  rw [List.map_eq_nil_iff.mp h] at htaken
  obtain ⟨e,he⟩ := List.exists_mem_of_ne_nil q.tq hne
  have hpos := hq.filled e he
  have hle := hB e he
  simp only [Request.space] at hr
  rcases scanOpen_eq_nil_iff.mp htaken.symm with h | h
  · omega
  · have hlt := h e he
    omega

theorem serve_msgLen (hq : q.Represented) {B : ℕ} (hB : ∀ e ∈ q.tq, e.msgLen ≤ B) (r : Request) :
    ∀ e ∈ (q.serve fl estNumNodes r).tq, e.msgLen ≤ B := by
  intro e he
  obtain ⟨e₀,he₀,rfl | rfl⟩ := getBroadcasts_entries r.overhead r.limit fl estNumNodes r.haveMsg
    hq.toConsistent he <;> exact hB e₀ he₀

/-- What is still due and what was handed out is what was due. -/
theorem run_due (hq : q.Represented) (b : MemberlistBroadcast) (rs : List Request) :
    let transmitLimit := retransmitLimit fl q.retransmitMult estNumNodes
    tally (serve fl estNumNodes) (fun q r => b ∈ q.handedOut fl (r.call estNumNodes)) q rs +
        due transmitLimit (· = b) (run (serve fl estNumNodes) q rs).tq =
      due transmitLimit (· = b) q.tq := by
  induction rs generalizing q with
  | nil => exact Nat.zero_add _
  | cons r rs ih =>
    have hstep := serve_due fl estNumNodes hq (· = b) r
    have hcount := serve_count fl estNumNodes hq b r
    have hrest := ih (hq.serve fl estNumNodes r)
    rw [serve_retransmitMult] at hrest
    simp only [tally,run_cons] at hrest hstep ⊢
    omega

theorem run_empties (hq : q.Represented) {B : ℕ} (hB : ∀ e ∈ q.tq, e.msgLen ≤ B)
    (rs : List Request)
    (hrs : due (retransmitLimit fl q.retransmitMult estNumNodes) (fun _ => true) q.tq ≤
      rs.countP fun r => B ≤ r.space) : (run (serve fl estNumNodes) q rs).tq = [] := by
  induction rs generalizing q with
  | nil => exact due_eq_zero (Nat.le_zero.mp hrs)
  | cons r rs ih =>
    have hstep := serve_due fl estNumNodes hq (fun _ => true) r
    have hpaid : due (retransmitLimit fl q.retransmitMult estNumNodes) (fun _ => true)
        (q.serve fl estNumNodes r).tq ≤ rs.countP fun r => B ≤ r.space := by
      rw [List.countP_cons] at hrs
      by_cases hr : B ≤ r.space
      · simp only [hr,decide_true,if_true] at hrs
        by_cases hne : q.tq = []
        · have hzero : due (retransmitLimit fl q.retransmitMult estNumNodes) (fun _ => true)
              q.tq = 0 := by rw [hne]; rfl
          omega
        · have hout := List.length_pos_of_ne_nil
            (serve_progress fl estNumNodes hq hB hr hne)
          simp only [List.filter_true] at hstep
          omega
      · simp only [hr,decide_false,Bool.false_eq_true,if_false] at hrs
        omega
    rw [run_cons]
    refine ih (hq.serve fl estNumNodes r) (serve_msgLen fl estNumNodes hq hB r) ?_
    rwa [serve_retransmitMult]

theorem Consistent.filter_broadcast (hq : q.Consistent) {e : LimitedBroadcast} (he : e ∈ q.tq) :
    q.tq.filter (fun f => f.b = e.b) = [e] := by
  have hcongr : q.tq.filter (fun f => f.b = e.b) = q.tq.filter (· = e) :=
    List.filter_congr fun f hf => by
      simpa using ⟨fun h => hq.node_inj hf he (congrArg (·.node) h),fun h => h ▸ rfl⟩
  rw [hcongr,List.filter_eq,List.count_eq_one_of_mem hq.names.of_map he]
  rfl

theorem run_finished (hq : q.Represented) (b : MemberlistBroadcast) (rs : List Request) :
    (run (serve fl estNumNodes) q rs).finished.count b +
        (run (serve fl estNumNodes) q rs).tq.countP (fun e => e.b = b) =
      q.finished.count b + q.tq.countP (fun e => e.b = b) +
        tally (serve fl estNumNodes) (fun q r => b ∈ q.handedOut fl (r.call estNumNodes)) q rs := by
  induction rs generalizing q with
  | nil => rfl
  | cons r rs ih =>
    have hstep := serve_finished fl estNumNodes hq b r
    have hrest := ih (hq.serve fl estNumNodes r)
    simp only [tally,run_cons]
    omega

/-- Calls with room for every entry, as many as transmissions are left to the entries, empty
the queue. Each broadcast has then been handed out as often as its count was short of the
limit, once at least, and whoever waits for it was notified once more than that. -/
theorem drained (hq : q.Represented) {B : ℕ} (hB : ∀ e ∈ q.tq, e.msgLen ≤ B) (rs : List Request)
    (hrs : (q.tq.map
        (·.remaining (retransmitLimit fl q.retransmitMult estNumNodes))).sum ≤
      rs.countP fun r => B ≤ r.space) :
    let q' := run (serve fl estNumNodes) q rs
    q'.tq = [] ∧ ∀ e ∈ q.tq,
      tally (serve fl estNumNodes) (fun q r => e.b ∈ q.handedOut fl (r.call estNumNodes)) q rs =
        e.remaining (retransmitLimit fl q.retransmitMult estNumNodes) ∧
      q'.finished.count e.b = q.finished.count e.b +
        e.remaining (retransmitLimit fl q.retransmitMult estNumNodes) + 1 := by
  have hempty : (run (serve fl estNumNodes) q rs).tq = [] := by
    refine run_empties fl estNumNodes hq hB rs ?_
    simpa only [due,List.filter_true] using hrs
  refine ⟨hempty,fun e he => ?_⟩
  have hdue := run_due fl estNumNodes hq e.b rs
  have hfinished := run_finished fl estNumNodes hq e.b rs
  have hone := hq.toConsistent.filter_broadcast he
  have hleft : due (retransmitLimit fl q.retransmitMult estNumNodes) (· = e.b) q.tq =
      e.remaining (retransmitLimit fl q.retransmitMult estNumNodes) := by simp [due,hone]
  have hqueued : q.tq.countP (fun f => f.b = e.b) = 1 := by
    rw [List.countP_eq_length_filter,hone]
    rfl
  have hnone : due (retransmitLimit fl q.retransmitMult estNumNodes) (· = e.b) [] = 0 := rfl
  rw [hempty] at hdue hfinished
  rw [List.countP_nil] at hfinished
  dsimp only at hdue ⊢
  omega

/-- Two members' broadcasts, one of them handed out once before. -/
theorem drained_two :
    let b (node : String) : MemberlistBroadcast := ⟨node,genAliveBroadcast ⟨1,node,"",6666⟩,-1⟩
    let q := after .small 2 [.queueBroadcast (b "a"),.getBroadcasts 1 4 100 false,
      .queueBroadcast (b "b")]
    let rs := List.replicate 3 (Request.mk 4 100 false)
    (q.tq.map (·.remaining (retransmitLimit .small q.retransmitMult 1))).sum = 3 ∧
      (run (serve .small 1) q rs).tq = [] := by
  intro b q rs
  have hq : q.Represented := after_represented .small 2 _ (by decide) (by decide +kernel)
  have hsum : (q.tq.map (·.remaining (retransmitLimit .small q.retransmitMult 1))).sum = 3 := by
    decide +kernel
  refine ⟨hsum,?_⟩
  exact (drained .small 1 hq (B := 96) (by decide +kernel) rs
    (by rw [hsum]; decide +kernel)).1

end BroadcastQueue
end GossipMemberlist
