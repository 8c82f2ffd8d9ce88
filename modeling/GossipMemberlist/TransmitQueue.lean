import GossipMemberlist.Config
import GossipMemberlist.Library.OrderedList
import Mathlib.Logic.Function.Basic

/-!
# The transmit queue

`broadcastQueue`: the broadcasts still to be gossiped, ordered by transmissions,
length and age in the set `tq` and indexed by node name in the map `tm`. A new
broadcast about a node replaces the one that is queued under its name.
-/

namespace GossipMemberlist

structure MemberlistBroadcast where
  node : String
  msg : Broadcast
  notifyFd : ℤ
  deriving DecidableEq

structure LimitedBroadcast where
  transmits : ℕ
  msgLen : ℕ
  id : ℕ
  b : MemberlistBroadcast
  deriving DecidableEq

namespace LimitedBroadcast

/-- A search key; only the three ordered fields matter. -/
def key (transmits msgLen id : ℕ) : LimitedBroadcast :=
  ⟨transmits,msgLen,id,⟨"",⟨.aliveMsg,.notSet⟩,-1⟩⟩

/-- `operator<` -/
def lt (lb1 lb2 : LimitedBroadcast) : Bool :=
  if lb1.transmits ≠ lb2.transmits then lb1.transmits < lb2.transmits
  else if lb1.msgLen ≠ lb2.msgLen then lb1.msgLen > lb2.msgLen
  else lb1.id > lb2.id

end LimitedBroadcast

/-- `finished` records the calls of `Finished`; one whose `notifyFd` is not `-1`
writes a byte to that descriptor. -/
structure BroadcastQueue where
  retransmitMult : ℕ
  idGen : ℕ
  tq : List LimitedBroadcast
  tm : String → Option LimitedBroadcast
  finished : List MemberlistBroadcast

namespace BroadcastQueue

open OrderedList

def new (retransmitMult : ℕ) : BroadcastQueue := ⟨retransmitMult,0,[],fun _ => none,[]⟩

def finish (bs : List MemberlistBroadcast) (q : BroadcastQueue) : BroadcastQueue :=
  { q with finished := q.finished ++ bs }

/-- The closing comparison `idGen == 0` of the source has no effect. -/
def deleteItem (lb : LimitedBroadcast) (q : BroadcastQueue) : BroadcastQueue :=
  if (q.tm lb.b.node).isSome then
    { q with
      tm := Function.update q.tm lb.b.node none
      tq := q.tq.filter fun e => e.b.node ≠ lb.b.node
      finished := q.finished ++ (q.tq.filter fun e => e.b.node = lb.b.node).map (·.b) }
  else q

def addItem (lb : LimitedBroadcast) (q : BroadcastQueue) : BroadcastQueue :=
  { q with
    tm := Function.update q.tm lb.b.node (some lb)
    tq := insertNew LimitedBroadcast.lt lb q.tq }

def queueBroadcast (b : MemberlistBroadcast) (initialTransmits : ℕ) (q : BroadcastQueue) :
    BroadcastQueue :=
  let id := if q.idGen = 2 ^ 32 - 1 then 1 else q.idGen + 1
  let lb : LimitedBroadcast := ⟨initialTransmits,b.msg.byteSizeLong,id,b⟩
  ({ q with idGen := id }.deleteItem lb).addItem lb

/-- The locals of one `GetBroadcasts` call. -/
structure Selection where
  queue : BroadcastQueue
  cbc : List Broadcast
  bytesUsed : ℕ
  reinsert : List LimitedBroadcast
  haveMsg : Bool

/-- The unsigned difference `limit - overhead - bytesUsed`. -/
def free (limit overhead bytesUsed : ℕ) : ℕ :=
  (((limit : ℤ) - overhead - bytesUsed) % 2 ^ 64).toNat

def candidate (i space : ℕ) (q : BroadcastQueue) : Option LimitedBroadcast :=
  let low := lowerBound LimitedBroadcast.lt (.key i space (2 ^ 32 - 1)) q.tq
  let up := upperBound LimitedBroadcast.lt (.key (i + 1) (2 ^ 64 - 1) (2 ^ 32 - 1)) q.tq
  if low = up then none else q.tq[low]?

def Selection.pick (transmitLimit : ℕ) (cur : LimitedBroadcast) (s : Selection) : Selection :=
  let queue := s.queue.deleteItem cur
  let next := { cur with transmits := cur.transmits + 1 }
  let s := { s with
    cbc := s.cbc ++ [cur.b.msg], bytesUsed := s.bytesUsed + cur.msgLen, haveMsg := true }
  if transmitLimit ≤ next.transmits then { s with queue := queue.finish [cur.b] }
  else { s with queue := queue, reinsert := s.reinsert ++ [next] }

/-- The inner loop of `GetBroadcasts`; `true` is its `goto finish`. Every round
removes an entry, so the number of entries bounds the rounds. -/
def pickTier (transmitLimit overhead limit i : ℕ) : ℕ → Selection → Selection × Bool
  | 0, s => (s,false)
  | fuel+1, s =>
    let space := free limit overhead s.bytesUsed
    if space = 0 then (s,true)
    else match s.queue.candidate i space with
      | none => (s,false)
      | some cur => pickTier transmitLimit overhead limit i fuel (s.pick transmitLimit cur)

def pickTiers (transmitLimit overhead limit fuel : ℕ) : List ℕ → Selection → Selection
  | [], s => s
  | i::is, s =>
    let r := pickTier transmitLimit overhead limit i fuel s
    if r.2 then r.1 else pickTiers transmitLimit overhead limit fuel is r.1

/-- `estNumNodes` is the answer of the callback and `haveMsg` the value that the
uninitialized local happens to hold. -/
def getBroadcasts (fl : Floats) (estNumNodes overhead limit : ℕ) (haveMsg : Bool)
    (q : BroadcastQueue) : Bool × List Broadcast × BroadcastQueue :=
  match q.tq.head?, q.tq.getLast? with
  | some first, some last =>
    let transmitLimit := retransmitLimit fl q.retransmitMult estNumNodes
    let tiers := List.range' first.transmits (last.transmits + 1 - first.transmits)
    let s := pickTiers transmitLimit overhead limit (q.tq.length + 1) tiers ⟨q,[],0,[],haveMsg⟩
    (s.haveMsg,s.cbc,s.reinsert.foldl (fun q lb => q.addItem lb) s.queue)
  | _, _ => (false,[],q)

/-- One round of `Prune`, at the last entry `i` of the set. -/
def pruneBack (maxRetain : ℕ) (i : LimitedBroadcast) (q : BroadcastQueue) : BroadcastQueue :=
  if maxRetain < q.tq.length then
    { q with tm := Function.update q.tm i.b.node none, tq := q.tq.dropLast }.finish [i.b]
  else q

def prune (maxRetain : ℕ) (q : BroadcastQueue) : BroadcastQueue :=
  q.tq.reverse.foldl (fun q i => q.pruneBack maxRetain i) q

def clear (q : BroadcastQueue) : BroadcastQueue :=
  { q with idGen := 0, tq := [], tm := fun _ => none, finished := q.finished ++ q.tq.map (·.b) }

/-- Names in the set are distinct and known to the map, so that a broadcast finds
whatever it has to replace. -/
structure Consistent (q : BroadcastQueue) : Prop where
  names : (q.tq.map (·.b.node)).Nodup
  mapped : ∀ e ∈ q.tq, (q.tm e.b.node).isSome

theorem new_consistent (retransmitMult : ℕ) : (new retransmitMult).Consistent :=
  ⟨by simp [new],by simp [new]⟩

theorem clear_consistent (q : BroadcastQueue) : q.clear.Consistent :=
  ⟨by simp [clear],by simp [clear]⟩

/-- Removal is gated on the map, but on a consistent queue it always happens. -/
theorem deleteItem_tq {q : BroadcastQueue} (hq : q.Consistent) (lb : LimitedBroadcast) :
    (q.deleteItem lb).tq = q.tq.filter fun e => e.b.node ≠ lb.b.node := by
  unfold deleteItem
  split
  · rfl
  · rename_i hm
    refine (List.filter_eq_self.mpr fun e he => ?_).symm
    have hs := hq.mapped e he
    have hne : e.b.node ≠ lb.b.node := fun hn => hm (hn ▸ hs)
    simpa using hne

theorem deleteItem_mapped {q : BroadcastQueue} (hq : q.Consistent) (lb : LimitedBroadcast) :
    ∀ e ∈ (q.deleteItem lb).tq, ((q.deleteItem lb).tm e.b.node).isSome := by
  intro e he
  rw [deleteItem_tq hq] at he
  obtain ⟨he,hn⟩ := List.mem_filter.mp he
  have hs := hq.mapped e he
  have hne : e.b.node ≠ lb.b.node := by simpa using hn
  unfold deleteItem
  split
  · simpa [Function.update_of_ne hne] using hs
  · exact hs

theorem deleteItem_consistent {q : BroadcastQueue} (hq : q.Consistent) (lb : LimitedBroadcast) :
    (q.deleteItem lb).Consistent := by
  refine ⟨?_,deleteItem_mapped hq lb⟩
  rw [deleteItem_tq hq]
  exact hq.names.sublist (List.filter_sublist.map _)

theorem mem_addItem {q : BroadcastQueue} {lb e : LimitedBroadcast} (he : e ∈ (q.addItem lb).tq) :
    e = lb ∨ e ∈ q.tq :=
  mem_insertNew he

theorem addItem_consistent {q : BroadcastQueue} (hq : q.Consistent) {lb : LimitedBroadcast}
    (hn : lb.b.node ∉ q.tq.map (·.b.node)) : (q.addItem lb).Consistent := by
  refine ⟨?_,fun e he => ?_⟩
  · rcases insertNew_eq_or_perm LimitedBroadcast.lt lb q.tq with h | h
    · simpa only [addItem,h] using hq.names
    · rw [addItem,(h.map _).nodup_iff]
      exact List.nodup_cons.mpr ⟨hn,hq.names⟩
  · by_cases hne : e.b.node = lb.b.node
    · simp [addItem,hne]
    · have hs : e ∈ q.tq := (mem_addItem he).resolve_left fun h => hne (h ▸ rfl)
      simpa [addItem,Function.update_of_ne hne] using hq.mapped e hs

theorem queueBroadcast_consistent {q : BroadcastQueue} (hq : q.Consistent)
    (b : MemberlistBroadcast) (n : ℕ) : (q.queueBroadcast b n).Consistent := by
  have hq' : { q with idGen := if q.idGen = 2 ^ 32 - 1 then 1 else q.idGen + 1 }.Consistent :=
    ⟨hq.names,hq.mapped⟩
  refine addItem_consistent (deleteItem_consistent hq' _) ?_
  rw [deleteItem_tq hq']
  simp

theorem mem_queueBroadcast {q : BroadcastQueue} (hq : q.Consistent) {b : MemberlistBroadcast}
    {n : ℕ} {e : LimitedBroadcast} (he : e ∈ (q.queueBroadcast b n).tq) :
    e.b = b ∨ e ∈ q.tq ∧ e.b.node ≠ b.node := by
  have hq' : { q with idGen := if q.idGen = 2 ^ 32 - 1 then 1 else q.idGen + 1 }.Consistent :=
    ⟨hq.names,hq.mapped⟩
  rcases mem_addItem he with h | h
  · exact Or.inl (h ▸ rfl)
  · rw [deleteItem_tq hq'] at h
    obtain ⟨h,hn⟩ := List.mem_filter.mp h
    exact Or.inr ⟨h,by simpa using hn⟩

/-- What a `GetBroadcasts` call that began on `q₀` has made of the queue so far. -/
structure Selection.From (q₀ : BroadcastQueue) (s : Selection) : Prop where
  queue : s.queue.Consistent
  names : (s.queue.tq.map (·.b.node) ++ s.reinsert.map (·.b.node)).Nodup
  kept : ∀ e ∈ s.queue.tq ++ s.reinsert, ∃ e₀ ∈ q₀.tq, e.b = e₀.b
  chosen : ∀ m ∈ s.cbc, ∃ e₀ ∈ q₀.tq, e₀.b.msg = m

theorem candidate_mem {q : BroadcastQueue} {i space : ℕ} {cur : LimitedBroadcast}
    (h : q.candidate i space = some cur) : cur ∈ q.tq := by
  unfold candidate at h
  dsimp only at h
  split at h
  · cases h
  · exact List.mem_of_getElem? h

theorem pickTier_invariant {P : Selection → Prop} {transmitLimit : ℕ}
    (hpick : ∀ s cur, P s → cur ∈ s.queue.tq → P (s.pick transmitLimit cur))
    (overhead limit i fuel : ℕ) {s : Selection} (hs : P s) :
    P (pickTier transmitLimit overhead limit i fuel s).1 := by
  induction fuel generalizing s with
  | zero => exact hs
  | succ fuel ih =>
    simp only [pickTier]
    split
    · exact hs
    · split
      · exact hs
      · rename_i cur hcur
        exact ih (hpick s cur hs (candidate_mem hcur))

theorem pickTiers_invariant {P : Selection → Prop} {transmitLimit : ℕ}
    (hpick : ∀ s cur, P s → cur ∈ s.queue.tq → P (s.pick transmitLimit cur))
    (overhead limit fuel : ℕ) (is : List ℕ) {s : Selection} (hs : P s) :
    P (pickTiers transmitLimit overhead limit fuel is s) := by
  induction is generalizing s with
  | nil => exact hs
  | cons i is ih =>
    simp only [pickTiers]
    have hi := pickTier_invariant hpick overhead limit i fuel hs
    split
    · exact hi
    · exact ih hi

theorem Selection.From.pick {q₀ : BroadcastQueue} {s : Selection} (hs : s.From q₀)
    {cur : LimitedBroadcast} (hc : cur ∈ s.queue.tq) (transmitLimit : ℕ) :
    (s.pick transmitLimit cur).From q₀ := by
  have hd := deleteItem_consistent hs.queue cur
  have htq := deleteItem_tq hs.queue cur
  have hsub : (s.queue.deleteItem cur).tq.Sublist s.queue.tq := htq ▸ List.filter_sublist
  obtain ⟨e₀,he₀,hb⟩ := hs.kept cur (List.mem_append_left _ hc)
  have hchosen : ∀ m ∈ s.cbc ++ [cur.b.msg], ∃ e₀ ∈ q₀.tq, e₀.b.msg = m := by
    intro m hm
    rcases List.mem_append.mp hm with hm | hm
    · exact hs.chosen m hm
    · exact ⟨e₀,he₀,by rw [← hb]; exact (List.mem_singleton.mp hm).symm⟩
  have hnames : ((s.queue.deleteItem cur).tq.map (·.b.node) ++ s.reinsert.map (·.b.node)).Nodup :=
    hs.names.sublist ((hsub.map _).append (List.Sublist.refl _))
  unfold Selection.pick
  dsimp only
  split
  · refine ⟨⟨hd.names,hd.mapped⟩,hnames,fun e he => ?_,hchosen⟩
    rcases List.mem_append.mp he with he | he
    · exact hs.kept e (List.mem_append_left _ (hsub.subset he))
    · exact hs.kept e (List.mem_append_right _ he)
  · refine ⟨hd,?_,fun e he => ?_,hchosen⟩
    · have hcur : cur.b.node ∉ (s.queue.deleteItem cur).tq.map (·.b.node) ++
          s.reinsert.map (·.b.node) := by
        rw [List.mem_append,not_or]
        refine ⟨by rw [htq]; simp,fun h => ?_⟩
        exact (List.nodup_append.mp hs.names).2.2 _ (List.mem_map_of_mem hc) _ h rfl
      have := (List.perm_append_singleton cur.b.node _).nodup_iff.mpr
        (List.nodup_cons.mpr ⟨hcur,hnames⟩)
      simpa [List.map_append,List.append_assoc] using this
    · rcases List.mem_append.mp he with he | he
      · exact hs.kept e (List.mem_append_left _ (hsub.subset he))
      · rcases List.mem_append.mp he with he | he
        · exact hs.kept e (List.mem_append_right _ he)
        · exact ⟨e₀,he₀,by rw [List.mem_singleton.mp he]; exact hb⟩

theorem reinsert_from {q₀ : BroadcastQueue} (reinsert : List LimitedBroadcast) {q : BroadcastQueue}
    (hq : q.Consistent) (hn : (q.tq.map (·.b.node) ++ reinsert.map (·.b.node)).Nodup)
    (hk : ∀ e ∈ q.tq ++ reinsert, ∃ e₀ ∈ q₀.tq, e.b = e₀.b) :
    (reinsert.foldl (fun q lb => q.addItem lb) q).Consistent ∧
      ∀ e ∈ (reinsert.foldl (fun q lb => q.addItem lb) q).tq, ∃ e₀ ∈ q₀.tq, e.b = e₀.b := by
  induction reinsert generalizing q with
  | nil => exact ⟨hq,fun e he => hk e (by simpa using he)⟩
  | cons lb reinsert ih =>
    have hlb : lb.b.node ∉ q.tq.map (·.b.node) := fun h =>
      (List.nodup_append.mp hn).2.2 _ h _ (by simp) rfl
    refine ih (addItem_consistent hq hlb) ?_ fun e he => hk e ?_
    · rcases insertNew_eq_or_perm LimitedBroadcast.lt lb q.tq with h | h
      · simp only [addItem,h]
        exact hn.sublist ((List.Sublist.refl _).append (by simp))
      · have hp := ((h.map (·.b.node)).append_right (reinsert.map (·.b.node))).nodup_iff
        exact hp.mpr (List.perm_middle.nodup_iff.mp (by simpa using hn))
    · rcases List.mem_append.mp he with he | he
      · rcases mem_addItem he with he | he <;> simp [he]
      · simp [he]

variable (fl : Floats) (estNumNodes overhead limit : ℕ) (haveMsg : Bool)

theorem getBroadcasts_spec {q : BroadcastQueue} (hq : q.Consistent) :
    let r := q.getBroadcasts fl estNumNodes overhead limit haveMsg
    r.2.2.Consistent ∧ (∀ e ∈ r.2.2.tq, ∃ e₀ ∈ q.tq, e.b = e₀.b) ∧
      ∀ m ∈ r.2.1, ∃ e₀ ∈ q.tq, e₀.b.msg = m := by
  dsimp only
  unfold getBroadcasts
  split
  · rename_i first last hfirst hlast
    dsimp only
    have h₀ : (Selection.mk q [] 0 [] haveMsg).From q :=
      ⟨hq,by simpa using hq.names,fun e he => ⟨e,by simpa using he,rfl⟩,by simp⟩
    have hs := pickTiers_invariant (P := Selection.From q)
      (fun _ _ hs hc => hs.pick hc (retransmitLimit fl q.retransmitMult estNumNodes)) overhead limit
      (q.tq.length + 1) (List.range' first.transmits (last.transmits + 1 - first.transmits)) h₀
    obtain ⟨h₁,h₂⟩ := reinsert_from _ hs.queue hs.names hs.kept
    exact ⟨h₁,h₂,hs.chosen⟩
  · exact ⟨hq,fun e he => ⟨e,he,rfl⟩,by simp⟩

theorem pruneBack_consistent (maxRetain : ℕ) {q : BroadcastQueue} (hq : q.Consistent)
    {i : LimitedBroadcast} {rs : List LimitedBroadcast} (hrs : q.tq.reverse = i::rs) :
    (q.pruneBack maxRetain i).Consistent := by
  have htq : q.tq = rs.reverse ++ [i] := by simpa using congrArg List.reverse hrs
  unfold pruneBack
  split
  · refine ⟨hq.names.sublist ((List.dropLast_sublist _).map _),fun e he => ?_⟩
    have he' : e ∈ rs.reverse := by simpa [finish,htq] using he
    have hne : e.b.node ≠ i.b.node := by
      have hn := hq.names
      rw [htq,List.map_append,List.nodup_append] at hn
      exact hn.2.2 _ (List.mem_map_of_mem he') _ (by simp)
    have hs := hq.mapped e (by rw [htq]; exact List.mem_append_left _ he')
    simpa [finish,Function.update_of_ne hne] using hs
  · exact hq

theorem pruneBack_sublist (maxRetain : ℕ) (i : LimitedBroadcast) (q : BroadcastQueue) :
    (q.pruneBack maxRetain i).tq.Sublist q.tq := by
  unfold pruneBack
  split
  · exact List.dropLast_sublist _
  · exact List.Sublist.refl _

/-- What taking the last entry off keeps, the loop keeps: it either still has the entries
it will visit, or has nothing left to do. -/
theorem pruneLoop_invariant (maxRetain : ℕ) {P : BroadcastQueue → Prop}
    (hback : ∀ q i rs, P q → q.tq.reverse = i::rs → P (q.pruneBack maxRetain i))
    (rs : List LimitedBroadcast) {q : BroadcastQueue} (hq : P q)
    (hrs : q.tq.reverse = rs ∨ q.tq.length ≤ maxRetain) :
    P (rs.foldl (fun q i => q.pruneBack maxRetain i) q) := by
  induction rs generalizing q with
  | nil => exact hq
  | cons i rs ih =>
    rw [List.foldl_cons]
    by_cases hlen : maxRetain < q.tq.length
    · have hrs := hrs.resolve_right (Nat.not_le_of_lt hlen)
      have htq : q.tq = rs.reverse ++ [i] := by simpa using congrArg List.reverse hrs
      have htq' : (q.pruneBack maxRetain i).tq = rs.reverse := by
        rw [pruneBack,if_pos hlen]
        simp [finish,htq]
      exact ih (hback q i rs hq hrs) (Or.inl (by simp [htq']))
    · rw [pruneBack,if_neg hlen]
      exact ih hq (Or.inr (Nat.le_of_not_lt hlen))

theorem prune_invariant (maxRetain : ℕ) {P : BroadcastQueue → Prop} {q : BroadcastQueue}
    (hback : ∀ q i rs, P q → q.tq.reverse = i::rs → P (q.pruneBack maxRetain i)) (hq : P q) :
    P (q.prune maxRetain) :=
  pruneLoop_invariant maxRetain hback _ hq (Or.inl rfl)

theorem prune_spec (maxRetain : ℕ) {q : BroadcastQueue} (hq : q.Consistent) :
    (q.prune maxRetain).Consistent ∧ (q.prune maxRetain).tq.Sublist q.tq :=
  prune_invariant maxRetain (P := fun q' => q'.Consistent ∧ q'.tq.Sublist q.tq)
    (fun q' i _ h hrs => ⟨pruneBack_consistent maxRetain h.1 hrs,
      (pruneBack_sublist maxRetain i q').trans h.2⟩) ⟨hq,List.Sublist.refl _⟩

end BroadcastQueue
end GossipMemberlist
