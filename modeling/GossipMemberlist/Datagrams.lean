import GossipMemberlist.MessageBytes
import GossipMemberlist.Selections
import Mathlib.Data.Nat.Log

/-!
# What gossip puts into a datagram

The limit of a `GetBroadcasts` call is the size of a datagram. The call charges
the overhead once and counts the bare messages, while the datagram frames each of
them, and its answer is a flag that nothing initializes.
-/

namespace GossipMemberlist
namespace BroadcastQueue

open Greedy

def spacesTier (transmitLimit overhead limit i : ℕ) : ℕ → Selection → List ℕ
  | 0, _ => []
  | fuel+1, s =>
    let space := free limit overhead s.bytesUsed
    s.bytesUsed::
      if space = 0 then []
      else match s.queue.candidate i space with
        | none => []
        | some cur => spacesTier transmitLimit overhead limit i fuel (s.pick transmitLimit cur)

def spacesTiers (transmitLimit overhead limit fuel : ℕ) : List ℕ → Selection → List ℕ
  | [], _ => []
  | i::is, s =>
    let r := pickTier transmitLimit overhead limit i fuel s
    spacesTier transmitLimit overhead limit i fuel s ++
      if r.2 then [] else spacesTiers transmitLimit overhead limit fuel is r.1

/-- The values of `bytesUsed` with which a call works out the free space. -/
def spaces (fl : Floats) (estNumNodes overhead limit : ℕ) (haveMsg : Bool) (q : BroadcastQueue) :
    List ℕ :=
  match q.tq.head?, q.tq.getLast? with
  | some first, some last =>
    spacesTiers (retransmitLimit fl q.retransmitMult estNumNodes) overhead limit (q.tq.length + 1)
      (List.range' first.transmits (last.transmits + 1 - first.transmits)) ⟨q,[],0,[],haveMsg⟩
  | _, _ => []

def packet (fl : Floats) (estNumNodes overhead limit : ℕ) (haveMsg : Bool) (q : BroadcastQueue) :
    Option MessageData :=
  let r := q.getBroadcasts fl estNumNodes overhead limit haveMsg
  if r.1 then some (genComMsg ⟨r.2.1⟩) else none

def messageDataOverhead : ℕ := 4

variable {q q₀ : BroadcastQueue} {transmitLimit : ℕ} {s : Selection} {out : List LimitedBroadcast}
variable (fl : Floats) (estNumNodes overhead limit : ℕ) (haveMsg : Bool)

theorem pickTier_total (i : ℕ) (hq₀ : q₀.Ordered) (fuel : ℕ)
    (hs : s.Trace q₀ transmitLimit out) :
    (pickTier transmitLimit overhead limit i fuel s).1.bytesUsed +
        free limit overhead (pickTier transmitLimit overhead limit i fuel s).1.bytesUsed =
      s.bytesUsed + free limit overhead s.bytesUsed ∧
    ∀ u ∈ spacesTier transmitLimit overhead limit i fuel s,
      u ≤ s.bytesUsed + free limit overhead s.bytesUsed := by
  induction fuel generalizing s out with
  | zero => simp [pickTier,spacesTier]
  | succ fuel ih =>
    simp only [pickTier,spacesTier]
    by_cases hfree : free limit overhead s.bytesUsed = 0
    · simp [hfree]
    · cases hcur : s.queue.candidate i (free limit overhead s.bytesUsed) with
      | none => simp [hfree]
      | some cur =>
        have hfit := (candidate_fits (hq₀.left hs) hcur).2
        obtain ⟨h₁,h₂⟩ := ih (hs.pick hq₀.toConsistent (candidate_mem hcur))
        have hsum : (s.pick transmitLimit cur).bytesUsed +
            free limit overhead (s.pick transmitLimit cur).bytesUsed =
              s.bytesUsed + free limit overhead s.bytesUsed := by
          rw [pick_bytesUsed,free_add hfit]
          omega
        rw [hsum] at h₁ h₂
        simp only [hfree,if_false,List.forall_mem_cons]
        exact ⟨h₁,by omega,h₂⟩

theorem spacesTiers_le (hq₀ : q₀.Ordered) (fuel : ℕ) (is : List ℕ)
    (hs : s.Trace q₀ transmitLimit out) :
    ∀ u ∈ spacesTiers transmitLimit overhead limit fuel is s,
      u ≤ s.bytesUsed + free limit overhead s.bytesUsed := by
  induction is generalizing s out with
  | nil => simp [spacesTiers]
  | cons i is ih =>
    obtain ⟨htotal,htier⟩ := pickTier_total overhead limit i hq₀ fuel hs
    have hrest := ih (hs.pickTier overhead limit i fuel hq₀.toConsistent)
    rw [htotal] at hrest
    intro u hu
    rcases List.mem_append.mp hu with hu | hu
    · exact htier u hu
    · split at hu
      · cases hu
      · exact hrest u hu

theorem spaces_le (hq : q.Ordered) :
    ∀ u ∈ q.spaces fl estNumNodes overhead limit haveMsg, u ≤ free limit overhead 0 := by
  unfold spaces
  split
  · intro u hu
    simpa using spacesTiers_le overhead limit hq _ _
      (Selection.Trace.initial hq.toConsistent _ haveMsg) u hu
  · simp

theorem zero_mem_spaces (hq : q.Ordered) (hne : q.tq ≠ []) :
    0 ∈ q.spaces fl estNumNodes overhead limit haveMsg := by
  unfold spaces
  cases hfirst : q.tq.head? with
  | none => exact absurd (List.head?_eq_none_iff.mp hfirst) hne
  | some first =>
    cases hlast : q.tq.getLast? with
    | none => exact absurd (List.getLast?_eq_none_iff.mp hlast) hne
    | some last =>
      have hle : first.transmits ≤ last.transmits :=
        hq.transmits_head_le hfirst (List.mem_of_getLast? hlast)
      have hn : last.transmits + 1 - first.transmits = last.transmits - first.transmits + 1 := by
        omega
      simp [hn,List.range'_succ,spacesTiers,spacesTier]

theorem pickTier_haveMsg (transmitLimit i fuel : ℕ) (s : Selection) :
    (pickTier transmitLimit overhead limit i fuel s).1.haveMsg =
      (s.haveMsg || !(takenTier transmitLimit overhead limit i fuel s).isEmpty) := by
  induction fuel generalizing s with
  | zero => simp [pickTier,takenTier]
  | succ fuel ih =>
    simp only [pickTier,takenTier]
    split
    · simp
    · cases hcur : s.queue.candidate i (free limit overhead s.bytesUsed) with
      | none => simp
      | some cur =>
        have hpick : (s.pick transmitLimit cur).haveMsg = true := by
          unfold Selection.pick
          dsimp only
          split <;> rfl
        simp [ih,hpick]

theorem pickTiers_haveMsg (fuel : ℕ) (is : List ℕ) (s : Selection) :
    (pickTiers transmitLimit overhead limit fuel is s).haveMsg =
      (s.haveMsg || !(takenTiers transmitLimit overhead limit fuel is s).isEmpty) := by
  induction is generalizing s with
  | nil => simp [pickTiers,takenTiers]
  | cons i is ih =>
    have hi := pickTier_haveMsg overhead limit transmitLimit i fuel s
    simp only [pickTiers,takenTiers]
    split
    · simpa using hi
    · rw [ih,hi]
      cases takenTier transmitLimit overhead limit i fuel s <;> simp

theorem getBroadcasts_flag (q : BroadcastQueue) :
    (q.getBroadcasts fl estNumNodes overhead limit haveMsg).1 = true ↔
      q.tq ≠ [] ∧ (haveMsg = true ∨ q.taken fl estNumNodes overhead limit haveMsg ≠ []) := by
  unfold getBroadcasts taken
  cases hfirst : q.tq.head? with
  | none => simp [List.head?_eq_none_iff.mp hfirst]
  | some first =>
    cases hlast : q.tq.getLast? with
    | none => simp [List.getLast?_eq_none_iff.mp hlast]
    | some last =>
      have hne : q.tq ≠ [] := fun h => by simp [h] at hfirst
      simp [pickTiers_haveMsg,hne]

theorem taken_empty (hq : q.Consistent) (h : q.tq = []) :
    q.taken fl estNumNodes overhead limit haveMsg = [] :=
  List.eq_nil_iff_forall_not_mem.mpr fun e he => by
    have := (taken_spec estNumNodes overhead limit haveMsg fl hq).2.1 e he
    simp [h] at this

/-- A call answers whether it added a message exactly when its flag was clear from the start,
or there was nothing to look at, or something fits. -/
theorem getBroadcasts_answer_iff (hq : q.Ordered) :
    let r := q.getBroadcasts fl estNumNodes overhead limit haveMsg
    let p := q.packet fl estNumNodes overhead limit haveMsg
    ((r.1 = true ↔ r.2.1 ≠ []) ∧ (∀ md, p = some md → md.comBroadcast.bs ≠ []) ∧
        (r.2.1 ≠ [] → p = some (genComMsg ⟨r.2.1⟩))) ↔
      q.tq = [] ∨ haveMsg = false ∨
        free limit overhead 0 ≠ 0 ∧ ∃ e ∈ q.tq, e.msgLen ≤ free limit overhead 0 := by
  intro r p
  have hflag := getBroadcasts_flag fl estNumNodes overhead limit haveMsg q
  have hout : r.2.1 = [] ↔ q.taken fl estNumNodes overhead limit haveMsg = [] := by
    rw [(taken_spec estNumNodes overhead limit haveMsg fl hq.toConsistent).2.2,List.map_eq_nil_iff]
  have hfits : q.taken fl estNumNodes overhead limit haveMsg ≠ [] ↔
      free limit overhead 0 ≠ 0 ∧ ∃ e ∈ q.tq, e.msgLen ≤ free limit overhead 0 := by
    rw [taken_eq overhead limit fl estNumNodes haveMsg hq,ne_eq,scanOpen_eq_nil_iff]
    simp
  have hempty := taken_empty fl estNumNodes overhead limit haveMsg hq.toConsistent
  have hp : p = if r.1 then some (genComMsg ⟨r.2.1⟩) else none := rfl
  have hanswer : (r.1 = true ↔ r.2.1 ≠ []) ↔ q.tq = [] ∨ haveMsg = false ∨
      q.taken fl estNumNodes overhead limit haveMsg ≠ [] := by
    rw [ne_eq,hout,hflag]
    cases haveMsg <;> by_cases h : q.tq = [] <;> simp_all
  rw [← hfits,← hanswer]
  refine ⟨fun h => h.1,fun h => ⟨h,fun md hmd => ?_,fun hne => ?_⟩⟩
  · rw [hp] at hmd
    split at hmd
    · rename_i hr
      rw [← Option.some.inj hmd]
      exact h.mp hr
    · cases hmd
  · rw [hp,if_pos (h.mpr hne)]

/-- Broadcasts about the nodes `0`, `1`, ..., `n - 1`, twenty bytes each while `n ≤ 10`. -/
def newcomers (n : ℕ) : List Call :=
  (List.range n).map fun i =>
    .queueBroadcast ⟨i.repr,genAliveBroadcast ⟨1,i.repr,"10.0.0.1",7946⟩,-1⟩

theorem getBroadcasts_answer_two :
    ((after .small 4 (newcomers 2)).getBroadcasts .small 3 4 30 true).1 = true ↔
      ((after .small 4 (newcomers 2)).getBroadcasts .small 3 4 30 true).2.1 ≠ [] :=
  ((getBroadcasts_answer_iff .small 3 4 30 true
    (after_ordered .small 4 (newcomers 2) (by decide +kernel))).mpr
      (Or.inr (Or.inr (by decide +kernel)))).1

/-- A flag that happens to be set sends a packet with nothing in it. -/
theorem getBroadcasts_answers_nothing :
    let q := after .small 4 (newcomers 1)
    let r := q.getBroadcasts .small 3 4 14 true
    r.1 = true ∧ r.2.1 = [] ∧ q.packet .small 3 4 14 true = some (genComMsg ⟨[]⟩) := by
  decide +kernel

theorem spaces_empty (h : q.tq = []) : q.spaces fl estNumNodes overhead limit haveMsg = [] := by
  unfold spaces
  rw [h]
  rfl

/-- What a call adds stays within the limit, overhead included, exactly when the overhead itself
does and no entry fits that would not, were the overhead charged for every message. -/
theorem getBroadcasts_overhead_iff (hq : q.Ordered) (hlimit : limit < 2 ^ 64) :
    ((∀ u ∈ q.spaces fl estNumNodes overhead limit haveMsg, overhead + u ≤ limit) ∧
        ((q.getBroadcasts fl estNumNodes overhead limit haveMsg).2.1.map fun m =>
          overhead + m.byteSizeLong).sum ≤ limit) ↔
      q.tq = [] ∨ overhead ≤ limit ∧ Keeps LimitedBroadcast.msgLen
        (fun u e => u + (overhead + e.msgLen)) (· ≤ limit) 0 (limit - overhead) q.tq := by
  obtain ⟨-,hsub,hout⟩ := taken_spec estNumNodes overhead limit haveMsg fl hq.toConsistent
  have hsum : ((q.getBroadcasts fl estNumNodes overhead limit haveMsg).2.1.map fun m =>
      overhead + m.byteSizeLong).sum =
        (q.taken fl estNumNodes overhead limit haveMsg).foldl
          (fun u e => u + (overhead + e.msgLen)) 0 := by
    rw [hout,List.map_map,List.sum_eq_foldl,List.foldl_map]
    refine List.foldl_ext _ _ _ fun u e he => ?_
    rw [hq.measured e (hsub e he)]
    rfl
  rw [hsum]
  by_cases hne : q.tq = []
  · simp [hne,spaces_empty fl estNumNodes overhead limit haveMsg hne,
      taken_empty fl estNumNodes overhead limit haveMsg hq.toConsistent hne]
  · rw [or_iff_right hne]
    have hzero := zero_mem_spaces fl estNumNodes overhead limit haveMsg hq hne
    have hspaces := spaces_le fl estNumNodes overhead limit haveMsg hq
    have hkeeps := keeps_iff LimitedBroadcast.msgLen
      (fun u e => u + (overhead + e.msgLen)) (· ≤ limit)
      (fun _ _ h => Nat.le_trans (Nat.le_add_right _ _) h) 0 (limit - overhead) q.tq
    constructor
    · rintro ⟨hwrap,hle⟩
      have hov : overhead ≤ limit := by simpa using hwrap 0 hzero
      rw [taken_eq overhead limit fl estNumNodes haveMsg hq,free_eq hov hlimit] at hle
      exact ⟨hov,hkeeps.mpr (Or.inr hle)⟩
    · rintro ⟨hov,hk⟩
      rw [free_eq hov hlimit] at hspaces
      refine ⟨fun u hu => by have := hspaces u hu; omega,?_⟩
      rw [taken_eq overhead limit fl estNumNodes haveMsg hq,free_eq hov hlimit]
      rcases hkeeps.mp hk with h | h
      · simp [h]
      · exact h

theorem getBroadcasts_overhead_two :
    ((((after .small 4 (newcomers 2)).getBroadcasts .small 3 4 48 false).2.1.map fun m =>
      4 + m.byteSizeLong).sum ≤ 48) :=
  ((getBroadcasts_overhead_iff .small 3 4 48 false
    (after_ordered .small 4 (newcomers 2) (by decide +kernel)) (by decide)).mpr
      (Or.inr (by decide +kernel))).2

/-- Two messages of twenty bytes in forty-four bytes with an overhead of four, and a limit
below the overhead that any message meets. -/
theorem getBroadcasts_overhead_exceeded :
    let q := after .small 4 (newcomers 2)
    (¬((q.getBroadcasts .small 3 4 44 false).2.1.map fun m => 4 + m.byteSizeLong).sum ≤ 44) ∧
      (q.getBroadcasts .small 3 4 3 false).2.1.length = 2 ∧
      ¬∀ u ∈ q.spaces .small 3 4 3 false, 4 + u ≤ 3 := by
  decide +kernel

theorem varintSize_mono {m n : ℕ} (h : m ≤ n) : varintSize m ≤ varintSize n := by
  have hlog : m.log2 ≤ n.log2 := by
    rw [Nat.log2_eq_log_two,Nat.log2_eq_log_two]
    exact Nat.log_mono_right h
  unfold varintSize
  omega

theorem messageFieldSize_mono {m n : ℕ} (h : m ≤ n) : messageFieldSize m ≤ messageFieldSize n := by
  have := varintSize_mono h
  unfold messageFieldSize
  omega

theorem genComMsg_getBroadcasts_length (hq : q.Ordered)
    (htype : ∀ e ∈ q.tq, e.b.msg.type.Stored) :
    (genComMsg ⟨(q.getBroadcasts fl estNumNodes overhead limit haveMsg).2.1⟩).serialize.length =
      2 + messageFieldSize ((q.taken fl estNumNodes overhead limit haveMsg).foldl
        (fun w e => w + messageFieldSize e.msgLen) 0) := by
  obtain ⟨-,hsub,hout⟩ := taken_spec estNumNodes overhead limit haveMsg fl hq.toConsistent
  rw [hout,genComMsg_length,List.map_map,List.sum_eq_foldl,List.foldl_map]
  · congr 2
    refine List.foldl_ext _ _ _ fun w e he => ?_
    rw [hq.measured e (hsub e he)]
    rfl
  · intro b hb
    obtain ⟨e,he,rfl⟩ := List.mem_map.mp hb
    exact htype e (hsub e he)

theorem packet_le_iff (hq : q.Ordered) (htype : ∀ e ∈ q.tq, e.b.msg.type.Stored) (size : ℕ) :
    (∀ md, q.packet fl estNumNodes overhead limit haveMsg = some md →
        md.serialize.length ≤ size) ↔
      (q.tq ≠ [] ∧ (haveMsg = true ∨ q.taken fl estNumNodes overhead limit haveMsg ≠ []) →
        2 + messageFieldSize ((q.taken fl estNumNodes overhead limit haveMsg).foldl
          (fun w e => w + messageFieldSize e.msgLen) 0) ≤ size) := by
  rw [← getBroadcasts_flag,← genComMsg_getBroadcasts_length fl estNumNodes overhead limit haveMsg hq
    htype]
  unfold packet
  dsimp only
  split <;> rename_i hr <;> simp [hr]

/-- A datagram never exceeds the buffer size exactly when no entry that fits by its bare length
exceeds it once framed together with what was taken before, and the empty message does not if
the initial flag lets it out. -/
theorem packet_fits_iff (udpBufferSize : UInt16) (hq : q.Ordered)
    (htype : ∀ e ∈ q.tq, e.b.msg.type.Stored) :
    (∀ md, q.packet fl estNumNodes messageDataOverhead udpBufferSize.toNat haveMsg = some md →
        md.serialize.length ≤ udpBufferSize.toNat) ↔
      q.tq = [] ∨ (haveMsg = true → 2 + messageFieldSize 0 ≤ udpBufferSize.toNat) ∧
        Keeps LimitedBroadcast.msgLen (fun w e => w + messageFieldSize e.msgLen)
          (fun w => 2 + messageFieldSize w ≤ udpBufferSize.toNat) 0
          (free udpBufferSize.toNat messageDataOverhead 0) q.tq := by
  generalize udpBufferSize.toNat = size
  have htaken := taken_eq messageDataOverhead size fl estNumNodes haveMsg hq
  have hmono : ∀ (w : ℕ) (e : LimitedBroadcast),
      2 + messageFieldSize (w + messageFieldSize e.msgLen) ≤ size →
        2 + messageFieldSize w ≤ size := fun w e h =>
    (Nat.add_le_add_left (messageFieldSize_mono (Nat.le_add_right w _)) 2).trans h
  have hkeeps := keeps_iff LimitedBroadcast.msgLen
    (fun w e => w + messageFieldSize e.msgLen)
    (fun w => 2 + messageFieldSize w ≤ size) hmono 0 (free size messageDataOverhead 0) q.tq
  rw [packet_le_iff fl estNumNodes messageDataOverhead size haveMsg hq htype,hkeeps,← htaken]
  by_cases hne : q.tq = []
  · simp [hne]
  · by_cases hnil : q.taken fl estNumNodes messageDataOverhead size haveMsg = []
    · simp [hne,hnil]
    · have hzero : 2 + messageFieldSize ((q.taken fl estNumNodes messageDataOverhead size
          haveMsg).foldl (fun w e => w + messageFieldSize e.msgLen) 0) ≤ size →
          2 + messageFieldSize 0 ≤ size := fun h => by
        by_contra h₀
        exact not_ok_foldl _ (fun w => 2 + messageFieldSize w ≤ size) hmono h₀ _ h
      simp only [hne,hnil,ne_eq,not_false_eq_true,or_true,and_self,true_imp_iff,false_or]
      exact ⟨fun h => ⟨fun _ => hzero h,h⟩,fun h => h.2⟩

theorem packet_fits_two : ∃ md, (after .small 4 (newcomers 2)).packet .small 3 messageDataOverhead
    (UInt16.toNat 48) false = some md ∧ md.serialize.length ≤ UInt16.toNat 48 := by
  have hsome : ((after .small 4 (newcomers 2)).packet .small 3 messageDataOverhead
      (UInt16.toNat 48) false).isSome = true := by decide +kernel
  obtain ⟨md,hmd⟩ := Option.isSome_iff_exists.mp hsome
  exact ⟨md,hmd,(packet_fits_iff .small 3 false 48
    (after_ordered .small 4 (newcomers 2) (by decide +kernel)) (by decide +kernel)).mpr
      (Or.inr (by decide +kernel)) md hmd⟩

/-- Small messages with the default buffer size: they fit, but their frames do not. -/
theorem packet_exceeds :
    ∃ md, (after .small 4 (newcomers 65)).packet .small 3 messageDataOverhead (UInt16.toNat 1400)
      false = some md ∧ ¬md.serialize.length ≤ UInt16.toNat 1400 := by
  have h : ((after .small 4 (newcomers 65)).packet .small 3 messageDataOverhead
      (UInt16.toNat 1400) false).any fun md => ¬md.serialize.length ≤ UInt16.toNat 1400 := by
    decide +kernel
  simpa [Option.any_eq_true] using h

end BroadcastQueue
end GossipMemberlist
