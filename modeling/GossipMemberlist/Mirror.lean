import GossipMemberlist.Selections

/-!
# The set and the map

`tq` and `tm` hold the same entries. Each of the four operations updates the two
on its own, and what keeps them in step is that no entry is ever refused by the
set: entries have different numbers until the number generator wraps, and `clear`
starts it anew with an empty queue.
-/

namespace GossipMemberlist
namespace BroadcastQueue

open OrderedList

/-- The set is in order, and the map shows every entry of it under its name and no other. -/
structure Mirrored (q : BroadcastQueue) : Prop extends q.Consistent where
  sorted : q.tq.Pairwise fun e f => e.lt f
  mirrored : ∀ x e, q.tm x = some e ↔ e ∈ q.tq ∧ e.b.node = x

variable {q : BroadcastQueue}

theorem Mirrored.new (retransmitMult : ℕ) : (new retransmitMult).Mirrored :=
  ⟨new_consistent retransmitMult,List.Pairwise.nil,by simp [BroadcastQueue.new]⟩

theorem Mirrored.clear (q : BroadcastQueue) : q.clear.Mirrored :=
  ⟨clear_consistent q,List.Pairwise.nil,by simp [BroadcastQueue.clear]⟩

theorem Mirrored.congr (hq : q.Mirrored) {q' : BroadcastQueue} (htq : q'.tq = q.tq)
    (htm : q'.tm = q.tm) : q'.Mirrored := by
  refine ⟨⟨?_,?_⟩,?_,?_⟩
  · rw [htq]
    exact hq.names
  · rw [htq,htm]
    exact hq.mapped
  · rw [htq]
    exact hq.sorted
  · rw [htq,htm]
    exact hq.mirrored

theorem Mirrored.deleteItem (hq : q.Mirrored) (lb : LimitedBroadcast) :
    (q.deleteItem lb).Mirrored := by
  have htq := deleteItem_tq hq.toConsistent lb
  refine ⟨deleteItem_consistent hq.toConsistent lb,?_,fun x e => ?_⟩
  · rw [htq]
    exact hq.sorted.sublist List.filter_sublist
  · have hmem : e ∈ (q.deleteItem lb).tq ↔ e ∈ q.tq ∧ e.b.node ≠ lb.b.node := by
      rw [htq,List.mem_filter]
      simp
    rw [hmem]
    unfold BroadcastQueue.deleteItem
    by_cases hx : x = lb.b.node
    · have hnone : ¬((e ∈ q.tq ∧ e.b.node ≠ lb.b.node) ∧ e.b.node = x) := fun h =>
        h.1.2 (h.2.trans hx)
      split
      · simp [hx]
      · rename_i hm
        have htm : q.tm x = none := by
          rw [hx]
          exact Option.not_isSome_iff_eq_none.mp hm
        simpa [htm] using hnone
    · have hiff : (e ∈ q.tq ∧ e.b.node ≠ lb.b.node) ∧ e.b.node = x ↔ e ∈ q.tq ∧ e.b.node = x :=
        ⟨fun h => ⟨h.1.1,h.2⟩,fun h => ⟨⟨h.1,fun he => hx (h.2.symm.trans he)⟩,h.2⟩⟩
      rw [hiff,← hq.mirrored x e]
      split
      · simp [Function.update_of_ne hx]
      · exact Iff.rfl

theorem Mirrored.addItem (hq : q.Mirrored) {lb : LimitedBroadcast}
    (hname : lb.b.node ∉ q.tq.map (·.b.node)) (hp : (q.addItem lb).tq.Perm (lb::q.tq)) :
    (q.addItem lb).Mirrored := by
  refine ⟨addItem_consistent hq.toConsistent hname,?_,fun x e => ?_⟩
  · exact insertNew_sorted LimitedBroadcast.lt_trans hq.sorted
  · rw [hp.mem_iff,List.mem_cons]
    by_cases hx : x = lb.b.node
    · have hold : ¬(e ∈ q.tq ∧ e.b.node = x) := fun h =>
        hname (List.mem_map.mpr ⟨e,h.1,h.2.trans hx⟩)
      simp only [BroadcastQueue.addItem,hx,Function.update_self,Option.some.injEq]
      constructor
      · rintro rfl
        exact ⟨Or.inl rfl,rfl⟩
      · rintro ⟨rfl | he,hn⟩
        · rfl
        · exact absurd ⟨he,hn.trans hx.symm⟩ hold
    · simp only [BroadcastQueue.addItem,Function.update_of_ne hx]
      rw [hq.mirrored x e]
      constructor
      · exact fun h => ⟨Or.inr h.1,h.2⟩
      · rintro ⟨rfl | he,hn⟩
        · exact absurd hn.symm hx
        · exact ⟨he,hn⟩

def AllAdded : List LimitedBroadcast → BroadcastQueue → Prop
  | [], _ => True
  | lb::items, q => (q.addItem lb).tq.Perm (lb::q.tq) ∧ AllAdded items (q.addItem lb)

theorem allAdded_of_ids (items : List LimitedBroadcast)
    (hids : (q.tq.map (·.id) ++ items.map (·.id)).Nodup) : AllAdded items q := by
  induction items generalizing q with
  | nil => trivial
  | cons lb items ih =>
    have hlb : lb.id ∉ q.tq.map (·.id) := fun h =>
      (List.nodup_append.mp hids).2.2 _ h _ (by simp) rfl
    have hp := addItem_perm hlb
    refine ⟨hp,ih ?_⟩
    have hp' := ((hp.map (·.id)).append_right (items.map (·.id))).nodup_iff
    exact hp'.mpr (List.perm_middle.nodup_iff.mp (by simpa using hids))

theorem Mirrored.addItems (items : List LimitedBroadcast) (hq : q.Mirrored)
    (hnames : (q.tq.map (·.b.node) ++ items.map (·.b.node)).Nodup) (hadded : AllAdded items q) :
    (items.foldl (fun q lb => q.addItem lb) q).Mirrored := by
  induction items generalizing q with
  | nil => exact hq
  | cons lb items ih =>
    obtain ⟨hp,hadded⟩ := hadded
    have hlb : lb.b.node ∉ q.tq.map (·.b.node) := fun h =>
      (List.nodup_append.mp hnames).2.2 _ h _ (by simp) rfl
    refine ih (hq.addItem hlb hp) ?_ hadded
    have hp' := ((hp.map (·.b.node)).append_right (items.map (·.b.node))).nodup_iff
    exact hp'.mpr (List.perm_middle.nodup_iff.mp (by simpa using hnames))

section Calls

variable (fl : Floats) (estNumNodes overhead limit : ℕ) (haveMsg : Bool)

theorem Mirrored.pick {s : Selection} (hs : s.queue.Mirrored) (transmitLimit : ℕ)
    (cur : LimitedBroadcast) : (s.pick transmitLimit cur).queue.Mirrored := by
  unfold Selection.pick
  dsimp only
  split
  · exact (hs.deleteItem cur).congr rfl rfl
  · exact hs.deleteItem cur

theorem Mirrored.selection (hq : q.Mirrored) :
    (selection fl estNumNodes overhead limit haveMsg q).queue.Mirrored := by
  unfold BroadcastQueue.selection
  split
  · exact pickTiers_invariant (P := fun s => s.queue.Mirrored) (fun _ cur hs _ => hs.pick _ cur)
      overhead limit _ _ hq
  · exact hq

/-- The queue to which a call adds entries, and these entries in their order. -/
def insertions (q : BroadcastQueue) : Call → BroadcastQueue × List LimitedBroadcast
  | .queueBroadcast b => ({ q with idGen := q.nextId }.deleteItem (q.fresh b),[q.fresh b])
  | .getBroadcasts estNumNodes overhead limit haveMsg =>
    let s := selection fl estNumNodes overhead limit haveMsg q
    (s.queue,s.reinsert)
  | .prune maxRetain => (q.prune maxRetain,[])
  | .clear => (q.clear,[])

/-- Every call ends with its insertions. -/
theorem call_eq (q : BroadcastQueue) (c : Call) : q.call fl c =
    (q.insertions fl c).2.foldl (fun q lb => q.addItem lb) (q.insertions fl c).1 := by
  cases c with
  | queueBroadcast b => exact queueBroadcast_eq b q
  | getBroadcasts estNumNodes overhead limit haveMsg =>
    exact congrArg Prod.snd (getBroadcasts_eq fl estNumNodes overhead limit haveMsg q)
  | prune maxRetain => rfl
  | clear => rfl

theorem Mirrored.prune (hq : q.Mirrored) (maxRetain : ℕ) : (q.prune maxRetain).Mirrored := by
  refine prune_invariant maxRetain (P := Mirrored) (fun q i rs hq hrs => ?_) hq
  have htq : q.tq = rs.reverse ++ [i] := by simpa using congrArg List.reverse hrs
  have hdelete : (q.deleteItem i).tq = rs.reverse := by
    have hnames := hq.names
    rw [htq,List.map_append,List.nodup_append] at hnames
    rw [deleteItem_tq hq.toConsistent,htq,List.filter_append,List.filter_eq_self.mpr]
    · simp
    · intro e he
      simpa using hnames.2.2 _ (List.mem_map_of_mem he) i.b.node (by simp)
  have hmapped := hq.mapped i (by rw [htq]; simp)
  unfold pruneBack
  split
  · refine (hq.deleteItem i).congr ?_ ?_
    · rw [hdelete]
      simp [finish,htq]
    · simp [finish,BroadcastQueue.deleteItem,hmapped]
  · exact hq

variable {fl} {n : ℕ}

/-- A call adds its entries to a queue in step, under names and numbers that are not there. -/
theorem insertions_spec (fl : Floats) (hq : q.Numbered n) (hm : q.Mirrored) (c : Call)
    (hn : n + (queued [c]).length < 2 ^ 32) :
    (q.insertions fl c).1.Mirrored ∧
      ((q.insertions fl c).1.tq.map (·.b.node) ++ (q.insertions fl c).2.map (·.b.node)).Nodup ∧
      ((q.insertions fl c).1.tq.map (·.id) ++ (q.insertions fl c).2.map (·.id)).Nodup := by
  cases c with
  | queueBroadcast b =>
    have hgen := hq.idGen
    have hid : q.nextId = q.idGen + 1 := if_neg (by simp [queued] at hn; omega)
    have hm' : { q with idGen := q.nextId }.Mirrored := hm.congr rfl rfl
    have htq := deleteItem_tq hm'.toConsistent (q.fresh b)
    have hnew : ∀ e ∈ q.tq, e.id ≠ q.nextId := fun e he h => by
      have := hq.below e he
      omega
    refine ⟨hm'.deleteItem _,?_,?_⟩
    · simp only [insertions,htq]
      refine List.nodup_append.mpr ⟨hq.names.sublist (List.filter_sublist.map _),by simp,?_⟩
      rintro _ hx _ hy rfl
      obtain ⟨e,he,hname⟩ := List.mem_map.mp hx
      have hne : e.b.node ≠ b.node := of_decide_eq_true (List.mem_filter.mp he).2
      exact hne (hname.trans (by simpa using hy))
    · simp only [insertions,htq]
      refine List.nodup_append.mpr ⟨hq.ids.sublist (List.filter_sublist.map _),by simp,?_⟩
      rintro _ hx _ hy rfl
      obtain ⟨e,he,hid⟩ := List.mem_map.mp hx
      exact hnew e (List.mem_filter.mp he).1 (hid.trans (by simpa [fresh] using hy))
  | getBroadcasts estNumNodes overhead limit haveMsg =>
    have hs := selection_trace fl estNumNodes overhead limit haveMsg hm.toConsistent
    exact ⟨hm.selection fl estNumNodes overhead limit haveMsg,
      hs.nodup_map (fun _ => rfl) hm.names,hs.ids hq.ids⟩
  | prune maxRetain =>
    have hp := hq.prune maxRetain
    simpa [insertions] using ⟨hm.prune maxRetain,hp.names,hp.ids⟩
  | clear => simpa [insertions,BroadcastQueue.clear] using Mirrored.clear q

theorem Mirrored.call (hq : q.Numbered n) (hm : q.Mirrored) (c : Call)
    (hn : n + (queued [c]).length < 2 ^ 32) : (q.call fl c).Mirrored := by
  obtain ⟨hfrom,hnames,hids⟩ := insertions_spec fl hq hm c hn
  rw [call_eq]
  exact hfrom.addItems _ hnames (allAdded_of_ids _ hids)

end Calls

def queuedSinceClear (calls : List Call) : ℕ :=
  calls.foldl (fun n c =>
    match c with
    | .queueBroadcast _ => n + 1
    | .clear => 0
    | _ => n) 0

@[simp] theorem queuedSinceClear_snoc (calls : List Call) (c : Call) :
    queuedSinceClear (calls ++ [c]) =
      match c with
      | .queueBroadcast _ => queuedSinceClear calls + 1
      | .clear => 0
      | _ => queuedSinceClear calls := by
  rw [queuedSinceClear,List.foldl_concat]
  rfl

theorem after_mirrored (fl : Floats) (retransmitMult : ℕ) (calls : List Call)
    (h : queuedSinceClear calls < 2 ^ 32) :
    (after fl retransmitMult calls).Numbered (queuedSinceClear calls) ∧
      (after fl retransmitMult calls).Mirrored := by
  induction calls using List.reverseRecOn with
  | nil => exact ⟨Numbered.new retransmitMult,Mirrored.new retransmitMult⟩
  | append_singleton calls c ih =>
    rw [queuedSinceClear_snoc] at h ⊢
    rw [after_snoc]
    cases c with
    | queueBroadcast b =>
      obtain ⟨hq,hm⟩ := ih (Nat.lt_of_succ_lt h)
      exact ⟨hq.call fl (.queueBroadcast b) h,hm.call hq (.queueBroadcast b) h⟩
    | getBroadcasts estNumNodes overhead limit haveMsg =>
      obtain ⟨hq,hm⟩ := ih h
      let c : Call := .getBroadcasts estNumNodes overhead limit haveMsg
      exact ⟨hq.call fl c h,hm.call hq c h⟩
    | prune maxRetain =>
      obtain ⟨hq,hm⟩ := ih h
      exact ⟨hq.call fl (.prune maxRetain) h,hm.call hq (.prune maxRetain) h⟩
    | clear => exact ⟨Numbered.clear 0 _,Mirrored.clear _⟩

/-- With fewer than `2 ^ 32` queueings since the last `clear` the set and the map show the
same entries, one for each name, and neither the calls so far nor the next one lose an entry
because the set holds an equivalent one. -/
theorem transmit_mirrored (fl : Floats) (retransmitMult : ℕ) (calls : List Call)
    (h : queuedSinceClear calls < 2 ^ 32) :
    let q := after fl retransmitMult calls
    (q.tq.map (·.b.node)).Nodup ∧ (q.tq.Pairwise fun e f => e.lt f) ∧
    (∀ x e, q.tm x = some e ↔ e ∈ q.tq ∧ e.b.node = x) ∧
    ∀ c, queuedSinceClear (calls ++ [c]) < 2 ^ 32 →
      AllAdded (q.insertions fl c).2 (q.insertions fl c).1 := by
  obtain ⟨hq,hm⟩ := after_mirrored fl retransmitMult calls h
  refine ⟨hm.names,hm.sorted,hm.mirrored,fun c hc => ?_⟩
  cases c with
  | queueBroadcast b =>
    rw [queuedSinceClear_snoc] at hc
    exact allAdded_of_ids _ (insertions_spec fl hq hm (.queueBroadcast b) hc).2.2
  | getBroadcasts estNumNodes overhead limit haveMsg =>
    let c : Call := .getBroadcasts estNumNodes overhead limit haveMsg
    exact allAdded_of_ids _ (insertions_spec fl hq hm c h).2.2
  | prune maxRetain => trivial
  | clear => trivial

/-- Two entries, one of them transmitted once. -/
theorem transmit_mirrored_two :
    let b (node : String) : MemberlistBroadcast := ⟨node,genAliveBroadcast ⟨1,node,"",6666⟩,-1⟩
    let calls : List Call := [.queueBroadcast (b "a"),.clear,.queueBroadcast (b "b"),
      .getBroadcasts 3 2 1400 false,.queueBroadcast (b "c")]
    let q := after .small 4 calls
    q.tq.map (fun e => (e.b.node,e.transmits,e.id)) = [("c",0,2),("b",1,1)] ∧
      ∀ x e, q.tm x = some e ↔ e ∈ q.tq ∧ e.b.node = x := by
  intro b calls q
  exact ⟨by decide +kernel,(transmit_mirrored .small 4 calls (by decide)).2.2.1⟩

/-- The loop of `Prune`. A reverse iterator stands for the entry before its base, which is
`base` here; `erase` returns the position of the erased entry. -/
def pruneFrom (maxRetain : ℕ) : ℕ → ℕ → BroadcastQueue → BroadcastQueue
  | 0, _, q => q
  | base+1, s, q =>
    if maxRetain < s then
      match q.tq[base]? with
      | none => q
      | some i =>
        pruneFrom maxRetain base (s - 1) ({ q with
          tm := Function.update q.tm i.b.node none
          tq := q.tq.eraseIdx base }.finish [i.b])
    else q

def pruned (maxRetain : ℕ) (q : BroadcastQueue) : BroadcastQueue :=
  { q with
    tq := q.tq.take maxRetain
    tm := fun x => if x ∈ (q.tq.drop maxRetain).map (·.b.node) then none else q.tm x
    finished := q.finished ++ (q.tq.drop maxRetain).reverse.map (·.b) }

theorem pruned_short {maxRetain : ℕ} (h : q.tq.length ≤ maxRetain) : q.pruned maxRetain = q := by
  simp [pruned,List.take_of_length_le h,List.drop_eq_nil_of_le h]

theorem pruned_dropLast {maxRetain : ℕ} {l : List LimitedBroadcast} {i : LimitedBroadcast}
    (htq : q.tq = l ++ [i]) (h : maxRetain ≤ l.length) :
    ({ q with tm := Function.update q.tm i.b.node none, tq := l }.finish [i.b]).pruned maxRetain =
      q.pruned maxRetain := by
  have hdrop : q.tq.drop maxRetain = l.drop maxRetain ++ [i] := by
    rw [htq,List.drop_append_of_le_length h]
  have htake : q.tq.take maxRetain = l.take maxRetain := by
    rw [htq,List.take_append_of_le_length h]
  simp only [pruned,finish,hdrop,htake,List.map_append,List.reverse_append,List.map_cons,
    List.map_nil,List.reverse_singleton,List.append_assoc,List.mem_append,List.mem_singleton]
  congr 1
  funext x
  by_cases hx : x = i.b.node
  · simp [hx]
  · simp [hx]

theorem pruneFrom_eq (maxRetain n : ℕ) (hn : q.tq.length = n) :
    q.pruneFrom maxRetain n n = q.pruned maxRetain := by
  induction n generalizing q with
  | zero => rw [pruneFrom,pruned_short (by omega)]
  | succ n ih =>
    rw [pruneFrom]
    split
    · rcases List.eq_nil_or_concat' q.tq with hnil | ⟨l,i,htq⟩
      · rw [hnil] at hn
        cases hn
      have hl : l.length = n := by
        rw [htq] at hn
        simpa using hn
      have hget : q.tq[n]? = some i := by simp [htq,← hl]
      have herase : q.tq.eraseIdx n = l := by
        rw [List.eraseIdx_eq_dropLast hn.symm,htq,List.dropLast_concat]
      rw [hget]
      dsimp only
      rw [herase,Nat.add_sub_cancel,ih hl,pruned_dropLast htq (by omega)]
    · exact (pruned_short (by omega)).symm

theorem pruneLoop_eq (maxRetain : ℕ) (rs : List LimitedBroadcast)
    (hrs : q.tq.reverse = rs ∨ q.tq.length ≤ maxRetain) :
    rs.foldl (fun q i => q.pruneBack maxRetain i) q = q.pruned maxRetain := by
  induction rs generalizing q with
  | nil =>
    refine (pruned_short (hrs.elim (fun h => ?_) id)).symm
    rw [← List.length_reverse,h]
    exact Nat.zero_le _
  | cons i rs ih =>
    rw [List.foldl_cons]
    by_cases hlen : maxRetain < q.tq.length
    · have htq : q.tq = rs.reverse ++ [i] := by
        simpa using congrArg List.reverse (hrs.resolve_right (Nat.not_le_of_lt hlen))
      have hback : q.pruneBack maxRetain i = { q with
          tm := Function.update q.tm i.b.node none
          tq := rs.reverse }.finish [i.b] := by
        rw [pruneBack,if_pos hlen]
        simp [htq]
      rw [htq,List.length_append,List.length_singleton] at hlen
      rw [hback,ih (Or.inl (by simp [finish])),pruned_dropLast htq (by omega)]
    · rw [pruneBack,if_neg hlen]
      exact ih (Or.inr (Nat.le_of_not_lt hlen))

/-- The rounds of `prune` are those of the loop over reverse iterators. -/
theorem prune_eq (maxRetain : ℕ) (q : BroadcastQueue) :
    q.prune maxRetain = q.pruneFrom maxRetain q.tq.length q.tq.length :=
  (pruneLoop_eq maxRetain _ (Or.inl rfl)).trans (pruneFrom_eq maxRetain _ rfl).symm

/-- `Prune` keeps the entries that come first in the order of the queue, in both containers, and
notifies each of the others once. -/
theorem prune_retains (hq : q.Mirrored) (maxRetain : ℕ) :
    let q' := q.pruneFrom maxRetain q.tq.length q.tq.length
    q'.tq = q.tq.take maxRetain ∧ q'.tq.length = min q.tq.length maxRetain ∧
    (∀ e ∈ q.tq.take maxRetain, ∀ f ∈ q.tq.drop maxRetain, e.transmits < f.transmits ∨
      e.transmits = f.transmits ∧ (f.msgLen < e.msgLen ∨ e.msgLen = f.msgLen ∧ f.id < e.id)) ∧
    (∀ x e, q'.tm x = some e ↔ e ∈ q.tq.take maxRetain ∧ e.b.node = x) ∧
    q'.finished = q.finished ++ (q.tq.drop maxRetain).reverse.map (·.b) ∧
    (q.tq.drop maxRetain).Nodup ∧ q'.idGen = q.idGen ∧ q' = q.prune maxRetain := by
  intro q'
  have hprune : q' = q.prune maxRetain := (prune_eq maxRetain q).symm
  have hq' : q' = q.pruned maxRetain := pruneFrom_eq maxRetain _ rfl
  have hmirrored : q'.Mirrored := hprune ▸ hq.prune maxRetain
  have htq : q'.tq = q.tq.take maxRetain := by rw [hq',pruned]
  refine ⟨htq,by rw [htq,List.length_take,Nat.min_comm],fun e he f hf => ?_,fun x e => ?_,
    by rw [hq',pruned],?_,by rw [hq',pruned],hprune⟩
  · have hsorted := hq.sorted
    rw [← List.take_append_drop maxRetain q.tq] at hsorted
    exact LimitedBroadcast.lt_iff.mp ((List.pairwise_append.mp hsorted).2.2 e he f hf)
  · rw [← htq]
    exact hmirrored.mirrored x e
  · exact (List.Nodup.of_map _ hq.names).sublist (List.drop_sublist _ _)

/-- One of three entries has to go. -/
theorem prune_retains_two :
    let b (node : String) : MemberlistBroadcast := ⟨node,genAliveBroadcast ⟨1,node,"",6666⟩,-1⟩
    let q := after .small 4 [.queueBroadcast (b "a"),.queueBroadcast (b "b"),
      .getBroadcasts 3 2 12 false,.queueBroadcast (b "c")]
    let q' := q.pruneFrom 2 q.tq.length q.tq.length
    q.tq.map (·.b.node) = ["c","a","b"] ∧ q'.tq.map (·.b.node) = ["c","a"] ∧
      q'.tq = q.tq.take 2 := by
  intro b q q'
  have hq : q.Mirrored := (after_mirrored .small 4 _ (by decide)).2
  exact ⟨by decide +kernel,by decide +kernel,(prune_retains hq 2).1⟩

end BroadcastQueue
end GossipMemberlist
