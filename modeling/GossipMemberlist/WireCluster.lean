import GossipMemberlist.Fits

/-!
# The cluster on the wire

The cluster once more, with bytes in flight: a member writes what the serializer
makes of its messages, a read takes a beginning of what somebody has written, and
what the parser answers decides which steps the reader can take. As long as no read
is refused, members on the wire do only what members on messages can do.
-/

namespace GossipMemberlist

namespace Process

variable (cfg : Config) (fl : Floats)

/-- The messages that a step hands to `encodeSendUDP` and `encodeSendTCP`. -/
def sends (p : Process) : Op → List MessageData
  | .gossip overhead limit haveMsg =>
    let r := p.member.queue.getBroadcasts fl p.member.table.numNodes.load overhead limit haveMsg
    if r.1 then [genComMsg ⟨r.2.1⟩] else []
  | .probeSend node =>
    if node ∈ p.probing ∧ node.state ≠ .stateAlive then
      [genSuspectMsg ⟨node.incarnation,node.n.name,cfg.name⟩]
    else []
  | .sendState join =>
    if p.member.deadlocked then []
    else [p.member.table.nodes.foldl
      (fun md r => addPushNodeState md (Member.pushNodeState (p.member.table.heap r)))
      (genPushPull join)]
  | _ => []

end Process

/-- The steps that a message can lead to. `handleCommand` and `handleConn` go by its head,
`packetHandler` by the types of its broadcasts. -/
def Op.carriedBy (md : MessageData) : Op → Bool
  | .alive b notifyFd _ => md.head = .compoundBroad ∧ b ∈ md.comBroadcast.bs ∧
      b.type = .aliveMsg ∧ notifyFd = -1
  | .suspect b _ => md.head = .compoundBroad ∧ b ∈ md.comBroadcast.bs ∧ b.type = .suspectMsg
  | .dead b _ => md.head = .compoundBroad ∧ b ∈ md.comBroadcast.bs ∧ b.type = .deadMsg
  | .merge state _ => md.head = .pushPullMsg ∧ state ∈ md.pushPull.states
  | _ => true

/-- What the messages of `md` bring is in flight. -/
structure MessageData.Brought (md : MessageData) (sent : List Packet) : Prop where
  broadcasts : ∀ b ∈ md.comBroadcast.bs, .broadcast b ∈ sent
  states : ∀ state ∈ md.pushPull.states, sent.any (Packet.brings state) = true

theorem MessageData.Brought.notSet {md : MessageData} {sent : List Packet}
    (h : md.body = .notSet) : md.Brought sent := by
  obtain ⟨head,body⟩ := md
  subst h
  exact ⟨fun b hb => absurd hb List.not_mem_nil,fun s hs => absurd hs List.not_mem_nil⟩

theorem MessageData.Brought.mono {md : MessageData} {sent sent' : List Packet}
    (h : md.Brought sent) (hsub : sent ⊆ sent') : md.Brought sent' where
  broadcasts b hb := hsub (h.broadcasts b hb)
  states state hstate := by
    obtain ⟨pkt,hpkt,hbrings⟩ := List.any_eq_true.mp (h.states state hstate)
    exact List.any_eq_true.mpr ⟨pkt,hsub hpkt,hbrings⟩

theorem Op.arrives_of_carried {md : MessageData} {sent : List Packet} (hmd : md.Brought sent)
    {op : Op} (h : op.carriedBy md = true) : op.arrives sent = true := by
  cases op with
  | alive b notifyFd e =>
    obtain ⟨-,hb,htype,hfd⟩ := of_decide_eq_true h
    exact decide_eq_true ⟨hmd.broadcasts b hb,htype,hfd⟩
  | suspect b e =>
    obtain ⟨-,hb,htype⟩ := of_decide_eq_true h
    exact decide_eq_true ⟨hmd.broadcasts b hb,htype⟩
  | dead b e =>
    obtain ⟨-,hb,htype⟩ := of_decide_eq_true h
    exact decide_eq_true ⟨hmd.broadcasts b hb,htype⟩
  | merge state e =>
    obtain ⟨-,hstate⟩ := of_decide_eq_true h
    exact hmd.states state hstate
  | _ => rfl

theorem Op.fits_of_carried {md : MessageData} (hmd : md.WellFormed) {op : Op}
    (h : op.carriedBy md = true) : op.Fits := by
  cases op with
  | alive b notifyFd e => exact hmd.comBroadcast b (of_decide_eq_true h).2.1
  | suspect b e => exact hmd.comBroadcast b (of_decide_eq_true h).2.1
  | dead b e => exact hmd.comBroadcast b (of_decide_eq_true h).2.1
  | merge state e => exact hmd.pushPull state (of_decide_eq_true h).2
  | _ => trivial

section Sends

variable {cfg : Config} {fl : Floats} {p : Process}

theorem foldl_addPushNodeState (xs : List ℕ) (f : ℕ → PushNodeState) (join : Bool)
    (states : List PushNodeState) :
    xs.foldl (fun md r => addPushNodeState md (f r)) ⟨.pushPullMsg,.pushPull ⟨join,states⟩⟩ =
      ⟨.pushPullMsg,.pushPull ⟨join,states ++ xs.map f⟩⟩ := by
  induction xs generalizing states with
  | nil => rw [List.foldl_nil,List.map_nil,List.append_nil]
  | cons x xs ih =>
    have hadd : addPushNodeState ⟨.pushPullMsg,.pushPull ⟨join,states⟩⟩ (f x) =
        ⟨.pushPullMsg,.pushPull ⟨join,states ++ [f x]⟩⟩ := rfl
    rw [List.foldl_cons,hadd,ih,List.append_assoc,List.map_cons,List.singleton_append]

theorem pushNodeState_known (s : NodeState) : (Member.pushNodeState s).state.Known := by
  cases hs : s.state <;> simp [Member.pushNodeState,hs,PushNodeStateType.Known]

theorem foldl_generated {xs : List ℕ} {heap : ℕ → NodeState} {md : MessageData}
    (h : ∀ r ∈ xs, IsUint32 (heap r).incarnation) (hmd : md.Generated) :
    (xs.foldl (fun md r => addPushNodeState md (Member.pushNodeState (heap r))) md).Generated := by
  induction xs generalizing md with
  | nil => exact hmd
  | cons x xs ih =>
    refine ih (fun r hr => h r (List.mem_cons_of_mem x hr)) ?_
    exact .addPushNodeState hmd (isUint32_port _) (h x List.mem_cons_self) (pushNodeState_known _)

/-- Everything that a fit member sends is a message of the gen functions. -/
theorem Process.Fits.generated (h : p.Fits) (hp : p.member.Sound cfg) {op : Op}
    {md : MessageData} (hmd : md ∈ p.sends cfg fl op) : md.Generated := by
  unfold Process.sends at hmd
  split at hmd
  · rename_i overhead limit haveMsg
    dsimp only at hmd
    split at hmd
    · rw [List.mem_singleton.mp hmd]
      refine .comMsg _ fun b hb => ?_
      obtain ⟨-,-,hmem⟩ := BroadcastQueue.getBroadcasts_spec fl p.member.table.numNodes.load
        overhead limit haveMsg hp.queue
      obtain ⟨e,he,hmsg⟩ := hmem b hb
      exact (h.member.cells e.b.node).rumours b ⟨e,he,rfl,hmsg⟩
    · cases hmd
  · split at hmd
    · rename_i hnode
      rw [List.mem_singleton.mp hmd]
      exact .suspectMsg _ (h.probing _ hnode.1)
    · cases hmd
  · split at hmd
    · cases hmd
    · rw [List.mem_singleton.mp hmd]
      refine foldl_generated (fun r hr => ?_) (.pushPull _)
      exact (h.member.cells _).record _ (Table.find_eq (Table.nodeMap_of_mem hr))
  · cases hmd

theorem Process.sends_brought {op : Op} {md : MessageData} (hmd : md ∈ p.sends cfg fl op) :
    md.Brought (p.step cfg fl op).2 := by
  unfold Process.sends at hmd
  split at hmd
  · rename_i overhead limit haveMsg
    dsimp only at hmd
    split at hmd
    · rename_i hr
      rw [List.mem_singleton.mp hmd]
      refine ⟨fun b hb => ?_,fun state hstate => absurd hstate List.not_mem_nil⟩
      simp only [Process.step,Process.gossip,hr,if_true]
      exact List.mem_map_of_mem hb
    · cases hmd
  · rename_i node
    split at hmd
    · rename_i hnode
      have hstep : (p.step cfg fl (.probeSend node)).2 =
          [.broadcast (Process.probeSuspicion cfg node)] := by
        simp only [Process.step]
        rw [if_pos hnode]
      rw [List.mem_singleton.mp hmd,hstep]
      refine ⟨fun b hb => ?_,fun state hstate => absurd hstate List.not_mem_nil⟩
      rw [List.mem_singleton.mp hb]
      exact List.mem_singleton.mpr rfl
    · cases hmd
  · split at hmd
    · cases hmd
    · rename_i hfree
      rw [List.mem_singleton.mp hmd,genPushPull,foldl_addPushNodeState]
      refine ⟨fun b hb => absurd hb List.not_mem_nil,fun state hstate => ?_⟩
      simp only [Process.step,hfree]
      exact List.any_eq_true.mpr ⟨_,List.mem_singleton.mpr rfl,decide_eq_true hstate⟩
  · cases hmd

end Sends

namespace Roster

variable {ι : Type*} (R : Roster ι) (ctx : Wire.Context) (partly : List UInt8 → MessageData)

abbrev WireCluster (ι : Type*) := Network.State ι Process (List UInt8)

/-- An event comes with what was read, a beginning of something that was written. -/
def wire : Network ι Process (Op × List UInt8) (List UInt8) where
  step i p ev := (p.next (R.config i) R.floats ev.1,
    (p.sends (R.config i) R.floats ev.1).map encodeSendTCP)
  delivers sent ev := (ev.2 = [] ∨ ∃ bytes ∈ sent, ev.2 <+: bytes) ∧
    ev.1.carriedBy (decodeReceiveTCP (generatedParser ctx partly) ev.2).md = true
  decidable _ _ := inferInstance

def wireStart : WireCluster ι := ⟨R.start.node,[]⟩

def Accepted (bytes : List UInt8) : Prop :=
  (decodeReceiveTCP (generatedParser ctx partly) bytes).parsed = true

/-- The members on the wire are the members on messages, their numbers fit, and the
bytes in flight are messages that bring packets in flight. -/
structure Mirrors (c : WireCluster ι) (c' : Cluster ι) : Prop where
  node : c.node = c'.node
  sound : ∀ i, (c.node i).member.Sound (R.config i)
  fits : ∀ i, (c.node i).Fits
  sent : ∀ bytes ∈ c.sent, ∃ md : MessageData, md.Generated ∧ bytes = md.serialize ∧
    md.Brought c'.sent

variable {R ctx partly} {c : WireCluster ι} {c' : Cluster ι}

theorem start_mirrors : R.Mirrors R.wireStart R.start where
  node := rfl
  sound i := Process.start_sound (R.config i) (R.leaveFd i) (R.env i)
  fits i := Process.start_fits (R.config i) (R.leaveFd i) (R.env i)
  sent _ h := absurd h List.not_mem_nil

/-- What an accepted read leads to has been sent, and it fits. -/
theorem Mirrors.reads (h : R.Mirrors c c') {ev : Op × List UInt8}
    (haccept : Accepted ctx partly ev.2) (hd : (R.wire ctx partly).delivers c.sent ev) :
    ev.1.arrives c'.sent = true ∧ ev.1.Fits := by
  obtain ⟨hbytes,hcarried⟩ := hd
  have hparse : MessageData.parseFromString ctx (received ev.2) =
      some (decodeReceiveTCP (generatedParser ctx partly) ev.2).md :=
    generatedParser_true ctx partly haccept
  refine ⟨?_,Op.fits_of_carried (MessageData.wellFormed_of_parse hparse) hcarried⟩
  refine Op.arrives_of_carried ?_ hcarried
  rcases hbytes with hnil | ⟨bytes,hmem,hbegins⟩
  · rw [hnil] at hparse ⊢
    have hdefault : MessageData.default = _ := Option.some.inj hparse
    rw [← hdefault]
    exact .notSet rfl
  · obtain ⟨md,hmd,rfl,hbrought⟩ := h.sent bytes hmem
    rcases parse_part ctx hmd ((received_begins _).trans hbegins) hparse with hr | hr | hr
    · exact hr ▸ hbrought
    · exact .notSet (by rw [hr])
    · exact .notSet (by rw [hr]; rfl)

variable [DecidableEq ι]

theorem Mirrors.act (h : R.Mirrors c c') {ev : Op × List UInt8} (i : ι) (hfits : ev.1.Fits) :
    R.Mirrors ((R.wire ctx partly).act c i ev) (R.network.act c' i ev.1) where
  node := by
    funext j
    by_cases hj : j = i
    · subst hj
      rw [Network.act_self,Network.act_self,← h.node]
      rfl
    · rw [Network.act_other _ hj,Network.act_other _ hj,h.node]
  sound j := by
    by_cases hj : j = i
    · subst hj
      rw [Network.act_self]
      exact Process.next_sound (h.sound j) ev.1
    · rw [Network.act_other _ hj]
      exact h.sound j
  fits j := by
    by_cases hj : j = i
    · subst hj
      rw [Network.act_self]
      exact (h.fits j).next (h.sound j) hfits
    · rw [Network.act_other _ hj]
      exact h.fits j
  sent bytes hbytes := by
    rcases List.mem_append.mp hbytes with hnew | hold
    · obtain ⟨md,hmd,rfl⟩ := List.mem_map.mp hnew
      have hbrought := Process.sends_brought hmd
      rw [h.node] at hbrought
      exact ⟨md,(h.fits i).generated (h.sound i) hmd,rfl,
        hbrought.mono (List.subset_append_left _ _)⟩
    · obtain ⟨md,hmd,hbytes,hbrought⟩ := h.sent bytes hold
      exact ⟨md,hmd,hbytes,hbrought.mono (List.subset_append_right _ _)⟩

/-- As long as no read is refused, the members on messages keep up. -/
theorem Mirrors.run (h : R.Mirrors c c') {evs : List (ι × Op × List UInt8)}
    (haccept : ∀ ev ∈ evs, Accepted ctx partly ev.2.2) :
    ∃ evs', evs'.Sublist (evs.map fun ev => (ev.1,ev.2.1)) ∧
      R.Mirrors ((R.wire ctx partly).run c evs) (R.network.run c' evs') := by
  refine Network.refines Prod.fst (fun ev => Accepted ctx partly ev.2) R.Mirrors ?_ h haccept
  intro c c' i ev hok hrel hd
  obtain ⟨harrives,hfits⟩ := hrel.reads hok hd
  exact ⟨harrives,hrel.act i hfits⟩

/-- As long as no read is refused, whatever the cluster on the wire does, the cluster on
messages can do, and only messages of the gen functions are ever on the wire. -/
theorem wire_refines (R : Roster ι) (ctx : Wire.Context) (partly : List UInt8 → MessageData)
    (evs : List (ι × Op × List UInt8)) (haccept : ∀ ev ∈ evs, Accepted ctx partly ev.2.2) :
    let c := (R.wire ctx partly).run R.wireStart evs
    (∃ evs', evs'.Sublist (evs.map fun ev => (ev.1,ev.2.1)) ∧ (R.run evs').node = c.node) ∧
      ∀ bytes ∈ c.sent, ∃ md : MessageData, md.Generated ∧ bytes = md.serialize := by
  intro c
  obtain ⟨evs',hsub,hrel⟩ := start_mirrors.run haccept
  refine ⟨⟨evs',hsub,hrel.node.symm⟩,fun bytes hbytes => ?_⟩
  obtain ⟨md,hmd,hbytes,-⟩ := hrel.sent bytes hbytes
  exact ⟨md,hmd,hbytes⟩

/-- `b` writes its state and `a` reads it. -/
def greeting : List (Bool × Op × List UInt8) :=
  [(false,.sendState true,[]),
    (true,.merge ⟨"b","10.0.0.2",6666,1,.stateAlive⟩ ⟨0,0,0,0,[],[]⟩,
      [8,4,50,22,8,1,18,18,10,1,98,18,8,49,48,46,48,46,48,46,50,24,138,52,32,1])]

theorem wire_refines_greeting :
    let c := (pair.wire .strict fun _ => .default).run pair.wireStart greeting
    ((c.node true).member.find "b").isSome = true ∧
      (∃ evs', evs'.Sublist (greeting.map fun ev => (ev.1,ev.2.1)) ∧
        (pair.run evs').node = c.node) ∧
      ∀ bytes ∈ c.sent, ∃ md : MessageData, md.Generated ∧ bytes = md.serialize := by
  have haccept : ∀ ev ∈ greeting, Accepted .strict (fun _ => .default) ev.2.2 := by
    intro ev hev
    rcases List.mem_pair.mp hev with rfl | rfl
    · show (decodeReceiveTCP (generatedParser .strict fun _ => .default) []).parsed = true
      decide +kernel
    · show (decodeReceiveTCP (generatedParser .strict fun _ => .default)
        [8,4,50,22,8,1,18,18,10,1,98,18,8,49,48,46,48,46,48,46,50,24,138,52,32,1]).parsed = true
      decide +kernel
  exact ⟨by decide +kernel,wire_refines pair .strict (fun _ => .default) greeting haccept⟩

end Roster

end GossipMemberlist
