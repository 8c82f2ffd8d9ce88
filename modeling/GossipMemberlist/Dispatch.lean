import GossipMemberlist.Handoff
import GossipMemberlist.Member
import GossipMemberlist.Transport

/-!
# Dispatch of what arrives

The two places where the member takes a message from the network: the listener
thread, one UDP datagram after the other, and `handleConn` for one TCP connection.
Neither asks whether the message was parsed: the answer of the parser is printed
by the decoder and then forgotten.
-/

namespace GossipMemberlist

/-- What an ack calls: the closure of `setProbePipes` or that of `handleIndirectPing`. -/
inductive AckFn
  | probe (ackPipe : ℤ)
  | relay (cancelFd : ℤ) (remoteAddr : SockaddrIn) (indirectPing : IndirectPing)
  deriving DecidableEq

structure AckHandler where
  ackFn : AckFn
  /-- The pipe that the callback on a nack writes to, where there is such a callback. -/
  nackFn : Option ℤ
  deriving DecidableEq

structure AckMessage where
  complete : Bool
  timestamp : ℤ
  deriving DecidableEq

inductive Action
  | sendUDP (dst : SockaddrIn) (md : MessageData)
  | sendTCP (md : MessageData)
  | writeAck (fd : ℤ) (msg : AckMessage)
  | writeNack (fd : ℤ)
  | close (fd : ℤ)
  | nackThread (cancelFd : ℤ) (remoteAddr : SockaddrIn) (seqNo localSeqNo : ℕ)
  deriving DecidableEq

def Action.Sends : Action → Prop
  | .sendUDP _ _ => True
  | .sendTCP _ => True
  | _ => False

def AckFn.call (ts : ℤ) : AckFn → List Action
  | .probe ackPipe => [.writeAck ackPipe ⟨true,ts⟩]
  | .relay cancelFd remoteAddr indirectPing =>
    [.close cancelFd,.sendUDP remoteAddr (genAckResp indirectPing.seqNo)]

namespace Handoff

/-- A call of `handleComBroadcast` that runs until it returns or blocks. -/
def handleComBroadcast (capacity depth : ℕ) (bs : List Broadcast) (from_ : SockaddrIn)
    (s : Handoff) : Handoff :=
  Transitions.run (step capacity depth) s
    (.lock bs from_::List.replicate (2 * bs.length + 1) .produce)

end Handoff

structure Endpoint where
  member : Member
  handoff : Handoff
  sequenceNum : WrapCounter 32
  ackHandlers : ℕ → Option AckHandler

namespace Endpoint

def nextSeqNum (s : Endpoint) : Endpoint × ℕ :=
  let sequenceNum := s.sequenceNum.fetchAdd 1
  ({ s with sequenceNum },sequenceNum.load)

def addHandler (seqNo : ℕ) (ah : AckHandler) (s : Endpoint) : Endpoint :=
  { s with ackHandlers := Function.update s.ackHandlers seqNo (some ah) }

def eraseHandler (seqNo : ℕ) (s : Endpoint) : Endpoint :=
  { s with ackHandlers := Function.update s.ackHandlers seqNo none }

def setProbePipes (seqNo : ℕ) (ackPipe nackPipe : ℤ) (s : Endpoint) : Endpoint :=
  s.addHandler seqNo ⟨.probe ackPipe,some nackPipe⟩

def setAckHandler (seqNo : ℕ) (ackFn : AckFn) (s : Endpoint) : Endpoint :=
  s.addHandler seqNo ⟨ackFn,none⟩

/-- An action is an attempted send: where the kernel refuses it, it throws. -/
def handlePing (ping : Ping) (remoteAddr : SockaddrIn) (s : Endpoint) : Endpoint × List Action :=
  (s,[.sendUDP remoteAddr (genAckResp ping.seqNo)])

/-- Where a relay sends its ping. `sin_port` gets the number as it is, and an address
that does not parse leaves the zeros of `bzero`. -/
def targetAddr (indirectPing : IndirectPing) : SockaddrIn :=
  ⟨UInt16.ofNat indirectPing.targetPort,(inetPton indirectPing.targetAddr).getD ⟨0,0,0,0⟩⟩

/-- `cancelFd` holds the two ends of the pipe that the call opens. The thread starts only
if the send before it does not throw. -/
def handleIndirectPing (cfg : Config) (cancelFd : ℤ × ℤ) (indirectPing : IndirectPing)
    (remoteAddr : SockaddrIn) (s : Endpoint) : Endpoint × List Action :=
  let (s,localSeqNo) := s.nextSeqNum
  let ping := genPing localSeqNo indirectPing.node cfg.advertiseAddr cfg.advertisePort.toNat
    cfg.name
  let s := s.setAckHandler localSeqNo (.relay cancelFd.2 remoteAddr indirectPing)
  (s,.sendUDP (targetAddr indirectPing) ping::
    if indirectPing.nack then [.nackThread cancelFd.1 remoteAddr indirectPing.seqNo localSeqNo]
    else [])

def handleAck (ack : AckResp) (ts : ℤ) (s : Endpoint) : Endpoint × List Action :=
  match s.ackHandlers ack.seqNo with
  | none => (s,[])
  | some ah => (s.eraseHandler ack.seqNo,ah.ackFn.call ts)

def handleNack (nack : NackResp) (s : Endpoint) : Endpoint × List Action :=
  match (s.ackHandlers nack.seqNo).bind (·.nackFn) with
  | none => (s,[])
  | some nackPipe => (s,[.writeNack nackPipe])

def handleUser (_user : User) (s : Endpoint) : Endpoint × List Action := (s,[])

def handleComBroadcast (capacity depth : ℕ) (comBroadcast : ComBroadcast) (remoteAddr : SockaddrIn)
    (s : Endpoint) : Endpoint × List Action :=
  ({ s with handoff := s.handoff.handleComBroadcast capacity depth comBroadcast.bs remoteAddr },[])

/-- One datagram, whose fields are read whether it was parsed or not. -/
def handleCommand (cfg : Config) (capacity depth : ℕ) (cancelFd : ℤ × ℤ) (ts : ℤ)
    (md : MessageData) (remoteAddr : SockaddrIn) (s : Endpoint) : Endpoint × List Action :=
  match md.head with
  | .pingMsg => s.handlePing md.ping remoteAddr
  | .indirectPingMsg => s.handleIndirectPing cfg cancelFd md.indirectPing remoteAddr
  | .ackRespMsg => s.handleAck md.ackResp ts
  | .nackRespMsg => s.handleNack md.nackResp
  | .userMsg => s.handleUser md.user
  | .compoundBroad => s.handleComBroadcast capacity depth md.comBroadcast remoteAddr
  | .pushPullMsg | .errMsg | .unrecognized _ => (s,[])

/-- A turn of the listener's loop; `none` while it is still in the call for the last one. -/
def packetListen (cfg : Config) (capacity depth : ℕ) (parse : Parser) (cancelFd : ℤ × ℤ) (ts : ℤ)
    (datagram : List UInt8) (remoteAddr : SockaddrIn) (s : Endpoint) :
    Option (Endpoint × List Action) :=
  if s.handoff.holder.isSome then none
  else some (s.handleCommand cfg capacity depth cancelFd ts
    (decodeReceiveUDP parse datagram).md remoteAddr)

def handlePingTCP (ping : Ping) (s : Endpoint) : Endpoint × List Action :=
  (s,[.sendTCP (genAckResp ping.seqNo)])

/-- The state is sent as it is before the merge. Both need `nodeMutex`. -/
def handlePushPull (cfg : Config) (fl : Floats) (env : ℕ → Env) (pushpull : PushPull)
    (s : Endpoint) : Endpoint × List Action :=
  if s.member.deadlocked then (s,[])
  else
    let state := s.member.sendLocalState pushpull.join
    ({ s with member := s.member.mergeRemoteState cfg fl env pushpull },
      [.sendTCP (state.states.foldl addPushNodeState (genPushPull state.join))])

def handleConn (cfg : Config) (fl : Floats) (parse : Parser) (env : ℕ → Env)
    (available : List UInt8) (s : Endpoint) : Endpoint × List Action :=
  let md := (decodeReceiveTCP parse available).md
  match md.head with
  | .pushPullMsg => s.handlePushPull cfg fl env md.pushPull
  | .pingMsg => s.handlePingTCP md.ping
  | .userMsg => s.handleUser md.user
  | _ => (s,[])

end Endpoint

namespace Handoff

def Drops (depth : ℕ) (s : Handoff) (bc : Broadcast) : Prop :=
  if bc.type = .aliveMsg then depth ≤ s.high.length else depth ≤ s.low.length

variable {capacity depth : ℕ} {s : Handoff}

def inCall (bs : List Broadcast) (from_ : SockaddrIn) (s : Handoff) : Handoff :=
  { s with holder := some ⟨bs,from_,false⟩ }

theorem step_produce_idle (h : s.holder = none) : s.step capacity depth .produce = s := by
  simp [step,produce,h]

theorem step_produce_nil (from_ : SockaddrIn) (h : s.holder = none) :
    (s.inCall [] from_).step capacity depth .produce = s := by
  cases s
  cases h
  rfl

theorem step_produce_cons (bc : Broadcast) (bs : List Broadcast) (from_ : SockaddrIn) :
    (s.inCall (bc::bs) from_).step capacity depth .produce = s.offer depth bc from_ bs :=
  rfl

theorem offer_of_drops {bc : Broadcast} (h : s.Drops depth bc) (from_ : SockaddrIn)
    (rest : List Broadcast) : s.offer depth bc from_ rest = s.inCall rest from_ := by
  unfold Drops at h
  unfold offer inCall
  split at h <;> simp_all

def waiting (s : Handoff) : ℕ := s.high.length + s.low.length

theorem waiting_offer {bc : Broadcast} (h : ¬s.Drops depth bc) (from_ : SockaddrIn)
    (rest : List Broadcast) : (s.offer depth bc from_ rest).waiting = s.waiting + 1 := by
  rcases offer_cases depth bc from_ rest s with ⟨_,_,heq⟩ | ⟨_,_,heq⟩ | ⟨hdrop,_⟩
  · rw [heq]
    show s.high.length + 1 + s.low.length = s.high.length + s.low.length + 1
    omega
  · rw [heq]
    rfl
  · exact absurd hdrop h

theorem waiting_le_offer (bc : Broadcast) (from_ : SockaddrIn) (rest : List Broadcast) :
    s.waiting ≤ (s.offer depth bc from_ rest).waiting := by
  by_cases h : s.Drops depth bc
  · rw [offer_of_drops h]
    rfl
  · rw [waiting_offer h]
    omega

theorem waiting_le_step (s : Handoff) : s.waiting ≤ (s.step capacity depth .produce).waiting := by
  unfold step
  cases hp : s.produce capacity depth with
  | none => rfl
  | some s' =>
    rcases produce_cases hp with ⟨_,_,_,_,rfl⟩ | ⟨_,_,rfl⟩ | ⟨bc,rest,from_,_,rfl⟩
    · rfl
    · rfl
    · exact waiting_le_offer bc from_ rest

theorem waiting_le_run (capacity depth n : ℕ) (s : Handoff) :
    s.waiting ≤ (Transitions.run (step capacity depth) s (List.replicate n .produce)).waiting := by
  induction n generalizing s with
  | zero => rfl
  | succ n ih => exact (waiting_le_step s).trans (ih _)

theorem run_produce_idle (n : ℕ) (h : s.holder = none) :
    Transitions.run (step capacity depth) s (List.replicate n .produce) = s := by
  induction n with
  | zero => rfl
  | succ n ih =>
    rw [List.replicate_succ,Transitions.run_cons,step_produce_idle h,ih]

theorem run_dropped {bs : List Broadcast} {n : ℕ} (from_ : SockaddrIn) (hn : bs.length < n)
    (h : ∀ bc ∈ bs, s.Drops depth bc) (hidle : s.holder = none) :
    Transitions.run (step capacity depth) (s.inCall bs from_) (List.replicate n .produce) = s := by
  induction bs generalizing n with
  | nil =>
    obtain ⟨n,rfl⟩ : ∃ k, n = k + 1 := ⟨n - 1,by simp at hn; omega⟩
    rw [List.replicate_succ,Transitions.run_cons,step_produce_nil from_ hidle]
    exact run_produce_idle n hidle
  | cons bc bs ih =>
    obtain ⟨n,rfl⟩ : ∃ k, n = k + 1 := ⟨n - 1,by simp at hn; omega⟩
    have hdrop := h bc List.mem_cons_self
    rw [List.replicate_succ,Transitions.run_cons,step_produce_cons,offer_of_drops hdrop]
    exact ih (by simpa using hn) fun b hb => h b (List.mem_cons_of_mem bc hb)

theorem run_accepted {bs : List Broadcast} {n : ℕ} (capacity : ℕ) (from_ : SockaddrIn)
    (hn : bs.length < n)
    (h : ¬∀ bc ∈ bs, s.Drops depth bc) : s.waiting <
      (Transitions.run (step capacity depth) (s.inCall bs from_)
        (List.replicate n .produce)).waiting := by
  induction bs generalizing n with
  | nil => exact absurd (by simp) h
  | cons bc bs ih =>
    obtain ⟨n,rfl⟩ : ∃ k, n = k + 1 := ⟨n - 1,by simp at hn; omega⟩
    rw [List.replicate_succ,Transitions.run_cons,step_produce_cons]
    by_cases hdrop : s.Drops depth bc
    · rw [offer_of_drops hdrop]
      exact ih (by simpa using hn) fun hall => h (List.forall_mem_cons.mpr ⟨hdrop,hall⟩)
    · have hoffer := waiting_offer hdrop from_ bs
      have hrun := waiting_le_run capacity depth n (s.offer depth bc from_ bs)
      omega

theorem handleComBroadcast_run {bs : List Broadcast} {from_ : SockaddrIn}
    (hidle : s.holder = none) :
    s.handleComBroadcast capacity depth bs from_ = Transitions.run (step capacity depth)
      (s.inCall bs from_) (List.replicate (2 * bs.length + 1) .produce) := by
  have hlock : s.step capacity depth (.lock bs from_) = s.inCall bs from_ := by
    simp [step,lock,hidle,inCall]
  rw [handleComBroadcast,Transitions.run_cons,hlock]

theorem handleComBroadcast_stacks {bs : List Broadcast} (capacity : ℕ) (from_ : SockaddrIn)
    (hidle : s.holder = none) :
    ((s.handleComBroadcast capacity depth bs from_).high = s.high ∧
      (s.handleComBroadcast capacity depth bs from_).low = s.low) ↔
        ∀ bc ∈ bs, s.Drops depth bc := by
  rw [handleComBroadcast_run hidle]
  constructor
  · rintro ⟨hhigh,hlow⟩
    by_contra hall
    have hlong : bs.length < 2 * bs.length + 1 := by omega
    have hlt := run_accepted capacity from_ hlong hall
    rw [waiting,waiting,hhigh,hlow] at hlt
    exact Nat.lt_irrefl _ hlt
  · intro hall
    rw [run_dropped from_ (by omega) hall hidle]
    exact ⟨rfl,rfl⟩

end Handoff

namespace Endpoint

/-- The parts of the member that an input may change, before and after it, and what it sent. -/
structure Untouched (s : Endpoint) (r : Endpoint × List Action) : Prop where
  table : r.1.member.table = s.member.table
  nodeTimers : r.1.member.nodeTimers = s.member.nodeTimers
  queue : r.1.member.queue = s.member.queue
  handoff : r.1.handoff.high = s.handoff.high ∧ r.1.handoff.low = s.handoff.low
  ackHandlers : r.1.ackHandlers = s.ackHandlers
  sequenceNum : r.1.sequenceNum.load = s.sequenceNum.load
  silent : ∀ e ∈ r.2, ¬Action.Sends e

/-- The messages that a listener takes without a trace. -/
def IgnoresDatagram (depth : ℕ) (s : Endpoint) (md : MessageData) : Prop :=
  match md.head with
  | .pingMsg | .indirectPingMsg => False
  | .ackRespMsg => s.ackHandlers md.ackResp.seqNo = none
  | .compoundBroad => ∀ bc ∈ md.comBroadcast.bs, s.handoff.Drops depth bc
  | .nackRespMsg | .userMsg | .pushPullMsg | .errMsg | .unrecognized _ => True

def IgnoresConn (s : Endpoint) (md : MessageData) : Prop :=
  match md.head with
  | .pingMsg => False
  | .pushPullMsg => s.member.deadlocked = true
  | _ => True

variable {cfg : Config} {fl : Floats} {capacity depth : ℕ} {s : Endpoint}

theorem untouched_refl (s : Endpoint) : s.Untouched (s,[]) :=
  ⟨rfl,rfl,rfl,⟨rfl,rfl⟩,rfl,rfl,by simp⟩

theorem handleAck_untouched {ack : AckResp} {ts : ℤ} :
    s.Untouched (s.handleAck ack ts) ↔ s.ackHandlers ack.seqNo = none := by
  cases h : s.ackHandlers ack.seqNo with
  | none => simpa [handleAck,h] using s.untouched_refl
  | some ah =>
    refine iff_of_false (fun hu => ?_) (by simp)
    have heq := congrFun hu.ackHandlers ack.seqNo
    simp [handleAck,h,eraseHandler] at heq

theorem handleNack_untouched (nack : NackResp) : s.Untouched (s.handleNack nack) := by
  unfold handleNack
  split
  · exact s.untouched_refl
  · exact ⟨rfl,rfl,rfl,⟨rfl,rfl⟩,rfl,rfl,by simp [Action.Sends]⟩

theorem handleComBroadcast_untouched {c : ComBroadcast} {remoteAddr : SockaddrIn}
    (hidle : s.handoff.holder = none) :
    s.Untouched (s.handleComBroadcast capacity depth c remoteAddr) ↔
      ∀ bc ∈ c.bs, s.handoff.Drops depth bc := by
  rw [← Handoff.handleComBroadcast_stacks capacity remoteAddr hidle]
  exact ⟨fun hu => hu.handoff,fun h => ⟨rfl,rfl,rfl,h,rfl,rfl,by simp [handleComBroadcast]⟩⟩

theorem not_untouched_of_send {r : Endpoint × List Action} {e : Action} (he : e ∈ r.2)
    (hsend : Action.Sends e) : ¬s.Untouched r := fun hu => hu.silent e he hsend

theorem handleCommand_untouched (hidle : s.handoff.holder = none) (cfg : Config)
    (capacity : ℕ) (cancelFd : ℤ × ℤ) (ts : ℤ) (md : MessageData) (remoteAddr : SockaddrIn) :
    s.Untouched (s.handleCommand cfg capacity depth cancelFd ts md remoteAddr) ↔
      s.IgnoresDatagram depth md := by
  obtain ⟨head,body⟩ := md
  cases head with
  | pingMsg => exact iff_of_false (not_untouched_of_send List.mem_cons_self trivial) id
  | indirectPingMsg => exact iff_of_false (not_untouched_of_send List.mem_cons_self trivial) id
  | ackRespMsg => exact handleAck_untouched
  | nackRespMsg => exact iff_of_true (handleNack_untouched _) trivial
  | compoundBroad => exact handleComBroadcast_untouched hidle
  | _ => exact iff_of_true s.untouched_refl trivial

theorem handlePushPull_untouched (env : ℕ → Env) (pushpull : PushPull) :
    s.Untouched (s.handlePushPull cfg fl env pushpull) ↔ s.member.deadlocked = true := by
  unfold handlePushPull
  split
  · next hd => exact iff_of_true s.untouched_refl hd
  · next hd => exact iff_of_false (not_untouched_of_send List.mem_cons_self trivial) hd

theorem handleConn_untouched (parse : Parser) (env : ℕ → Env) (available : List UInt8) :
    s.Untouched (s.handleConn cfg fl parse env available) ↔
      s.IgnoresConn (decodeReceiveTCP parse available).md := by
  simp only [handleConn]
  generalize (decodeReceiveTCP parse available).md = md
  obtain ⟨head,body⟩ := md
  cases head with
  | pingMsg => exact iff_of_false (not_untouched_of_send List.mem_cons_self trivial) id
  | pushPullMsg => exact handlePushPull_untouched env _
  | _ => exact iff_of_true s.untouched_refl trivial

/-- An input that the parser refuses leaves no trace exactly when the message that the refused
parse has left behind is one that the dispatch ignores. -/
theorem refused_input_untouched_iff (parse : Parser) (cancelFd : ℤ × ℤ) (ts : ℤ) (env : ℕ → Env)
    (bytes : List UInt8) (remoteAddr : SockaddrIn) :
    (((decodeReceiveUDP parse bytes).parsed = false →
        ∀ r, s.packetListen cfg capacity depth parse cancelFd ts bytes remoteAddr = some r →
          s.Untouched r) ↔
      ((decodeReceiveUDP parse bytes).parsed = false → s.handoff.holder = none →
        s.IgnoresDatagram depth (decodeReceiveUDP parse bytes).md)) ∧
    (((decodeReceiveTCP parse bytes).parsed = false →
        s.Untouched (s.handleConn cfg fl parse env bytes)) ↔
      ((decodeReceiveTCP parse bytes).parsed = false →
        s.IgnoresConn (decodeReceiveTCP parse bytes).md)) := by
  refine ⟨imp_congr_right fun _ => ?_,imp_congr_right fun _ => handleConn_untouched parse env bytes⟩
  cases hidle : s.handoff.holder with
  | some p => simp [packetListen,hidle]
  | none =>
    simpa [packetListen,hidle] using handleCommand_untouched hidle cfg capacity cancelFd ts
      (decodeReceiveUDP parse bytes).md remoteAddr

def new (cfg : Config) (leaveFd : ℤ) : Endpoint :=
  ⟨.newmemberlist cfg leaveFd,.initial,.zero,fun _ => none⟩

/-- A tag without its value is refused and leaves the default message, which is a ping. -/
theorem truncated_tag_acked :
    ¬∀ (cfg : Config) (capacity depth : ℕ) (parse : Parser) (cancelFd : ℤ × ℤ) (ts : ℤ)
      (bytes : List UInt8) (remoteAddr : SockaddrIn) (s : Endpoint),
      (decodeReceiveUDP parse bytes).parsed = false →
        ∀ r, s.packetListen cfg capacity depth parse cancelFd ts bytes remoteAddr = some r →
          s.Untouched r := by
  intro hall
  let cfg := defaultLANConfig "a"
  have hrefused : (decodeReceiveUDP wireParse [8]).parsed = false := by decide +kernel
  have hping : (decodeReceiveUDP wireParse [8]).md = .default := by decide +kernel
  have hlisten : (new cfg 0).packetListen cfg 1 1 wireParse (3,4) 0 [8] ⟨0,⟨10,0,0,2⟩⟩ =
      some (new cfg 0,[.sendUDP ⟨0,⟨10,0,0,2⟩⟩ (genAckResp 0)]) := by
    rw [packetListen,hping]
    rfl
  have huntouched :=
    hall cfg 1 1 wireParse (3,4) 0 [8] ⟨0,⟨10,0,0,2⟩⟩ (new cfg 0) hrefused _ hlisten
  exact huntouched.silent _ List.mem_cons_self trivial

end Endpoint

end GossipMemberlist
