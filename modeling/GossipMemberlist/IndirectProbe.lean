import GossipMemberlist.Dispatch

/-!
# The indirect probe

A probe that gets no direct ack asks other members to ping its target for it. The
exchange uses a sequence number of the originator and one of the relay, a handler
table on either side, and the address of the target built twice: by `FullAddr` for
the direct ping, and by the relay from the two fields of the request.
-/

namespace GossipMemberlist

namespace Endpoint

/-- How `probeNode` begins: a sequence number and the handler registered under it. -/
def startProbe (ackPipe nackPipe : ℤ) (s : Endpoint) : Endpoint × ℕ :=
  let (s,seqNo) := s.nextSeqNum
  (s.setProbePipes seqNo ackPipe nackPipe,seqNo)

def directPing (cfg : Config) (seqNo : ℕ) (node : Node) : Option Action :=
  node.fullAddr.map fun addr =>
    .sendUDP addr (genPing seqNo node.name cfg.advertiseAddr cfg.advertisePort.toNat cfg.name)

def indirectPingFor (cfg : Config) (seqNo : ℕ) (node : Node) : MessageData :=
  genIndirectPing seqNo node.name node.addr node.port.toNat true cfg.advertiseAddr
    cfg.advertisePort.toNat cfg.name

/-- The relay's ping goes where the direct one goes. When the target answers it and the relay
still has the handler of the request, the relay sends an ack back to `addr`, and the originator
takes that ack for this probe if the probe is still registered. -/
def ProbesThrough (cfg cfgRelay : Config) (node : Node) (pipes cancelFd : ℤ × ℤ)
    (addr : SockaddrIn) (originator relay : Endpoint) : Prop :=
  let (probing,seqNo) := originator.startProbe pipes.1 pipes.2
  let request := (indirectPingFor cfg seqNo node).indirectPing
  let (waiting,sent) := relay.handleIndirectPing cfgRelay cancelFd request addr
  let localSeqNo := relay.nextSeqNum.2
  ∃ dst direct ping, directPing cfg seqNo node = some (.sendUDP dst direct) ∧
    .sendUDP dst ping ∈ sent ∧
    ∀ (target relay' originator' : Endpoint) (relayAddr : SockaddrIn) (ts ts' : ℤ),
      relay'.ackHandlers localSeqNo = waiting.ackHandlers localSeqNo →
      originator'.ackHandlers seqNo = probing.ackHandlers seqNo →
      ∃ answer, (target.handlePing ping.ping relayAddr).2 = [.sendUDP relayAddr answer] ∧
        .sendUDP addr (genAckResp seqNo) ∈ (relay'.handleAck answer.ackResp ts).2 ∧
        originator'.handleAck (genAckResp seqNo).ackResp ts' =
          (originator'.eraseHandler seqNo,[.writeAck pipes.1 ⟨true,ts'⟩])

theorem ackHandlers_addHandler (seqNo : ℕ) (ah : AckHandler) (s : Endpoint) :
    (s.addHandler seqNo ah).ackHandlers seqNo = some ah := Function.update_self _ _ _

theorem handleAck_of_handler {s : Endpoint} {ack : AckResp} {ah : AckHandler}
    (h : s.ackHandlers ack.seqNo = some ah) (ts : ℤ) :
    s.handleAck ack ts = (s.eraseHandler ack.seqNo,ah.ackFn.call ts) := by
  simp only [handleAck,h]

theorem handlePing_answer (ping : Ping) (from_ : SockaddrIn) (s : Endpoint) :
    (s.handlePing ping from_).2 = [.sendUDP from_ (genAckResp ping.seqNo)] := rfl

theorem handleIndirectPing_eq (cfg : Config) (cancelFd : ℤ × ℤ) (request : IndirectPing)
    (addr : SockaddrIn) (s : Endpoint) :
    let localSeqNo := s.nextSeqNum.2
    let r := s.handleIndirectPing cfg cancelFd request addr
    r.1.ackHandlers localSeqNo = some ⟨.relay cancelFd.2 addr request,none⟩ ∧
      (∀ dst md, .sendUDP dst md ∈ r.2 ↔ dst = targetAddr request ∧
        md = genPing localSeqNo request.node cfg.advertiseAddr cfg.advertisePort.toNat
          cfg.name) := by
  refine ⟨ackHandlers_addHandler _ _ _,fun dst md => ?_⟩
  cases hnack : request.nack <;> simp [handleIndirectPing,nextSeqNum,hnack]

/-- The relay rebuilds the address of the target exactly when the bytes of the port are equal. -/
theorem targetAddr_eq_iff (cfg : Config) (seqNo : ℕ) {node : Node} {addr : SockaddrIn}
    (h : node.fullAddr = some addr) :
    targetAddr (indirectPingFor cfg seqNo node).indirectPing = addr ↔
      node.port.toNat % 256 = node.port.toNat / 256 := by
  obtain ⟨sinAddr,hsin,rfl⟩ := Option.map_eq_some_iff.mp h
  have hport : UInt16.ofNat node.port.toNat = node.port := UInt16.ofNat_toNat
  show (⟨UInt16.ofNat node.port.toNat,(inetPton node.addr).getD ⟨0,0,0,0⟩⟩ : SockaddrIn) =
    ⟨htons node.port,sinAddr⟩ ↔ _
  rw [hport,hsin,← htons_eq_iff]
  simp [eq_comm]

theorem ports_of_probesThrough {cfg cfgRelay : Config} {node : Node} {pipes cancelFd : ℤ × ℤ}
    {addr : SockaddrIn} {originator relay : Endpoint}
    (h : ProbesThrough cfg cfgRelay node pipes cancelFd addr originator relay) :
    node.port.toNat % 256 = node.port.toNat / 256 := by
  obtain ⟨dst,direct,ping,hdirect,hping,_⟩ := h
  let seqNo := (originator.startProbe pipes.1 pipes.2).2
  let request := (indirectPingFor cfg seqNo node).indirectPing
  have hsent := (handleIndirectPing_eq cfgRelay cancelFd request addr relay).2 dst ping
  obtain ⟨target,htarget,heq⟩ := Option.map_eq_some_iff.mp hdirect
  rw [Action.sendUDP.injEq] at heq
  exact (targetAddr_eq_iff cfg seqNo htarget).mp ((hsent.mp hping).1.symm.trans heq.1.symm)

/-- An indirect probe goes through exactly when the two bytes of the target's port are equal. -/
theorem indirect_probe_iff {node : Node} (h : (inetPton node.addr).isSome) (cfg cfgRelay : Config)
    (pipes cancelFd : ℤ × ℤ) (addr : SockaddrIn) (originator relay : Endpoint) :
    ProbesThrough cfg cfgRelay node pipes cancelFd addr originator relay ↔
      node.port.toNat % 256 = node.port.toNat / 256 := by
  constructor
  · exact ports_of_probesThrough
  · intro hbytes
    obtain ⟨target,htarget⟩ := Option.isSome_iff_exists.mp ((fullAddr_isSome node).trans h)
    let seqNo := (originator.startProbe pipes.1 pipes.2).2
    let request := (indirectPingFor cfg seqNo node).indirectPing
    have hdst : targetAddr request = target := (targetAddr_eq_iff cfg seqNo htarget).mpr hbytes
    obtain ⟨hregistered,hsent⟩ := handleIndirectPing_eq cfgRelay cancelFd request addr relay
    refine ⟨target,_,_,by rw [directPing,htarget]; rfl,(hsent target _).mpr ⟨hdst.symm,rfl⟩,?_⟩
    intro t relay' originator' relayAddr ts ts' hrelay horiginator
    refine ⟨_,handlePing_answer _ _ t,?_,?_⟩
    · have hah := hrelay.trans hregistered
      have hack : relay'.handleAck ⟨relay.nextSeqNum.2⟩ ts =
          (relay'.eraseHandler relay.nextSeqNum.2,AckFn.call ts (.relay cancelFd.2 addr request)) :=
        handleAck_of_handler hah ts
      show _ ∈ (relay'.handleAck ⟨relay.nextSeqNum.2⟩ ts).2
      rw [hack]
      exact List.mem_cons_of_mem _ List.mem_cons_self
    · have hah := horiginator.trans (ackHandlers_addHandler _ _ _)
      show originator'.handleAck ⟨seqNo⟩ ts' = _
      exact handleAck_of_handler hah ts'

/-- A node on a port whose bytes are equal. -/
theorem indirect_probe_iff_6682 :
    let node : Node := ⟨"b","10.0.0.2",6682⟩
    let cfg := defaultLANConfig "a"
    (inetPton node.addr).isSome ∧
      (ProbesThrough cfg cfg node (3,4) (5,6) ⟨0,⟨10,0,0,1⟩⟩ (new cfg 0) (new cfg 0) ↔
        node.port.toNat % 256 = node.port.toNat / 256) := by
  intro node cfg
  have hvalid : (inetPton node.addr).isSome := by decide +kernel
  exact ⟨hvalid,
    indirect_probe_iff hvalid cfg cfg (3,4) (5,6) ⟨0,⟨10,0,0,1⟩⟩ (new cfg 0) (new cfg 0)⟩

/-- On the default port the relay pings another port. -/
theorem default_port_missed :
    ¬∀ (node : Node), (inetPton node.addr).isSome →
      ∀ (cfg cfgRelay : Config) (pipes cancelFd : ℤ × ℤ) (addr : SockaddrIn)
      (originator relay : Endpoint),
      ProbesThrough cfg cfgRelay node pipes cancelFd addr originator relay := by
  intro hall
  let node : Node := ⟨"b","10.0.0.2",6666⟩
  let cfg := defaultLANConfig "a"
  have hvalid : (inetPton node.addr).isSome := by decide +kernel
  have hthrough := hall node hvalid cfg cfg (3,4) (5,6) ⟨0,⟨10,0,0,1⟩⟩ (new cfg 0) (new cfg 0)
  exact absurd (ports_of_probesThrough hthrough) (by decide)

end Endpoint

end GossipMemberlist
