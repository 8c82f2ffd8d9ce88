import GossipMemberlist.MessageBytes
import Mathlib.Data.List.TakeWhile

/-!
# One message over a socket

The sender hands the encoding and its length to the socket. The receiver reads at
most 1024 bytes into a buffer of 1024, writes a zero behind them and gives the
buffer to the parser as a C string, so that a long message loses its end and
writes outside the buffer, and any message ends at its first zero byte.
-/

namespace GossipMemberlist

/-- `ParseFromString`: its answer and what the message holds afterwards. -/
abbrev Parser := List UInt8 → Bool × MessageData

/-- It reads back what `SerializeAsString` writes. -/
def Parser.Inverts (parse : Parser) : Prop := ∀ md, md.Generated → parse md.serialize = (true,md)

/-- `char buf[1024]` -/
def bufSize : ℕ := 1024

structure Received where
  md : MessageData
  parsed : Bool
  /-- The last index of the buffer that is written. -/
  lastIndex : ℕ

/-- The string that the parser sees: the buffer up to its first zero. -/
def received (bytes : List UInt8) : List UInt8 :=
  (bytes.take bufSize ++ [0]).takeWhile (· ≠ 0)

/-- `Recvfrom` or `Read` fills `buf`, then `buf[n] = 0`. A refusal is printed only. -/
def decodeReceive (parse : Parser) (bytes : List UInt8) : Received :=
  let n := (bytes.take bufSize).length
  let r := parse (received bytes)
  ⟨r.2,r.1,n⟩

def decodeReceiveUDP (parse : Parser) (datagram : List UInt8) : Received :=
  decodeReceive parse datagram

def decodeReceiveTCP (parse : Parser) (available : List UInt8) : Received :=
  decodeReceive parse available

def beforeSend (md : MessageData) : List UInt8 := md.serialize

def encodeSendUDP (md : MessageData) : List UInt8 := beforeSend md

def encodeSendTCP (md : MessageData) : List UInt8 := beforeSend md

/-- The message has arrived and every access was inside the buffer. -/
def Received.Faithful (r : Received) (md : MessageData) : Prop :=
  r.md = md ∧ r.lastIndex < bufSize

theorem received_eq_self {bytes : List UInt8} (hlen : bytes.length < bufSize) (hzero : 0 ∉ bytes) :
    received bytes = bytes := by
  have hne : ∀ b ∈ bytes, decide (b ≠ 0) = true := fun b hb =>
    decide_eq_true fun h0 => hzero (h0 ▸ hb)
  rw [received,List.take_of_length_le (Nat.le_of_lt hlen),List.takeWhile_append_of_pos hne]
  exact List.append_nil bytes

theorem zero_not_mem_received (bytes : List UInt8) : 0 ∉ received bytes := by
  intro h
  have hpos := List.mem_takeWhile_imp (p := fun b : UInt8 => decide (b ≠ 0)) h
  exact absurd hpos (by decide)

/-- The parser of the wire format. -/
def wireParse : Parser := fun bytes =>
  ((Wire.decode bytes).2,MessageData.ofFields (Wire.decode bytes).1)

theorem wireParse_inverts : wireParse.Inverts := by
  intro md h
  have hdecode : Wire.decode md.serialize = (md.fields,true) := Wire.decode_encode md.fields
  rw [wireParse,hdecode,(MessageData.regular_of_generated h).ofFields_fields]

instance : Nontrivial MessageData := ⟨.default,genUser "",by decide⟩

/-- On a string that is not the encoding of a message, no parser has to answer that message. -/
theorem exists_parse {bytes : List UInt8} {md : MessageData} (hne : bytes ≠ md.serialize) :
    ∃ parse : Parser, parse.Inverts ∧ (parse bytes).2 ≠ md := by
  by_cases hbytes : ∃ md' : MessageData, md'.Generated ∧ md'.serialize = bytes
  · obtain ⟨md',hmd',rfl⟩ := hbytes
    refine ⟨wireParse,wireParse_inverts,?_⟩
    rw [wireParse_inverts md' hmd']
    rintro rfl
    exact hne rfl
  · obtain ⟨other,hother⟩ := exists_ne md
    refine ⟨fun bs => if bs = bytes then (false,other) else wireParse bs,?_,?_⟩
    · intro md' hmd'
      have hmiss : md'.serialize ≠ bytes := fun heq => hbytes ⟨md',hmd',heq⟩
      simp only [if_neg hmiss]
      exact wireParse_inverts md' hmd'
    · simpa using hother

theorem lastIndex_lt_iff (parse : Parser) (bytes : List UInt8) :
    (decodeReceive parse bytes).lastIndex < bufSize ↔ bytes.length < bufSize := by
  show (bytes.take bufSize).length < bufSize ↔ bytes.length < bufSize
  rw [List.length_take]
  omega

/-- A generated message survives every parser that inverts the encoding if and only if it is
shorter than the buffer and its bytes hold no zero. -/
theorem transport_round_trip {md : MessageData} (h : md.Generated) :
    (∀ parse : Parser, parse.Inverts →
      (decodeReceiveUDP parse (encodeSendUDP md)).Faithful md ∧
        (decodeReceiveTCP parse (encodeSendTCP md)).Faithful md) ↔
      md.byteSizeLong < bufSize ∧ md.body.CSafe := by
  rw [← MessageData.serialize_length h,← MessageData.zeroFree_iff h]
  constructor
  · intro hall
    refine ⟨?_,fun hzero => ?_⟩
    · have hindex := (hall wireParse wireParse_inverts).1.2
      exact (lastIndex_lt_iff wireParse md.serialize).mp hindex
    · have hcut : received md.serialize ≠ md.serialize := by
        intro heq
        have hrest := zero_not_mem_received md.serialize
        rw [heq] at hrest
        exact hrest hzero
      obtain ⟨parse,hinverts,hother⟩ := exists_parse hcut
      exact hother (hall parse hinverts).1.1
  · rintro ⟨hlen,hzero⟩ parse hinverts
    have hself : received md.serialize = md.serialize := received_eq_self hlen hzero
    have hfaithful : (decodeReceive parse md.serialize).Faithful md := by
      refine ⟨?_,(lastIndex_lt_iff parse md.serialize).mpr hlen⟩
      rw [decodeReceive,hself,hinverts md h]
    exact ⟨hfaithful,hfaithful⟩

theorem transport_round_trip_ack :
    (∀ parse : Parser, parse.Inverts →
      (decodeReceiveUDP parse (encodeSendUDP (genAckResp 7))).Faithful (genAckResp 7) ∧
        (decodeReceiveTCP parse (encodeSendTCP (genAckResp 7))).Faithful (genAckResp 7)) ↔
      (genAckResp 7).byteSizeLong < bufSize ∧ (genAckResp 7).body.CSafe :=
  transport_round_trip (.ackResp (show 7 < 2 ^ 32 by decide))

/-- A user message of 1100 characters: the terminator goes to index 1024. -/
theorem long_message_overruns :
    ¬∀ md : MessageData, md.Generated → ∀ parse : Parser, parse.Inverts →
      (decodeReceiveUDP parse (encodeSendUDP md)).Faithful md ∧
        (decodeReceiveTCP parse (encodeSendTCP md)).Faithful md := by
  intro hall
  let md := genUser (String.ofList (List.replicate 1100 'a'))
  have hmd : md.Generated := .user _
  have hindex := (hall md hmd wireParse wireParse_inverts).1.2
  have hlen := (lastIndex_lt_iff wireParse md.serialize).mp hindex
  rw [MessageData.serialize_length hmd] at hlen
  exact absurd hlen (by decide +kernel)

end GossipMemberlist
