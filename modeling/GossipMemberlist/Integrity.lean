import GossipMemberlist.RoundTrip
import GossipMemberlist.Transport

/-!
# What a socket can do to a message

A read hands the parser a beginning of what was sent: the datagram or the stream up
to its first zero byte, or the 1024 bytes that the buffer has room for. No beginning
of a message is accepted as another message, so a member that is told of a success
holds what was sent to it, or what the sender's head alone says.
-/

namespace GossipMemberlist

open Wire

section Cuts

variable {σ : Type} {ctx : Context}

theorem varint64_cut {f : ℕ → σ} {n : ℕ} {part : List UInt8} (h : part <+: varint n)
    (hne : part ≠ varint n) : (Reader.varint64.map f).read part = none := by
  have hread : Reader.varint64.read part = none := by
    rw [Reader.varint64,Reader.map]
    exact Reader.filterMap_eq_none (Reader.varint_cut h hne) _
  exact Reader.filterMap_eq_none hread _

theorem message_cut {τ : Type} {sub : Switch τ} {t : τ} {f : τ → σ} {bs part : List UInt8}
    (h : part <+: varint bs.length ++ bs) (hne : part ≠ varint bs.length ++ bs) :
    ((message ctx sub t).map f).read part = none :=
  Reader.filterMap_eq_none (Reader.filterMap_eq_none (Reader.bytes_cut h hne) _) _

theorem Body.fields_eq {body : Body} (h : body ≠ .notSet) :
    ∃ k fs, k ≠ 0 ∧ body.fields = messageField k fs := by
  cases body with
  | notSet => exact absurd rfl h
  | _ => exact ⟨_,_,by decide,rfl⟩

theorem Body.one_field (ctx : Context) (head : MessageType) {body : Body} (h : body ≠ .notSet) :
    ∃ k fs R, body.fields = messageField k fs ∧
      Knows (MessageData.switch ctx) ⟨head,.notSet⟩ k 2 R ∧
      ∀ part, part <+: varint (encode fs).length ++ encode fs →
        part ≠ varint (encode fs).length ++ encode fs → R.read part = none := by
  cases body with
  | notSet => exact absurd rfl h
  | ping p => exact ⟨2,_,_,rfl,⟨rfl,by decide,by decide⟩,fun _ => message_cut⟩
  | indirectPing p => exact ⟨3,_,_,rfl,⟨rfl,by decide,by decide⟩,fun _ => message_cut⟩
  | ackResp a => exact ⟨4,_,_,rfl,⟨rfl,by decide,by decide⟩,fun _ => message_cut⟩
  | nackResp n => exact ⟨5,_,_,rfl,⟨rfl,by decide,by decide⟩,fun _ => message_cut⟩
  | pushPull p => exact ⟨6,_,_,rfl,⟨rfl,by decide,by decide⟩,fun _ => message_cut⟩
  | comBroadcast c => exact ⟨7,_,_,rfl,⟨rfl,by decide,by decide⟩,fun _ => message_cut⟩
  | user u => exact ⟨8,_,_,rfl,⟨rfl,by decide,by decide⟩,fun _ => message_cut⟩
  | errResp e => exact ⟨9,_,_,rfl,⟨rfl,by decide,by decide⟩,fun _ => message_cut⟩

end Cuts

def headBytes (md : MessageData) : List UInt8 := encode (uintField 1 md.head.code)

theorem MessageData.serialize_eq (md : MessageData) :
    md.serialize = headBytes md ++ encode md.body.fields := encode_append _ _

theorem head_cut {ctx : Context} {md : MessageData} {cs : List UInt8} (hcs : cs <+: headBytes md)
    (hnil : cs ≠ []) (hne : cs ≠ headBytes md) :
    MessageData.parseFromString ctx cs = none := by
  have hk : Knows (MessageData.switch ctx) .default 1 0
      (Reader.varint64.map fun n => ⟨.ofInt (toInt32 n),.notSet⟩) := ⟨rfl,by decide,by decide⟩
  unfold headBytes uintField at hcs hne
  split at hcs
  · exact absurd (List.prefix_nil.mp hcs) hnil
  · rename_i hcode
    rw [if_neg hcode] at hne
    rw [encode,List.flatMap_singleton] at hcs hne
    exact hk.cut (fun part hpart hother => varint64_cut hpart hother) hcs hnil hne

/-- A beginning of a message that is accepted is all of it, nothing, or its head. -/
theorem parse_begins {ctx : Context} {md md' : MessageData} (h : md.WellFormed)
    (hbody : md.body ≠ .notSet) {cs : List UInt8} (hcs : cs <+: md.serialize)
    (hparse : MessageData.parseFromString ctx cs = some md') :
    cs = md.serialize ∨ cs = [] ∨ cs = headBytes md := by
  obtain ⟨k,fs,R,hfields,hk,hcut⟩ := Body.one_field ctx md.head hbody
  by_contra hno
  rw [not_or,not_or] at hno
  have hnone : MessageData.parseFromString ctx cs = none := by
    rw [md.serialize_eq] at hcs
    obtain ⟨t,ht⟩ := hcs
    rcases List.append_eq_append_iff.mp ht with ⟨more,hhead,_⟩ | ⟨part,rfl,hpart⟩
    · exact head_cut ⟨more,hhead.symm⟩ hno.2.1 hno.2.2
    · have hadv : MessageData.parseFromString ctx (headBytes md ++ part) =
          parse ctx (MessageData.switch ctx) ⟨md.head,.notSet⟩ part :=
        MessageData.advances_head md.head h.head part
      have hnil : part ≠ [] := by
        rintro rfl
        exact hno.2.2 (List.append_nil _)
      have hne : part ≠ encode md.body.fields := by
        rintro rfl
        exact hno.1 md.serialize_eq.symm
      rw [hfields,messageField,encode,List.flatMap_singleton] at hne hpart
      exact hadv.trans (hk.cut hcut ⟨t,hpart.symm⟩ hnil hne)
  rw [hnone] at hparse
  cases hparse

theorem PushNodeStateType.Known.wellFormed {t : PushNodeStateType} (h : t.Known) :
    t.WellFormed := by
  cases t with
  | unrecognized value => cases h
  | _ =>
    rw [PushNodeStateType.WellFormed,toInt32_small (by decide)]
    rfl

theorem Broadcast.Generated.wellFormed {b : Broadcast} (h : b.Generated) : b.WellFormed := by
  have htype : ∀ n : ℕ, (BroadcastType.ofInt (toInt32 n)).WellFormed :=
    BroadcastType.wellFormed_ofInt
  cases h with
  | alive a hi hp => exact ⟨htype 0,hi,hp⟩
  | dead d hi => exact ⟨htype 1,hi⟩
  | suspect s hi => exact ⟨htype 2,hi⟩

namespace MessageData

theorem wellFormed_genComMsg {cbc : ComBroadcast} (h : ∀ b ∈ cbc.bs, b.Generated) :
    (genComMsg cbc).WellFormed :=
  ⟨MessageType.wellFormed_ofInt 5,fun b hb => (h b hb).wellFormed⟩

theorem Generated.wellFormed {md : MessageData} (h : md.Generated) : md.WellFormed := by
  have hhead : ∀ n : ℕ, (MessageType.ofInt (toInt32 n)).WellFormed := MessageType.wellFormed_ofInt
  induction h with
  | ping node sourceAddr sourceNode hn hp => exact ⟨hhead 0,hn,hp⟩
  | indirectPing node targetAddr nack sourceAddr sourceNode hn ht hp => exact ⟨hhead 1,hn,ht,hp⟩
  | ackResp hn => exact ⟨hhead 2,hn⟩
  | nackResp hn => exact ⟨hhead 3,hn⟩
  | errResp error => exact ⟨hhead 7,trivial⟩
  | user msg => exact ⟨hhead 6,trivial⟩
  | comMsg cbc hbs => exact wellFormed_genComMsg hbs
  | suspectMsg s hi =>
    exact wellFormed_genComMsg fun b hb => List.mem_singleton.mp hb ▸ .suspect s hi
  | deadMsg d hi => exact wellFormed_genComMsg fun b hb => List.mem_singleton.mp hb ▸ .dead d hi
  | aliveMsg a hi hp =>
    exact wellFormed_genComMsg fun b hb => List.mem_singleton.mp hb ▸ .alive a hi hp
  | pushPull join => exact ⟨hhead 4,fun s hs => absurd hs List.not_mem_nil⟩
  | addPushNodeState _ hp hi hstate ih =>
    refine ⟨ih.head,fun s hs => ?_⟩
    rcases List.mem_append.mp hs with hold | hnew
    · exact ih.pushPull s hold
    · exact List.mem_singleton.mp hnew ▸ ⟨hp,hi,hstate.wellFormed⟩

theorem Generated.body {md : MessageData} (h : md.Generated) : md.body ≠ .notSet := by
  induction h with
  | _ => intro hbody; cases hbody

end MessageData

theorem received_take (bytes : List UInt8) : received bytes <+: bytes.take bufSize := by
  have hlong : received bytes <+: bytes.take bufSize ++ [0] := List.takeWhile_prefix _
  rcases List.prefix_concat_iff.mp hlong with heq | hshort
  · have hzero := zero_not_mem_received bytes
    rw [heq] at hzero
    exact absurd (List.mem_append_right _ (List.mem_singleton.mpr rfl)) hzero
  · exact hshort

theorem received_begins (bytes : List UInt8) : received bytes <+: bytes :=
  (received_take bytes).trans ( List.take_prefix _ _)

theorem received_length_le (bytes : List UInt8) : (received bytes).length ≤ bufSize :=
  (received_take bytes).length_le.trans (List.length_take_le _ _)

/-- The parser sees all the bytes, a full buffer, or the bytes before a zero. -/
theorem received_cut (bytes : List UInt8) : received bytes = bytes ∨
    (received bytes).length = bufSize ∨ ∃ rest, bytes = received bytes ++ 0::rest := by
  by_cases hzero : 0 ∈ bytes.take bufSize
  · obtain ⟨before,after,htake,hbefore⟩ := List.eq_append_cons_of_mem hzero
    have hpos : ∀ b ∈ before, decide (b ≠ 0) = true := fun b hb =>
      decide_eq_true fun h0 => hbefore (h0 ▸ hb)
    have hreceived : received bytes = before := by
      rw [received,htake,List.append_assoc,List.takeWhile_append_of_pos hpos]
      exact List.append_nil before
    refine Or.inr (Or.inr ⟨after ++ bytes.drop bufSize,?_⟩)
    calc bytes = bytes.take bufSize ++ bytes.drop bufSize := (List.take_append_drop _ _).symm
      _ = received bytes ++ 0::(after ++ bytes.drop bufSize) := by
        rw [htake,hreceived,List.append_assoc,List.cons_append]
  · have hpos : ∀ b ∈ bytes.take bufSize, decide (b ≠ 0) = true := fun b hb =>
      decide_eq_true fun h0 => hzero (h0 ▸ hb)
    have hreceived : received bytes = bytes.take bufSize := by
      rw [received,List.takeWhile_append_of_pos hpos]
      exact List.append_nil _
    rw [hreceived]
    by_cases hlen : bytes.length ≤ bufSize
    · exact Or.inl (List.take_of_length_le hlen)
    · refine Or.inr (Or.inl ?_)
      rw [List.length_take]
      omega

theorem encode_ne_zero {f : Field} {fs : List Field} (hf : f.number ≠ 0) (rest : List UInt8) :
    encode (f::fs) ≠ 0::rest := by
  have htag : ∀ n tail, n ≠ 0 → varint n ++ tail ≠ 0::rest := by
    intro n tail hn heq
    obtain ⟨b,bs,hvarint⟩ := List.exists_cons_of_length_pos (varint_length_pos n)
    rw [hvarint,List.cons_append] at heq
    have hb : (0 : UInt8) ∈ varint n := by
      rw [hvarint,(List.cons.inj heq).1]
      exact List.mem_cons_self
    exact hn ((zero_mem_varint n).mp hb)
  rw [encode,List.flatMap_cons,Field.encode]
  split
  · rw [List.append_assoc]
    exact htag _ _ (by omega)
  · rw [List.append_assoc]
    exact htag _ _ (by omega)

theorem headBytes_length {md : MessageData} : (headBytes md).length < bufSize := by
  have hlog : md.head.code.log2 < 64 := by
    have hcode := md.head.code_lt
    rcases Nat.eq_zero_or_pos md.head.code with h0 | hpos
    · rw [h0]
      decide
    · exact (Nat.log2_lt (by omega)).mpr hcode
  unfold headBytes uintField
  split
  · decide
  · rw [encode,List.flatMap_singleton]
    show (varint (8 * 1) ++ varint md.head.code).length < bufSize
    rw [List.length_append,varint_length,varint_length]
    have : (8 * 1 : ℕ).log2 = 3 := by decide
    rw [this]
    unfold bufSize
    omega

/-- `ParseFromString`; what a refused message is left with is up to the library. -/
def generatedParser (ctx : Context) (partly : List UInt8 → MessageData) : Parser := fun bytes =>
  match MessageData.parseFromString ctx bytes with
  | some md => (true,md)
  | none => (false,partly bytes)

section Sockets

variable (ctx : Context) (partly : List UInt8 → MessageData)

theorem generatedParser_true {bytes : List UInt8}
    (h : (generatedParser ctx partly bytes).1 = true) :
    MessageData.parseFromString ctx bytes = some (generatedParser ctx partly bytes).2 := by
  unfold generatedParser at h ⊢
  cases hparse : MessageData.parseFromString ctx bytes with
  | some md => rfl
  | none =>
    rw [hparse] at h
    cases h

theorem parse_headBytes {md : MessageData} (h : md.WellFormed) :
    MessageData.parseFromString ctx (headBytes md) = some ⟨md.head,.notSet⟩ :=
  (MessageData.advances_head md.head h.head).parse

theorem parse_whole {md : MessageData} (h : md.WellFormed) {bytes : List UInt8}
    (hbytes : received bytes = md.serialize) :
    MessageData.parseFromString ctx (received bytes) = some md := by
  have hlen := received_length_le bytes
  rw [hbytes] at hlen ⊢
  exact MessageData.parse_serialize h (hlen.trans (by decide))

theorem parse_part {md md' : MessageData} (h : md.Generated) {bytes : List UInt8}
    (hbytes : received bytes <+: md.serialize)
    (hparse : MessageData.parseFromString ctx (received bytes) = some md') :
    md' = md ∨ md' = ⟨md.head,.notSet⟩ ∨ md' = .default := by
  rcases parse_begins h.wellFormed h.body hbytes hparse with hall | hnil | hhead
  · left
    rw [parse_whole ctx h.wellFormed hall] at hparse
    exact (Option.some.inj hparse).symm
  · right; right
    rw [hnil] at hparse
    exact (Option.some.inj hparse).symm
  · right; left
    rw [hhead,parse_headBytes ctx h.wellFormed] at hparse
    exact (Option.some.inj hparse).symm

/-- Whatever part of a message (its strings are valid UTF-8 by type) has arrived when it is
read, the parser refuses it or answers the message, its head alone, or nothing at all. -/
theorem stream_intact {md : MessageData} (h : md.Generated) {available : List UInt8}
    (hbegins : available <+: encodeSendTCP md) :
    let r := decodeReceiveTCP (generatedParser ctx partly) available
    r.parsed = true → r.md = md ∨ r.md = ⟨md.head,.notSet⟩ ∨ r.md = .default := by
  intro r hparsed
  have hparse : MessageData.parseFromString ctx (received available) = some r.md :=
    generatedParser_true ctx partly hparsed
  exact parse_part ctx h ((received_begins available).trans hbegins) hparse

theorem stream_intact_head :
    let r := decodeReceiveTCP (generatedParser .strict fun _ => .default) [8,2]
    r.parsed = true ∧ (r.md = genAckResp 7 ∨ r.md = ⟨.ackRespMsg,.notSet⟩ ∨ r.md = .default) :=
  ⟨by decide +kernel,stream_intact .strict (fun _ => .default)
    (.ackResp (show 7 < 2 ^ 32 by decide)) (by decide +kernel) (by decide +kernel)⟩

theorem received_head {md : MessageData} (h : md.body ≠ .notSet)
    (hcs : received md.serialize = [] ∨ received md.serialize = headBytes md) :
    received md.serialize = md.serialize := by
  obtain ⟨k,fs,hk,hfields⟩ := Body.fields_eq h
  have hlen : (received md.serialize).length < bufSize := by
    rcases hcs with hcs | hcs
    · rw [hcs]
      decide
    · rw [hcs]
      exact headBytes_length
  rcases received_cut md.serialize with hall | hfull | ⟨rest,hrest⟩
  · exact hall
  · omega
  · exfalso
    have hbody : ∀ tail, encode md.body.fields ≠ 0::tail := by
      rw [hfields]
      exact encode_ne_zero hk
    rcases hcs with hcs | hcs
    · rw [hcs,md.serialize_eq,headBytes,uintField] at hrest
      split at hrest
      · exact hbody rest hrest
      · rw [← encode_append] at hrest
        exact encode_ne_zero (f := ⟨1,.varint md.head.code⟩) one_ne_zero rest hrest
    · rw [hcs,md.serialize_eq] at hrest
      exact hbody rest (List.append_cancel_left hrest)

/-- A datagram, its strings being valid UTF-8 by type, is accepted when it fits the buffer
and has no zero byte, and then it is the message that was sent. -/
theorem datagram_intact {md : MessageData} (h : md.Generated) :
    let r := decodeReceiveUDP (generatedParser ctx partly) (encodeSendUDP md)
    (r.parsed = true ↔ md.byteSizeLong ≤ bufSize ∧ md.body.CSafe) ∧
      (r.parsed = true → r.md = md) := by
  intro r
  have hwhole : r.parsed = true → received md.serialize = md.serialize := by
    intro hparsed
    have hparse : MessageData.parseFromString ctx (received md.serialize) = some r.md :=
      generatedParser_true ctx partly hparsed
    rcases parse_begins h.wellFormed h.body (received_begins _) hparse with hall | hcs
    · exact hall
    · exact received_head h.body hcs
  have hvalue : received md.serialize = md.serialize → r.parsed = true ∧ r.md = md := by
    intro hall
    have hparse := parse_whole ctx h.wellFormed hall
    have hr : generatedParser ctx partly (received md.serialize) = (true,md) := by
      rw [generatedParser,hparse]
    exact ⟨congrArg Prod.fst hr,congrArg Prod.snd hr⟩
  refine ⟨?_,fun hparsed => (hvalue (hwhole hparsed)).2⟩
  rw [← MessageData.serialize_length h,← MessageData.zeroFree_iff h]
  constructor
  · intro hparsed
    have hlen := received_length_le md.serialize
    have hzero := zero_not_mem_received md.serialize
    rw [hwhole hparsed] at hlen hzero
    exact ⟨hlen,hzero⟩
  · rintro ⟨hlen,hzero⟩
    refine (hvalue ?_).1
    have hpos : ∀ b ∈ md.serialize, decide (b ≠ 0) = true := fun b hb =>
      decide_eq_true fun h0 => hzero (h0 ▸ hb)
    rw [received,List.take_of_length_le hlen,List.takeWhile_append_of_pos hpos]
    exact List.append_nil _

theorem datagram_intact_ack :
    let r := decodeReceiveUDP (generatedParser .strict fun _ => .default)
      (encodeSendUDP (genAckResp 7))
    r.parsed = true ∧ r.md = genAckResp 7 := by
  have h := datagram_intact .strict (fun _ => .default) (.ackResp (show 7 < 2 ^ 32 by decide))
  have hfits : (genAckResp 7).byteSizeLong ≤ bufSize ∧ (genAckResp 7).body.CSafe :=
    ⟨by decide +kernel,by simp [genAckResp,Body.CSafe]⟩
  exact ⟨h.1.mpr hfits,h.2 (h.1.mpr hfits)⟩

end Sockets

end GossipMemberlist
