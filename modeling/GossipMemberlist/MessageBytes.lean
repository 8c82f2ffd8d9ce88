import GossipMemberlist.MessageData

/-!
# The bytes of a message

How long the encoding of a message is, and when it holds a zero byte: when a string
has a NUL in it, or when an embedded message has no field to write, so that its
length on the wire is zero.
-/

namespace GossipMemberlist

open Wire

section Sizes

variable {k : ℕ}

theorem tag_length (hk : k < 16) {w : ℕ} (hw : w < 8) : (varint (8 * k + w)).length = 1 := by
  have hlog : (8 * k + w).log2 < 7 := by
    rcases Nat.eq_zero_or_pos (8 * k + w) with h | h
    · rw [h]
      decide
    · exact (Nat.log2_lt (Nat.pos_iff_ne_zero.mp h)).mpr (by omega)
  rw [varint_length]
  omega

theorem uintField_length (hk : k < 16) (n : ℕ) :
    (encode (uintField k n)).length = uint32FieldSize n := by
  unfold uintField uint32FieldSize
  by_cases hn : n = 0
  · simp [hn]
  · have htag : (varint (8 * k)).length = 1 := tag_length hk (show 0 < 8 by decide)
    simp only [hn,if_false,encode,List.flatMap_cons,List.flatMap_nil,List.append_nil,Field.encode,
      List.length_append,varint_length,varintSize] at htag ⊢
    omega

theorem stringField_length (hk : k < 16) (s : String) :
    (encode (stringField k s)).length = stringFieldSize s := by
  unfold stringField stringFieldSize
  by_cases hs : s = ""
  · simp [hs]
  · have htag := tag_length hk (show 2 < 8 by decide)
    have hutf8 : (utf8 s).length = s.utf8ByteSize := Array.length_toList
    simp [hs,encode,Field.encode,varint_length,varintSize,hutf8] at htag ⊢
    omega

theorem messageField_length (hk : k < 16) (fs : List Field) :
    (encode (messageField k fs)).length = messageFieldSize (encode fs).length := by
  have htag := tag_length hk (show 2 < 8 by decide)
  rw [messageField,encode,List.flatMap_cons,List.flatMap_nil,List.append_nil]
  simp only [Field.encode,List.length_append,htag,varint_length,messageFieldSize,varintSize]
  omega

/-- An enumerator as a message stores it, an `int32` that may be none of the known ones. -/
def BroadcastType.Stored : BroadcastType → Prop
  | .unrecognized value => value ≠ 0 ∧ -2 ^ 31 ≤ value ∧ value < 2 ^ 31
  | _ => True

instance : DecidablePred BroadcastType.Stored
  | .unrecognized value =>
    inferInstanceAs (Decidable (value ≠ 0 ∧ -2 ^ 31 ≤ value ∧ value < 2 ^ 31))
  | .aliveMsg | .deadMsg | .suspectMsg => isTrue trivial

theorem BroadcastType.code_size {t : BroadcastType} (h : t.Stored) :
    uint32FieldSize t.code = t.fieldSize := by
  cases t with
  | unrecognized value =>
    obtain ⟨hne,hlow,hhigh⟩ := h
    rcases lt_or_ge value 0 with hneg | hpos
    · have hcode : (value % 2 ^ 64).toNat = 2 ^ 64 - value.natAbs := by omega
      have hlog : (2 ^ 64 - value.natAbs).log2 = 63 :=
        (Nat.log2_eq_iff (by omega)).mpr ⟨by omega,by omega⟩
      rw [BroadcastType.code,BroadcastType.fieldSize,hcode,uint32FieldSize,varintSize,hlog,
        if_pos hneg,if_neg (by omega)]
    · have hcode : (value % 2 ^ 64).toNat = value.toNat := by omega
      rw [BroadcastType.code,BroadcastType.fieldSize,hcode,uint32FieldSize,
        if_neg (not_lt.mpr hpos),if_neg (by omega)]
  | _ => decide

theorem Broadcast.fields_length_of_stored {b : Broadcast} (h : b.type.Stored) :
    (encode b.fields).length = b.byteSizeLong := by
  obtain ⟨type,content⟩ := b
  rw [Broadcast.fields,encode_append,List.length_append,uintField_length (by decide),
    BroadcastType.code_size h,Broadcast.byteSizeLong]
  cases content <;>
    simp [Content.fields,encode_append,uintField_length,messageField_length,stringField_length,
      Alive.fields,Dead.fields,Suspect.fields,Alive.byteSizeLong,Dead.byteSizeLong,
      Suspect.byteSizeLong,← Nat.add_assoc]

theorem Broadcast.fields_length {b : Broadcast} (h : b.Generated) :
    (encode b.fields).length = b.byteSizeLong :=
  fields_length_of_stored (by cases h <;> trivial)

def PushNodeState.byteSizeLong (s : PushNodeState) : ℕ :=
  stringFieldSize s.name + stringFieldSize s.addr + uint32FieldSize s.port +
    uint32FieldSize s.incarnation + uint32FieldSize s.state.code

def Ping.byteSizeLong (p : Ping) : ℕ :=
  uint32FieldSize p.seqNo + stringFieldSize p.node + stringFieldSize p.sourceAddr +
    uint32FieldSize p.sourcePort + stringFieldSize p.sourceNode

def IndirectPing.byteSizeLong (p : IndirectPing) : ℕ :=
  uint32FieldSize p.seqNo + stringFieldSize p.node + stringFieldSize p.targetAddr +
    uint32FieldSize p.targetPort + uint32FieldSize p.nack.toNat + stringFieldSize p.sourceAddr +
    uint32FieldSize p.sourcePort + stringFieldSize p.sourceNode

def PushPull.byteSizeLong (p : PushPull) : ℕ :=
  uint32FieldSize p.join.toNat + (p.states.map fun s => messageFieldSize s.byteSizeLong).sum

def ComBroadcast.byteSizeLong (c : ComBroadcast) : ℕ :=
  (c.bs.map fun b => messageFieldSize b.byteSizeLong).sum

def Body.byteSizeLong : Body → ℕ
  | .notSet => 0
  | .ping p => messageFieldSize p.byteSizeLong
  | .indirectPing p => messageFieldSize p.byteSizeLong
  | .ackResp a => messageFieldSize (uint32FieldSize a.seqNo)
  | .nackResp n => messageFieldSize (uint32FieldSize n.seqNo)
  | .pushPull p => messageFieldSize p.byteSizeLong
  | .comBroadcast c => messageFieldSize c.byteSizeLong
  | .user u => messageFieldSize (stringFieldSize u.msg)
  | .errResp e => messageFieldSize (stringFieldSize e.error)

def MessageData.byteSizeLong (md : MessageData) : ℕ :=
  uint32FieldSize md.head.code + md.body.byteSizeLong

theorem messages_length {α : Type*} (hk : k < 16) {g : α → List Field} {size : α → ℕ} {xs : List α}
    (h : ∀ x ∈ xs, (encode (g x)).length = size x) :
    (encode (xs.flatMap fun x => messageField k (g x))).length =
      (xs.map fun x => messageFieldSize (size x)).sum := by
  induction xs with
  | nil => rfl
  | cons x xs ih =>
    have hx := h x List.mem_cons_self
    have hxs := ih fun y hy => h y (List.mem_cons_of_mem x hy)
    rw [List.flatMap_cons,encode_append,List.length_append,messageField_length hk,hx,hxs,
      List.map_cons,List.sum_cons]

theorem PushNodeState.fields_length (s : PushNodeState) :
    (encode s.fields).length = s.byteSizeLong := by
  simp [fields,byteSizeLong,encode_append,uintField_length,stringField_length,← Nat.add_assoc]

theorem PushPull.fields_length (p : PushPull) : (encode p.fields).length = p.byteSizeLong := by
  rw [fields,encode_append,List.length_append,uintField_length (by decide),
    messages_length (by decide) fun s _ => s.fields_length]
  rfl

theorem ComBroadcast.fields_length {c : ComBroadcast} (h : ∀ b ∈ c.bs, b.Generated) :
    (encode c.fields).length = c.byteSizeLong :=
  messages_length (by decide) fun b hb => Broadcast.fields_length (h b hb)

theorem genComMsg_length {bs : List Broadcast} (h : ∀ b ∈ bs, b.type.Stored) :
    (genComMsg ⟨bs⟩).serialize.length =
      2 + messageFieldSize (bs.map fun b => messageFieldSize b.byteSizeLong).sum := by
  have hbs : (encode (ComBroadcast.fields ⟨bs⟩)).length =
      (bs.map fun b => messageFieldSize b.byteSizeLong).sum :=
    messages_length (by decide) fun b hb => Broadcast.fields_length_of_stored (h b hb)
  rw [MessageData.serialize,MessageData.fields,encode_append,List.length_append,
    uintField_length (by decide)]
  simp only [genComMsg,Body.fields,messageField_length (show 7 < 16 by decide),hbs]
  rfl

theorem MessageData.serialize_length {md : MessageData} (h : md.Generated) :
    md.serialize.length = md.byteSizeLong := by
  have hregular := regular_of_generated h
  obtain ⟨head,body⟩ := md
  rw [serialize,fields,encode_append,List.length_append,uintField_length (by decide)]
  cases body with
  | pushPull p =>
    simp [byteSizeLong,Body.fields,Body.byteSizeLong,messageField_length,p.fields_length]
  | comBroadcast c =>
    have hc : (encode c.fields).length = c.byteSizeLong :=
      ComBroadcast.fields_length hregular.broadcasts
    simp [byteSizeLong,Body.fields,Body.byteSizeLong,messageField_length,hc]
  | _ => simp [byteSizeLong,Body.fields,Body.byteSizeLong,messageField_length,encode_append,
      uintField_length,stringField_length,Ping.fields,Ping.byteSizeLong,IndirectPing.fields,
      IndirectPing.byteSizeLong,← Nat.add_assoc]

end Sizes

section ZeroBytes

theorem zero_mem_utf8EncodeChar (c : Char) : 0 ∈ String.utf8EncodeChar c ↔ c = '\x00' := by
  have hor : ∀ x y : UInt8, y ≠ 0 → 0 ≠ x ||| y := fun x y hy h0 =>
    hy (UInt8.or_eq_zero_iff.mp h0.symm).2
  rw [String.utf8EncodeChar_eq_utf8EncodeCharFast]
  by_cases h : c.val ≤ 0x7f
  · have hlt : c.val.toNat ≤ 127 := UInt32.le_iff_toNat_le.mp h
    rw [String.utf8EncodeCharFast,if_pos h,List.mem_singleton,Char.ext_iff,← UInt8.toNat_inj,
      ← UInt32.toNat_inj,UInt32.toNat_toUInt8]
    show 0 = c.val.toNat % 256 ↔ c.val.toNat = 0
    omega
  · have hne : c ≠ '\x00' := by
      rintro rfl
      exact h (by decide)
    -- every byte of a longer encoding carries a marker bit
    simp only [hne,iff_false]
    fun_cases String.utf8EncodeCharFast with
    | case1 v hv => exact absurd hv h
    | _ => simp [hor]
theorem utf8_eq (s : String) : utf8 s = s.toList.flatMap String.utf8EncodeChar := by
  rw [utf8,← String.utf8Encode_toList,List.utf8Encode]
  simp

theorem zero_mem_utf8 (s : String) : 0 ∈ utf8 s ↔ '\x00' ∈ s.toList := by
  rw [utf8_eq,List.mem_flatMap]
  constructor
  · rintro ⟨c,hc,h0⟩
    exact (zero_mem_utf8EncodeChar c).mp h0 ▸ hc
  · intro h
    exact ⟨_,h,(zero_mem_utf8EncodeChar _).mpr rfl⟩

@[simp] theorem uintField_eq_nil {k n : ℕ} : uintField k n = [] ↔ n = 0 := by
  simp [uintField]

@[simp] theorem stringField_eq_nil {k : ℕ} {s : String} : stringField k s = [] ↔ s = "" := by
  simp [stringField]

@[simp] theorem messageField_ne_nil {k : ℕ} {fs : List Field} : messageField k fs ≠ [] :=
  List.cons_ne_nil _ _

@[simp] theorem zeroFree_uintField {k n : ℕ} (hk : k ≠ 0) : ZeroFree (uintField k n) := by
  unfold uintField
  split
  · exact zeroFree_nil
  · next hn => exact zeroFree_varint.mpr ⟨hk,hn⟩

def NoNul (s : String) : Prop := '\x00' ∉ s.toList

@[simp] theorem zeroFree_stringField {k : ℕ} {s : String} :
    ZeroFree (stringField k s) ↔ NoNul s := by
  unfold stringField
  by_cases hs : s = ""
  · simp [hs,NoNul]
  · have hne : utf8 s ≠ [] := fun hnil => hs (by
      rw [← String.utf8ByteSize_eq_zero_iff]
      exact congrArg List.length hnil)
    rw [if_neg hs,zeroFree_bytes,zero_mem_utf8]
    exact and_iff_right hne

@[simp] theorem zeroFree_messageField {k : ℕ} {fs : List Field} :
    ZeroFree (messageField k fs) ↔ fs ≠ [] ∧ ZeroFree fs := by
  rw [messageField,zeroFree_bytes,Ne,encode_eq_nil]
  rfl

def Alive.CSafe (a : Alive) : Prop := a ≠ ⟨0,"","",0⟩ ∧ NoNul a.node ∧ NoNul a.addr

def Dead.CSafe (d : Dead) : Prop := d ≠ ⟨0,"",""⟩ ∧ NoNul d.node ∧ NoNul d.from_

def Suspect.CSafe (s : Suspect) : Prop := s ≠ ⟨0,"",""⟩ ∧ NoNul s.node ∧ NoNul s.from_

def Broadcast.CSafe (b : Broadcast) : Prop :=
  match b.content with
  | .notSet => b.type ≠ .aliveMsg
  | .alive a => a.CSafe
  | .dead d => d.CSafe
  | .suspect s => s.CSafe

def PushNodeState.CSafe (s : PushNodeState) : Prop :=
  s ≠ ⟨"","",0,0,.stateAlive⟩ ∧ NoNul s.name ∧ NoNul s.addr

def Ping.CSafe (p : Ping) : Prop :=
  p ≠ ⟨0,"","",0,""⟩ ∧ NoNul p.node ∧ NoNul p.sourceAddr ∧ NoNul p.sourceNode

def IndirectPing.CSafe (p : IndirectPing) : Prop :=
  p ≠ ⟨0,"","",0,false,"",0,""⟩ ∧ NoNul p.node ∧ NoNul p.targetAddr ∧ NoNul p.sourceAddr ∧
    NoNul p.sourceNode

def PushPull.CSafe (p : PushPull) : Prop := p ≠ ⟨false,[]⟩ ∧ ∀ s ∈ p.states, s.CSafe

def ComBroadcast.CSafe (c : ComBroadcast) : Prop := c.bs ≠ [] ∧ ∀ b ∈ c.bs, b.CSafe

/-- The condition on the body of a message that makes its bytes free of zeros. -/
def Body.CSafe : Body → Prop
  | .notSet => True
  | .ping p => p.CSafe
  | .indirectPing p => p.CSafe
  | .ackResp a => a.seqNo ≠ 0
  | .nackResp n => n.seqNo ≠ 0
  | .pushPull p => p.CSafe
  | .comBroadcast c => c.CSafe
  | .user u => u.msg ≠ "" ∧ NoNul u.msg
  | .errResp e => e.error ≠ "" ∧ NoNul e.error

theorem Alive.cSafe_iff (a : Alive) : a.CSafe ↔ a.fields ≠ [] ∧ ZeroFree a.fields := by
  cases a
  simp [CSafe,fields]

theorem Dead.cSafe_iff (d : Dead) : d.CSafe ↔ d.fields ≠ [] ∧ ZeroFree d.fields := by
  cases d
  simp [CSafe,fields]

theorem Suspect.cSafe_iff (s : Suspect) : s.CSafe ↔ s.fields ≠ [] ∧ ZeroFree s.fields := by
  cases s
  simp [CSafe,fields]

theorem Broadcast.cSafe_iff {b : Broadcast} (h : b.Generated) :
    b.CSafe ↔ b.fields ≠ [] ∧ ZeroFree b.fields := by
  cases h with
  | alive a => simp [CSafe,fields,genAliveBroadcast,Content.fields,a.cSafe_iff]
  | dead d => simp [CSafe,fields,genDeadBroadcast,Content.fields,d.cSafe_iff]
  | suspect s => simp [CSafe,fields,genSuspectBroadcast,Content.fields,s.cSafe_iff]

theorem PushNodeState.cSafe_iff {s : PushNodeState} (h : s.state.Known) :
    s.CSafe ↔ s.fields ≠ [] ∧ ZeroFree s.fields := by
  obtain ⟨name,addr,port,incarnation,state⟩ := s
  cases state with
  | unrecognized value => cases h
  | _ => simp [CSafe,fields,PushNodeStateType.code]

theorem Ping.cSafe_iff (p : Ping) : p.CSafe ↔ p.fields ≠ [] ∧ ZeroFree p.fields := by
  cases p
  simp [CSafe,fields]

theorem IndirectPing.cSafe_iff (p : IndirectPing) :
    p.CSafe ↔ p.fields ≠ [] ∧ ZeroFree p.fields := by
  cases p
  simp [CSafe,fields]

theorem zeroFree_messages {α : Type*} {k : ℕ} {g : α → List Field} {xs : List α} :
    ZeroFree (xs.flatMap fun x => messageField k (g x)) ↔
      ∀ x ∈ xs, g x ≠ [] ∧ ZeroFree (g x) := by
  simp [zeroFree_flatMap]

theorem messages_eq_nil {α : Type*} {k : ℕ} {g : α → List Field} {xs : List α} :
    (xs.flatMap fun x => messageField k (g x)) = [] ↔ xs = [] := by
  cases xs <;> simp

theorem PushPull.cSafe_iff {p : PushPull} (h : ∀ s ∈ p.states, s.state.Known) :
    p.CSafe ↔ p.fields ≠ [] ∧ ZeroFree p.fields := by
  have hall : (∀ s ∈ p.states, s.CSafe) ↔ ∀ s ∈ p.states, s.fields ≠ [] ∧ ZeroFree s.fields :=
    forall₂_congr fun s hs => PushNodeState.cSafe_iff (h s hs)
  have hnil : p ≠ ⟨false,[]⟩ ↔ p.fields ≠ [] := by
    obtain ⟨join,states⟩ := p
    rw [Ne,Ne,fields,List.append_eq_nil_iff,messages_eq_nil]
    simp
  rw [CSafe,hall,hnil,fields,zeroFree_append,zeroFree_messages]
  simp

theorem ComBroadcast.cSafe_iff {c : ComBroadcast} (h : ∀ b ∈ c.bs, b.Generated) :
    c.CSafe ↔ c.fields ≠ [] ∧ ZeroFree c.fields := by
  have hall : (∀ b ∈ c.bs, b.CSafe) ↔ ∀ b ∈ c.bs, b.fields ≠ [] ∧ ZeroFree b.fields :=
    forall₂_congr fun b hb => Broadcast.cSafe_iff (h b hb)
  rw [CSafe,hall,fields,zeroFree_messages,Ne,Ne,messages_eq_nil]

theorem MessageData.zeroFree_iff {md : MessageData} (h : md.Generated) :
    0 ∉ md.serialize ↔ md.body.CSafe := by
  have hregular := regular_of_generated h
  obtain ⟨head,body⟩ := md
  show ZeroFree (uintField 1 head.code ++ body.fields) ↔ body.CSafe
  cases body with
  | pushPull p =>
    have hp := PushPull.cSafe_iff (p := p) hregular.states
    simp [Body.fields,Body.CSafe,hp]
  | comBroadcast c =>
    have hc := ComBroadcast.cSafe_iff (c := c) hregular.broadcasts
    simp [Body.fields,Body.CSafe,hc]
  | ping p => simp [Body.fields,Body.CSafe,p.cSafe_iff]
  | indirectPing p => simp [Body.fields,Body.CSafe,p.cSafe_iff]
  | _ => simp [Body.fields,Body.CSafe]

end ZeroBytes

end GossipMemberlist
