import GossipMemberlist.Messages
import GossipMemberlist.Library.Wire
import Mathlib.Data.Set.Function

/-!
# Transport messages

`MessageData` and the messages it can carry, the functions that build them, and
their fields on the wire. A field with the default value of its type is not
written; a member of a `oneof` is written whenever it is set.
-/

namespace GossipMemberlist

open Wire

structure Ping where
  seqNo : ℕ
  node : String
  sourceAddr : String
  sourcePort : ℕ
  sourceNode : String
  deriving DecidableEq

structure IndirectPing where
  seqNo : ℕ
  node : String
  targetAddr : String
  targetPort : ℕ
  nack : Bool
  sourceAddr : String
  sourcePort : ℕ
  sourceNode : String
  deriving DecidableEq

structure AckResp where
  seqNo : ℕ
  deriving DecidableEq

structure NackResp where
  seqNo : ℕ
  deriving DecidableEq

structure ErrResp where
  error : String
  deriving DecidableEq

structure User where
  msg : String
  deriving DecidableEq

structure ComBroadcast where
  bs : List Broadcast
  deriving DecidableEq

inductive MessageType
  | pingMsg | indirectPingMsg | ackRespMsg | nackRespMsg | pushPullMsg | compoundBroad | userMsg
  | errMsg | unrecognized (value : ℤ)
  deriving DecidableEq

inductive Body
  | notSet | ping (p : Ping) | indirectPing (p : IndirectPing) | ackResp (a : AckResp)
  | nackResp (n : NackResp) | pushPull (p : PushPull) | comBroadcast (c : ComBroadcast)
  | user (u : User) | errResp (e : ErrResp)
  deriving DecidableEq

structure MessageData where
  head : MessageType
  body : Body
  deriving DecidableEq

def MessageData.default : MessageData := ⟨.pingMsg,.notSet⟩

namespace MessageData

/-- As with `Broadcast`, a body that is not set reads as its default. -/
def ping (md : MessageData) : Ping :=
  match md.body with
  | .ping p => p
  | _ => ⟨0,"","",0,""⟩

def indirectPing (md : MessageData) : IndirectPing :=
  match md.body with
  | .indirectPing p => p
  | _ => ⟨0,"","",0,false,"",0,""⟩

def ackResp (md : MessageData) : AckResp :=
  match md.body with
  | .ackResp a => a
  | _ => ⟨0⟩

def nackResp (md : MessageData) : NackResp :=
  match md.body with
  | .nackResp n => n
  | _ => ⟨0⟩

def pushPull (md : MessageData) : PushPull :=
  match md.body with
  | .pushPull p => p
  | _ => ⟨false,[]⟩

def comBroadcast (md : MessageData) : ComBroadcast :=
  match md.body with
  | .comBroadcast c => c
  | _ => ⟨[]⟩

def user (md : MessageData) : User :=
  match md.body with
  | .user u => u
  | _ => ⟨""⟩

end MessageData

def genPing (seqNo : ℕ) (node sourceAddr : String) (sourcePort : ℕ) (sourceNode : String) :
    MessageData :=
  ⟨.pingMsg,.ping ⟨seqNo,node,sourceAddr,sourcePort,sourceNode⟩⟩

def genIndirectPing (seqNo : ℕ) (node targetAddr : String) (targetPort : ℕ) (nack : Bool)
    (sourceAddr : String) (sourcePort : ℕ) (sourceNode : String) : MessageData :=
  ⟨.indirectPingMsg,
    .indirectPing ⟨seqNo,node,targetAddr,targetPort,nack,sourceAddr,sourcePort,sourceNode⟩⟩

def genAckResp (seqNo : ℕ) : MessageData := ⟨.ackRespMsg,.ackResp ⟨seqNo⟩⟩

def genNackResp (seqNo : ℕ) : MessageData := ⟨.nackRespMsg,.nackResp ⟨seqNo⟩⟩

def genErrResp (error : String) : MessageData := ⟨.errMsg,.errResp ⟨error⟩⟩

def genUser (msg : String) : MessageData := ⟨.userMsg,.user ⟨msg⟩⟩

def genComMsg (cbc : ComBroadcast) : MessageData := ⟨.compoundBroad,.comBroadcast cbc⟩

def genSuspectMsg (s : Suspect) : MessageData := genComMsg ⟨[genSuspectBroadcast s]⟩

def genDeadMsg (d : Dead) : MessageData := genComMsg ⟨[genDeadBroadcast d]⟩

def genAliveMsg (a : Alive) : MessageData := genComMsg ⟨[genAliveBroadcast a]⟩

def genPushPull (join : Bool) : MessageData := ⟨.pushPullMsg,.pushPull ⟨join,[]⟩⟩

/-- `mutable_pushpull` makes the body a push/pull message if it is not one yet. -/
def addPushNodeState (md : MessageData) (state : PushNodeState) : MessageData :=
  { md with body := .pushPull ⟨md.pushPull.join,md.pushPull.states ++ [state]⟩ }

def PushNodeStateType.Known : PushNodeStateType → Prop
  | .unrecognized _ => False
  | _ => True

def IsUint32 (n : ℕ) : Prop := n < 2 ^ 32

/-- The broadcasts that the gen functions build. -/
inductive Broadcast.Generated : Broadcast → Prop
  | alive (a : Alive) : IsUint32 a.incarnation → IsUint32 a.port →
      Generated (genAliveBroadcast a)
  | dead (d : Dead) : IsUint32 d.incarnation → Generated (genDeadBroadcast d)
  | suspect (s : Suspect) : IsUint32 s.incarnation → Generated (genSuspectBroadcast s)

/-- The messages that the gen functions build. -/
inductive MessageData.Generated : MessageData → Prop
  | ping {seqNo sourcePort} (node sourceAddr sourceNode) : IsUint32 seqNo → IsUint32 sourcePort →
      Generated (genPing seqNo node sourceAddr sourcePort sourceNode)
  | indirectPing {seqNo targetPort sourcePort} (node targetAddr nack sourceAddr sourceNode) :
      IsUint32 seqNo → IsUint32 targetPort → IsUint32 sourcePort →
      Generated (genIndirectPing seqNo node targetAddr targetPort nack sourceAddr sourcePort
        sourceNode)
  | ackResp {seqNo} : IsUint32 seqNo → Generated (genAckResp seqNo)
  | nackResp {seqNo} : IsUint32 seqNo → Generated (genNackResp seqNo)
  | errResp (error) : Generated (genErrResp error)
  | user (msg) : Generated (genUser msg)
  | comMsg (cbc : ComBroadcast) : (∀ b ∈ cbc.bs, b.Generated) → Generated (genComMsg cbc)
  | suspectMsg (s : Suspect) : IsUint32 s.incarnation → Generated (genSuspectMsg s)
  | deadMsg (d : Dead) : IsUint32 d.incarnation → Generated (genDeadMsg d)
  | aliveMsg (a : Alive) : IsUint32 a.incarnation → IsUint32 a.port → Generated (genAliveMsg a)
  | pushPull (join) : Generated (genPushPull join)
  | addPushNodeState {md} {state : PushNodeState} : Generated md → IsUint32 state.port →
      IsUint32 state.incarnation → state.state.Known → Generated (addPushNodeState md state)

def uintField (number n : ℕ) : List Field := if n = 0 then [] else [⟨number,.varint n⟩]

def utf8 (s : String) : List UInt8 := s.toByteArray.data.toList

def stringField (number : ℕ) (s : String) : List Field :=
  if s = "" then [] else [⟨number,.bytes (utf8 s)⟩]

def messageField (number : ℕ) (fs : List Field) : List Field := [⟨number,.bytes (encode fs)⟩]

def pickUint (number n : ℕ) (f : Field) : ℕ :=
  match f.value with
  | .varint m => if f.number = number then m else n
  | .bytes _ => n

def pickBytes (number : ℕ) (bs : List UInt8) (f : Field) : List UInt8 :=
  match f.value with
  | .varint _ => bs
  | .bytes cs => if f.number = number then cs else bs

def readUint (number : ℕ) (fs : List Field) : ℕ := fs.foldl (pickUint number) 0

def readString (number : ℕ) (fs : List Field) : String :=
  (String.fromUTF8? ⟨(fs.foldl (pickBytes number) []).toArray⟩).getD ""

def readAll (number : ℕ) (fs : List Field) : List (List Field) :=
  fs.filterMap fun f => match f.value with
    | .varint _ => none
    | .bytes bs => if f.number = number then some (decode bs).1 else none

section Readers

variable (k j n m : ℕ) (s : String) (fs : List Field) (bs : List UInt8)

@[simp] theorem pickUint_uintField :
    (uintField j m).foldl (pickUint k) n = if j = k ∧ m ≠ 0 then m else n := by
  unfold uintField
  by_cases hm : m = 0
  · simp [hm]
  · simp [hm,pickUint]

@[simp] theorem pickUint_stringField : (stringField j s).foldl (pickUint k) n = n := by
  unfold stringField
  split <;> rfl

@[simp] theorem pickUint_messageField : (messageField j fs).foldl (pickUint k) n = n := rfl

@[simp] theorem pickBytes_uintField : (uintField j m).foldl (pickBytes k) bs = bs := by
  unfold uintField
  split <;> rfl

@[simp] theorem pickBytes_stringField : (stringField j s).foldl (pickBytes k) bs =
    if j = k ∧ s ≠ "" then utf8 s else bs := by
  unfold stringField
  by_cases hs : s = ""
  · simp [hs]
  · simp [hs,pickBytes]

@[simp] theorem zero_or_self : (if m = 0 then 0 else m) = m := by
  by_cases hm : m = 0 <;> simp [hm]

@[simp] theorem utf8_or_nil : (if s = "" then [] else utf8 s) = utf8 s := by
  by_cases hs : s = ""
  · rw [hs,if_pos rfl]
    rfl
  · rw [if_neg hs]

@[simp] theorem fromUTF8_utf8 : String.fromUTF8? ⟨(utf8 s).toArray⟩ = some s := by
  have harray : ByteArray.mk (utf8 s).toArray = s.toByteArray := by simp [utf8]
  rw [harray,String.fromUTF8?,dif_pos s.isValidUTF8]
  rfl

end Readers

def Alive.fields (a : Alive) : List Field :=
  uintField 1 a.incarnation ++ stringField 2 a.node ++ stringField 3 a.addr ++ uintField 4 a.port

def Alive.ofFields (fs : List Field) : Alive :=
  ⟨readUint 1 fs,readString 2 fs,readString 3 fs,readUint 4 fs⟩

def Dead.fields (d : Dead) : List Field :=
  uintField 1 d.incarnation ++ stringField 2 d.node ++ stringField 3 d.from_

def Dead.ofFields (fs : List Field) : Dead := ⟨readUint 1 fs,readString 2 fs,readString 3 fs⟩

def Suspect.fields (s : Suspect) : List Field :=
  uintField 1 s.incarnation ++ stringField 2 s.node ++ stringField 3 s.from_

def Suspect.ofFields (fs : List Field) : Suspect :=
  ⟨readUint 1 fs,readString 2 fs,readString 3 fs⟩

def BroadcastType.code : BroadcastType → ℕ
  | .aliveMsg => 0
  | .deadMsg => 1
  | .suspectMsg => 2
  | .unrecognized value => (value % 2 ^ 64).toNat

def BroadcastType.ofCode : ℕ → BroadcastType
  | 0 => .aliveMsg
  | 1 => .deadMsg
  | 2 => .suspectMsg
  | n => .unrecognized n

def Content.fields : Content → List Field
  | .notSet => []
  | .alive a => messageField 2 a.fields
  | .dead d => messageField 3 d.fields
  | .suspect s => messageField 4 s.fields

def Content.pick (c : Content) (f : Field) : Content :=
  match f.value, f.number with
  | .bytes bs, 2 => .alive (.ofFields (decode bs).1)
  | .bytes bs, 3 => .dead (.ofFields (decode bs).1)
  | .bytes bs, 4 => .suspect (.ofFields (decode bs).1)
  | _, _ => c

def Broadcast.fields (b : Broadcast) : List Field := uintField 1 b.type.code ++ b.content.fields

def Broadcast.ofFields (fs : List Field) : Broadcast :=
  ⟨.ofCode (readUint 1 fs),fs.foldl Content.pick .notSet⟩

def PushNodeStateType.code : PushNodeStateType → ℕ
  | .stateAlive => 0
  | .stateSuspect => 1
  | .stateDead => 2
  | .stateLeft => 3
  | .unrecognized value => (value % 2 ^ 64).toNat

def PushNodeStateType.ofCode : ℕ → PushNodeStateType
  | 0 => .stateAlive
  | 1 => .stateSuspect
  | 2 => .stateDead
  | 3 => .stateLeft
  | n => .unrecognized n

def PushNodeState.fields (s : PushNodeState) : List Field :=
  stringField 1 s.name ++ stringField 2 s.addr ++ uintField 3 s.port ++
    uintField 4 s.incarnation ++ uintField 5 s.state.code

def PushNodeState.ofFields (fs : List Field) : PushNodeState :=
  ⟨readString 1 fs,readString 2 fs,readUint 3 fs,readUint 4 fs,.ofCode (readUint 5 fs)⟩

def Ping.fields (p : Ping) : List Field :=
  uintField 1 p.seqNo ++ stringField 2 p.node ++ stringField 3 p.sourceAddr ++
    uintField 4 p.sourcePort ++ stringField 5 p.sourceNode

def Ping.ofFields (fs : List Field) : Ping :=
  ⟨readUint 1 fs,readString 2 fs,readString 3 fs,readUint 4 fs,readString 5 fs⟩

def IndirectPing.fields (p : IndirectPing) : List Field :=
  uintField 1 p.seqNo ++ stringField 2 p.node ++ stringField 3 p.targetAddr ++
    uintField 4 p.targetPort ++ uintField 5 p.nack.toNat ++ stringField 6 p.sourceAddr ++
    uintField 7 p.sourcePort ++ stringField 8 p.sourceNode

def IndirectPing.ofFields (fs : List Field) : IndirectPing :=
  ⟨readUint 1 fs,readString 2 fs,readString 3 fs,readUint 4 fs,readUint 5 fs ≠ 0,readString 6 fs,
    readUint 7 fs,readString 8 fs⟩

def PushPull.fields (p : PushPull) : List Field :=
  uintField 1 p.join.toNat ++ p.states.flatMap fun s => messageField 2 s.fields

def PushPull.ofFields (fs : List Field) : PushPull :=
  ⟨readUint 1 fs ≠ 0,(readAll 2 fs).map .ofFields⟩

def ComBroadcast.fields (c : ComBroadcast) : List Field :=
  c.bs.flatMap fun b => messageField 1 b.fields

def ComBroadcast.ofFields (fs : List Field) : ComBroadcast := ⟨(readAll 1 fs).map .ofFields⟩

def MessageType.code : MessageType → ℕ
  | .pingMsg => 0
  | .indirectPingMsg => 1
  | .ackRespMsg => 2
  | .nackRespMsg => 3
  | .pushPullMsg => 4
  | .compoundBroad => 5
  | .userMsg => 6
  | .errMsg => 7
  | .unrecognized value => (value % 2 ^ 64).toNat

def MessageType.ofCode : ℕ → MessageType
  | 0 => .pingMsg
  | 1 => .indirectPingMsg
  | 2 => .ackRespMsg
  | 3 => .nackRespMsg
  | 4 => .pushPullMsg
  | 5 => .compoundBroad
  | 6 => .userMsg
  | 7 => .errMsg
  | n => .unrecognized n

def Body.fields : Body → List Field
  | .notSet => []
  | .ping p => messageField 2 p.fields
  | .indirectPing p => messageField 3 p.fields
  | .ackResp a => messageField 4 (uintField 1 a.seqNo)
  | .nackResp n => messageField 5 (uintField 1 n.seqNo)
  | .pushPull p => messageField 6 p.fields
  | .comBroadcast c => messageField 7 c.fields
  | .user u => messageField 8 (stringField 1 u.msg)
  | .errResp e => messageField 9 (stringField 1 e.error)

def Body.pick (b : Body) (f : Field) : Body :=
  match f.value, f.number with
  | .bytes bs, 2 => .ping (.ofFields (decode bs).1)
  | .bytes bs, 3 => .indirectPing (.ofFields (decode bs).1)
  | .bytes bs, 4 => .ackResp ⟨readUint 1 (decode bs).1⟩
  | .bytes bs, 5 => .nackResp ⟨readUint 1 (decode bs).1⟩
  | .bytes bs, 6 => .pushPull (.ofFields (decode bs).1)
  | .bytes bs, 7 => .comBroadcast (.ofFields (decode bs).1)
  | .bytes bs, 8 => .user ⟨readString 1 (decode bs).1⟩
  | .bytes bs, 9 => .errResp ⟨readString 1 (decode bs).1⟩
  | _, _ => b

namespace MessageData

def fields (md : MessageData) : List Field := uintField 1 md.head.code ++ md.body.fields

def ofFields (fs : List Field) : MessageData :=
  ⟨.ofCode (readUint 1 fs),fs.foldl Body.pick .notSet⟩

/-- `SerializeAsString` of a message that keeps no unknown fields. -/
def serialize (md : MessageData) : List UInt8 := encode md.fields

end MessageData

section Readback

@[simp] theorem Alive.ofFields_fields (a : Alive) : ofFields a.fields = a := by
  cases a
  simp [ofFields,fields,readUint,readString]

@[simp] theorem Dead.ofFields_fields (d : Dead) : ofFields d.fields = d := by
  cases d
  simp [ofFields,fields,readUint,readString]

@[simp] theorem Suspect.ofFields_fields (s : Suspect) : ofFields s.fields = s := by
  cases s
  simp [ofFields,fields,readUint,readString]

@[simp] theorem Ping.ofFields_fields (p : Ping) : ofFields p.fields = p := by
  cases p
  simp [ofFields,fields,readUint,readString]

@[simp] theorem IndirectPing.ofFields_fields (p : IndirectPing) : ofFields p.fields = p := by
  cases p
  simp [ofFields,fields,readUint,readString]

theorem PushNodeState.ofFields_fields {s : PushNodeState} (h : s.state.Known) :
    ofFields s.fields = s := by
  obtain ⟨name,addr,port,incarnation,state⟩ := s
  cases state with
  | unrecognized value => cases h
  | _ => simp [ofFields,fields,readUint,readString,PushNodeStateType.code,PushNodeStateType.ofCode]

@[simp] theorem pickContent_uintField (j m : ℕ) (c : Content) :
    (uintField j m).foldl Content.pick c = c := by
  unfold uintField
  split <;> rfl

theorem Broadcast.ofFields_fields {b : Broadcast} (h : b.Generated) : ofFields b.fields = b := by
  cases h <;> simp [ofFields,fields,readUint,genAliveBroadcast,genDeadBroadcast,
    genSuspectBroadcast,BroadcastType.code,BroadcastType.ofCode,Content.fields,messageField,
    Content.pick,pickUint,decode_encode]

@[simp] theorem readAll_uintField (k j m : ℕ) (fs : List Field) :
    readAll k (uintField j m ++ fs) = readAll k fs := by
  unfold uintField readAll
  split <;> simp

theorem readAll_messages {α : Type*} (k : ℕ) (g : α → List Field) (xs : List α) :
    readAll k (xs.flatMap fun x => messageField k (g x)) = xs.map g := by
  induction xs with
  | nil => rfl
  | cons x xs ih =>
    have hcons : readAll k (messageField k (g x) ++ xs.flatMap fun x => messageField k (g x)) =
        g x::readAll k (xs.flatMap fun x => messageField k (g x)) := by
      simp [readAll,messageField,decode_encode]
    rw [List.flatMap_cons,hcons,ih,List.map_cons]

theorem readUint_messages {α : Type*} (k j n : ℕ) (g : α → List Field) (xs : List α) :
    (xs.flatMap fun x => messageField j (g x)).foldl (pickUint k) n = n := by
  induction xs with
  | nil => rfl
  | cons x xs ih => rw [List.flatMap_cons,List.foldl_append,pickUint_messageField,ih]

theorem PushPull.ofFields_fields {p : PushPull} (h : ∀ s ∈ p.states, s.state.Known) :
    ofFields p.fields = p := by
  obtain ⟨join,states⟩ := p
  have hstates : states.map (PushNodeState.ofFields ∘ PushNodeState.fields) = states :=
    calc states.map (PushNodeState.ofFields ∘ PushNodeState.fields)
      _ = states.map id := List.map_congr_left fun s hs => PushNodeState.ofFields_fields (h s hs)
      _ = states := List.map_id _
  simp [ofFields,fields,readUint,readUint_messages,readAll_messages,hstates]

theorem ComBroadcast.ofFields_fields {c : ComBroadcast} (h : ∀ b ∈ c.bs, b.Generated) :
    ofFields c.fields = c := by
  obtain ⟨bs⟩ := c
  have hbs : bs.map (Broadcast.ofFields ∘ Broadcast.fields) = bs :=
    calc bs.map (Broadcast.ofFields ∘ Broadcast.fields)
      _ = bs.map id := List.map_congr_left fun b hb => Broadcast.ofFields_fields (h b hb)
      _ = bs := List.map_id _
  simp [ofFields,fields,readAll_messages,hbs]

@[simp] theorem pickBody_uintField (j m : ℕ) (b : Body) :
    (uintField j m).foldl Body.pick b = b := by
  unfold uintField
  split <;> rfl

theorem MessageType.ofCode_code {t : MessageType} (h : ∀ value, t ≠ .unrecognized value) :
    ofCode t.code = t := by
  cases t with
  | unrecognized value => exact absurd rfl (h value)
  | _ => rfl

namespace MessageData

/-- What the gen functions leave in a message, whichever they were and in whichever order. -/
structure Regular (md : MessageData) : Prop where
  head : ∀ value, md.head ≠ .unrecognized value
  broadcasts : ∀ b ∈ md.comBroadcast.bs, b.Generated
  states : ∀ s ∈ md.pushPull.states, s.state.Known

theorem regular_genComMsg {cbc : ComBroadcast} (h : ∀ b ∈ cbc.bs, b.Generated) :
    (genComMsg cbc).Regular :=
  ⟨by simp [genComMsg],h,by simp [genComMsg,pushPull]⟩

theorem regular_of_generated {md : MessageData} (h : md.Generated) : md.Regular := by
  induction h with
  | comMsg cbc hbs => exact regular_genComMsg hbs
  | suspectMsg s hs =>
    exact regular_genComMsg fun b hb => List.mem_singleton.mp hb ▸ .suspect s hs
  | deadMsg d hd => exact regular_genComMsg fun b hb => List.mem_singleton.mp hb ▸ .dead d hd
  | aliveMsg a hi hp =>
    exact regular_genComMsg fun b hb => List.mem_singleton.mp hb ▸ .alive a hi hp
  | addPushNodeState _ _ _ hstate ih =>
    refine ⟨ih.head,by simp [addPushNodeState,comBroadcast],fun s hs => ?_⟩
    rcases List.mem_append.mp hs with hold | hnew
    · exact ih.states s hold
    · exact List.mem_singleton.mp hnew ▸ hstate
  | _ => constructor <;> simp [genPing,genIndirectPing,genAckResp,genNackResp,genErrResp,genUser,
      genPushPull,comBroadcast,pushPull]

theorem Regular.ofFields_fields {md : MessageData} (h : md.Regular) :
    ofFields md.fields = md := by
  obtain ⟨head,body⟩ := md
  have hhead : MessageType.ofCode head.code = head := MessageType.ofCode_code h.head
  cases body with
  | notSet => simp [ofFields,fields,readUint,Body.fields,hhead]
  | comBroadcast c =>
    have hc : ComBroadcast.ofFields c.fields = c := ComBroadcast.ofFields_fields h.broadcasts
    simp [ofFields,fields,readUint,Body.fields,messageField,Body.pick,pickUint,decode_encode,
      hhead,hc]
  | pushPull p =>
    have hp : PushPull.ofFields p.fields = p := PushPull.ofFields_fields h.states
    simp [ofFields,fields,readUint,Body.fields,messageField,Body.pick,pickUint,decode_encode,
      hhead,hp]
  | _ => simp [ofFields,fields,readUint,readString,Body.fields,messageField,Body.pick,pickUint,
      decode_encode,hhead]

/-- Different messages have different bytes. -/
theorem serialize_injOn : Set.InjOn serialize {md | md.Generated} := by
  intro md h md' h' heq
  have hfields := encode_injective heq
  rw [← (regular_of_generated h).ofFields_fields,hfields,(regular_of_generated h').ofFields_fields]

end MessageData

end Readback

end GossipMemberlist
