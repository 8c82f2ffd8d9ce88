import GossipMemberlist.MessageData
import GossipMemberlist.Library.MessageLoop

/-!
# The generated parsers

`_InternalParse` of every message, as the switch of its loop: a case checks the one
byte of its tag and reads a number, a string in UTF-8 or an embedded message, which
is merged into what the field holds. The parser inverts the serializer on every
message whose numbers fit their fields, and no input is read as any other message.
-/

namespace GossipMemberlist

open Wire

/-- `InlineGreedyStringParser` and `VerifyUTF8` -/
def str : Reader String := Reader.bytes.filterMap fun bs => String.fromUTF8? ⟨bs.toArray⟩

/-- The cast of a varint to an enumeration keeps the low half, with a sign. -/
def toInt32 (n : ℕ) : ℤ := if n % 2 ^ 32 < 2 ^ 31 then n % 2 ^ 32 else n % 2 ^ 32 - 2 ^ 32

def BroadcastType.ofInt : ℤ → BroadcastType
  | 0 => .aliveMsg
  | 1 => .deadMsg
  | 2 => .suspectMsg
  | value => .unrecognized value

def PushNodeStateType.ofInt : ℤ → PushNodeStateType
  | 0 => .stateAlive
  | 1 => .stateSuspect
  | 2 => .stateDead
  | 3 => .stateLeft
  | value => .unrecognized value

def MessageType.ofInt : ℤ → MessageType
  | 0 => .pingMsg
  | 1 => .indirectPingMsg
  | 2 => .ackRespMsg
  | 3 => .nackRespMsg
  | 4 => .pushPullMsg
  | 5 => .compoundBroad
  | 6 => .userMsg
  | 7 => .errMsg
  | value => .unrecognized value

def Alive.switch : Switch Alive := fun a field =>
  match field with
  | 1 => some (8,Reader.varint32.map fun n => { a with incarnation := n })
  | 2 => some (18,str.map fun s => { a with node := s })
  | 3 => some (26,str.map fun s => { a with addr := s })
  | 4 => some (32,Reader.varint32.map fun n => { a with port := n })
  | _ => none

def Dead.switch : Switch Dead := fun d field =>
  match field with
  | 1 => some (8,Reader.varint32.map fun n => { d with incarnation := n })
  | 2 => some (18,str.map fun s => { d with node := s })
  | 3 => some (26,str.map fun s => { d with from_ := s })
  | _ => none

def Suspect.switch : Switch Suspect := fun s field =>
  match field with
  | 1 => some (8,Reader.varint32.map fun n => { s with incarnation := n })
  | 2 => some (18,str.map fun t => { s with node := t })
  | 3 => some (26,str.map fun t => { s with from_ := t })
  | _ => none

def PushNodeState.switch : Switch PushNodeState := fun s field =>
  match field with
  | 1 => some (10,str.map fun t => { s with name := t })
  | 2 => some (18,str.map fun t => { s with addr := t })
  | 3 => some (24,Reader.varint32.map fun n => { s with port := n })
  | 4 => some (32,Reader.varint32.map fun n => { s with incarnation := n })
  | 5 => some (40,Reader.varint64.map fun n => { s with state := .ofInt (toInt32 n) })
  | _ => none

def Ping.switch : Switch Ping := fun p field =>
  match field with
  | 1 => some (8,Reader.varint32.map fun n => { p with seqNo := n })
  | 2 => some (18,str.map fun s => { p with node := s })
  | 3 => some (26,str.map fun s => { p with sourceAddr := s })
  | 4 => some (32,Reader.varint32.map fun n => { p with sourcePort := n })
  | 5 => some (42,str.map fun s => { p with sourceNode := s })
  | _ => none

def IndirectPing.switch : Switch IndirectPing := fun p field =>
  match field with
  | 1 => some (8,Reader.varint32.map fun n => { p with seqNo := n })
  | 2 => some (18,str.map fun s => { p with node := s })
  | 3 => some (26,str.map fun s => { p with targetAddr := s })
  | 4 => some (32,Reader.varint32.map fun n => { p with targetPort := n })
  | 5 => some (40,Reader.varint64.map fun n => { p with nack := n ≠ 0 })
  | 6 => some (50,str.map fun s => { p with sourceAddr := s })
  | 7 => some (56,Reader.varint32.map fun n => { p with sourcePort := n })
  | 8 => some (66,str.map fun s => { p with sourceNode := s })
  | _ => none

def AckResp.switch : Switch AckResp := fun a field =>
  match field with
  | 1 => some (8,Reader.varint32.map fun n => { a with seqNo := n })
  | _ => none

def NackResp.switch : Switch NackResp := fun a field =>
  match field with
  | 1 => some (8,Reader.varint32.map fun n => { a with seqNo := n })
  | _ => none

def ErrResp.switch : Switch ErrResp := fun e field =>
  match field with
  | 1 => some (10,str.map fun s => { e with error := s })
  | _ => none

def User.switch : Switch User := fun u field =>
  match field with
  | 1 => some (10,str.map fun s => { u with msg := s })
  | _ => none

section Nested

variable (ctx : Context)

def PushNodeState.default : PushNodeState := ⟨"","",0,0,.stateAlive⟩

def PushPull.switch : Switch PushPull := fun p field =>
  match field with
  | 1 => some (8,Reader.varint64.map fun n => { p with join := n ≠ 0 })
  | 2 => some (18,(repeated ctx 18 (message ctx PushNodeState.switch .default) p.states).map
      fun states => { p with states := states })
  | _ => none

/-- `_internal_mutable_alive` and its siblings start from the default message where the
`oneof` holds another one. -/
def Broadcast.switch : Switch Broadcast := fun b field =>
  match field with
  | 1 => some (8,Reader.varint64.map fun n => { b with type := .ofInt (toInt32 n) })
  | 2 => some (18,(message ctx Alive.switch b.alive).map fun a => { b with content := .alive a })
  | 3 => some (26,(message ctx Dead.switch b.dead).map fun d => { b with content := .dead d })
  | 4 => some (34,(message ctx Suspect.switch b.suspect).map
      fun s => { b with content := .suspect s })
  | _ => none

def Broadcast.default : Broadcast := ⟨.aliveMsg,.notSet⟩

def ComBroadcast.switch : Switch ComBroadcast := fun c field =>
  match field with
  | 1 => some (10,(repeated ctx 10 (message ctx (Broadcast.switch ctx) .default) c.bs).map
      fun bs => { c with bs := bs })
  | _ => none

def MessageData.errResp (md : MessageData) : ErrResp :=
  match md.body with
  | .errResp e => e
  | _ => ⟨""⟩

def MessageData.switch : Switch MessageData := fun md field =>
  match field with
  | 1 => some (8,Reader.varint64.map fun n => { md with head := .ofInt (toInt32 n) })
  | 2 => some (18,(message ctx Ping.switch md.ping).map fun p => { md with body := .ping p })
  | 3 => some (26,(message ctx IndirectPing.switch md.indirectPing).map
      fun p => { md with body := .indirectPing p })
  | 4 => some (34,(message ctx AckResp.switch md.ackResp).map
      fun a => { md with body := .ackResp a })
  | 5 => some (42,(message ctx NackResp.switch md.nackResp).map
      fun n => { md with body := .nackResp n })
  | 6 => some (50,(message ctx (PushPull.switch ctx) md.pushPull).map
      fun p => { md with body := .pushPull p })
  | 7 => some (58,(message ctx (ComBroadcast.switch ctx) md.comBroadcast).map
      fun c => { md with body := .comBroadcast c })
  | 8 => some (66,(message ctx User.switch md.user).map fun u => { md with body := .user u })
  | 9 => some (74,(message ctx ErrResp.switch md.errResp).map
      fun e => { md with body := .errResp e })
  | _ => none

/-- `ParseFromString`, where it answers true. The unknown fields, which the generated code keeps
in `_internal_metadata_`, are left out. -/
def MessageData.parseFromString (bytes : List UInt8) : Option MessageData :=
  parse ctx (MessageData.switch ctx) .default bytes

end Nested

def BroadcastType.WellFormed (t : BroadcastType) : Prop := .ofInt (toInt32 t.code) = t

def PushNodeStateType.WellFormed (t : PushNodeStateType) : Prop := .ofInt (toInt32 t.code) = t

def MessageType.WellFormed (t : MessageType) : Prop := .ofInt (toInt32 t.code) = t

theorem toInt32_small {n : ℕ} (h : n < 2 ^ 31) : toInt32 n = n := by
  unfold toInt32
  split <;> omega

theorem toInt32_code (n : ℕ) : toInt32 (toInt32 n % 2 ^ 64).toNat = toInt32 n := by
  have hpos : (0 : ℤ) ≤ toInt32 n % 2 ^ 64 := Int.emod_nonneg _ (by decide)
  obtain ⟨m,hm⟩ := Int.eq_ofNat_of_zero_le hpos
  rw [hm,Int.toNat_natCast]
  unfold toInt32 at hm ⊢
  split at hm <;> split <;> omega

theorem BroadcastType.wellFormed_ofInt (n : ℕ) : (ofInt (toInt32 n)).WellFormed := by
  have hcode : toInt32 (ofInt (toInt32 n)).code = toInt32 n := by
    unfold ofInt
    split
    case h_4 => exact toInt32_code n
    all_goals
      rename_i h
      rw [h]
      exact toInt32_small (by decide)
  rw [WellFormed,hcode]

theorem PushNodeStateType.wellFormed_ofInt (n : ℕ) : (ofInt (toInt32 n)).WellFormed := by
  have hcode : toInt32 (ofInt (toInt32 n)).code = toInt32 n := by
    unfold ofInt
    split
    case h_5 => exact toInt32_code n
    all_goals
      rename_i h
      rw [h]
      exact toInt32_small (by decide)
  rw [WellFormed,hcode]

theorem MessageType.wellFormed_ofInt (n : ℕ) : (ofInt (toInt32 n)).WellFormed := by
  have hcode : toInt32 (ofInt (toInt32 n)).code = toInt32 n := by
    unfold ofInt
    split
    case h_9 => exact toInt32_code n
    all_goals
      rename_i h
      rw [h]
      exact toInt32_small (by decide)
  rw [WellFormed,hcode]

theorem isUint32_zero : IsUint32 0 := Nat.two_pow_pos 32

structure Alive.WellFormed (a : Alive) : Prop where
  incarnation : IsUint32 a.incarnation
  port : IsUint32 a.port

def Dead.WellFormed (d : Dead) : Prop := IsUint32 d.incarnation

def Suspect.WellFormed (s : Suspect) : Prop := IsUint32 s.incarnation

def Content.WellFormed : Content → Prop
  | .notSet => True
  | .alive a => a.WellFormed
  | .dead d => d.WellFormed
  | .suspect s => s.WellFormed

structure Broadcast.WellFormed (b : Broadcast) : Prop where
  type : b.type.WellFormed
  content : b.content.WellFormed

structure PushNodeState.WellFormed (s : PushNodeState) : Prop where
  port : IsUint32 s.port
  incarnation : IsUint32 s.incarnation
  state : s.state.WellFormed

structure Ping.WellFormed (p : Ping) : Prop where
  seqNo : IsUint32 p.seqNo
  sourcePort : IsUint32 p.sourcePort

structure IndirectPing.WellFormed (p : IndirectPing) : Prop where
  seqNo : IsUint32 p.seqNo
  targetPort : IsUint32 p.targetPort
  sourcePort : IsUint32 p.sourcePort

def Body.WellFormed : Body → Prop
  | .notSet => True
  | .ping p => p.WellFormed
  | .indirectPing p => p.WellFormed
  | .ackResp a => IsUint32 a.seqNo
  | .nackResp n => IsUint32 n.seqNo
  | .pushPull p => ∀ s ∈ p.states, s.WellFormed
  | .comBroadcast c => ∀ b ∈ c.bs, b.WellFormed
  | .user _ => True
  | .errResp _ => True

structure MessageData.WellFormed (md : MessageData) : Prop where
  head : md.head.WellFormed
  body : md.body.WellFormed

section Answers

variable {σ : Type} {bs : List UInt8}

theorem varint32_answers {f : ℕ → σ} {r : σ × List UInt8}
    (h : (Reader.varint32.map f).read bs = some r) : ∃ n, IsUint32 n ∧ r.1 = f n := by
  obtain ⟨n,hr,hread⟩ := Reader.of_map h
  obtain ⟨m,hm,_⟩ := Reader.of_map hread
  have hn : n = m % 2 ^ 32 := hm
  exact ⟨n,hn ▸ Nat.mod_lt _ (by decide),hr⟩

theorem map_answers {α : Type} {R : Reader α} {f : α → σ} {r : σ × List UInt8}
    (h : (R.map f).read bs = some r) : ∃ a, r.1 = f a := by
  obtain ⟨a,hr,_⟩ := Reader.of_map h
  exact ⟨a,hr⟩

theorem message_answers {τ : Type} {ctx : Context} {sw : Switch τ} {P : τ → Prop} {t : τ}
    {f : τ → σ} {r : σ × List UInt8} (hkeep : sw.Keeps P) (ht : P t)
    (h : ((message ctx sw t).map f).read bs = some r) : ∃ t', P t' ∧ r.1 = f t' := by
  obtain ⟨t',hr,hread⟩ := Reader.of_map h
  obtain ⟨part,hpart,_⟩ := Reader.of_filterMap hread
  exact ⟨t',parse_invariant hkeep ht hpart,hr⟩

theorem Alive.switch_keeps : Switch.Keeps switch WellFormed := by
  intro a k byte R ha hcase bs r hread
  unfold switch at hcase
  split at hcase <;> cases hcase
  · obtain ⟨n,hn,hr⟩ := varint32_answers hread
    exact hr ▸ ⟨hn,ha.port⟩
  · obtain ⟨t,hr⟩ := map_answers hread
    exact hr ▸ ⟨ha.incarnation,ha.port⟩
  · obtain ⟨t,hr⟩ := map_answers hread
    exact hr ▸ ⟨ha.incarnation,ha.port⟩
  · obtain ⟨n,hn,hr⟩ := varint32_answers hread
    exact hr ▸ ⟨ha.incarnation,hn⟩

theorem Dead.switch_keeps : Switch.Keeps switch WellFormed := by
  intro d k byte R hd hcase bs r hread
  unfold switch at hcase
  split at hcase <;> cases hcase
  · obtain ⟨n,hn,hr⟩ := varint32_answers hread
    exact hr ▸ hn
  · obtain ⟨t,hr⟩ := map_answers hread
    exact hr ▸ hd
  · obtain ⟨t,hr⟩ := map_answers hread
    exact hr ▸ hd

theorem Suspect.switch_keeps : Switch.Keeps switch WellFormed := by
  intro s k byte R hs hcase bs r hread
  unfold switch at hcase
  split at hcase <;> cases hcase
  · obtain ⟨n,hn,hr⟩ := varint32_answers hread
    exact hr ▸ hn
  · obtain ⟨t,hr⟩ := map_answers hread
    exact hr ▸ hs
  · obtain ⟨t,hr⟩ := map_answers hread
    exact hr ▸ hs

theorem PushNodeState.switch_keeps : Switch.Keeps switch WellFormed := by
  intro s k byte R hs hcase bs r hread
  unfold switch at hcase
  split at hcase <;> cases hcase
  · obtain ⟨t,hr⟩ := map_answers hread
    exact hr ▸ ⟨hs.port,hs.incarnation,hs.state⟩
  · obtain ⟨t,hr⟩ := map_answers hread
    exact hr ▸ ⟨hs.port,hs.incarnation,hs.state⟩
  · obtain ⟨n,hn,hr⟩ := varint32_answers hread
    exact hr ▸ ⟨hn,hs.incarnation,hs.state⟩
  · obtain ⟨n,hn,hr⟩ := varint32_answers hread
    exact hr ▸ ⟨hs.port,hn,hs.state⟩
  · obtain ⟨n,hr⟩ := map_answers hread
    exact hr ▸ ⟨hs.port,hs.incarnation,PushNodeStateType.wellFormed_ofInt n⟩

theorem Ping.switch_keeps : Switch.Keeps switch WellFormed := by
  intro p k byte R hp hcase bs r hread
  unfold switch at hcase
  split at hcase <;> cases hcase
  · obtain ⟨n,hn,hr⟩ := varint32_answers hread
    exact hr ▸ ⟨hn,hp.sourcePort⟩
  · obtain ⟨t,hr⟩ := map_answers hread
    exact hr ▸ ⟨hp.seqNo,hp.sourcePort⟩
  · obtain ⟨t,hr⟩ := map_answers hread
    exact hr ▸ ⟨hp.seqNo,hp.sourcePort⟩
  · obtain ⟨n,hn,hr⟩ := varint32_answers hread
    exact hr ▸ ⟨hp.seqNo,hn⟩
  · obtain ⟨t,hr⟩ := map_answers hread
    exact hr ▸ ⟨hp.seqNo,hp.sourcePort⟩

theorem IndirectPing.switch_keeps : Switch.Keeps switch WellFormed := by
  intro p k byte R hp hcase bs r hread
  unfold switch at hcase
  split at hcase <;> cases hcase
  · obtain ⟨n,hn,hr⟩ := varint32_answers hread
    exact hr ▸ ⟨hn,hp.targetPort,hp.sourcePort⟩
  · obtain ⟨t,hr⟩ := map_answers hread
    exact hr ▸ ⟨hp.seqNo,hp.targetPort,hp.sourcePort⟩
  · obtain ⟨t,hr⟩ := map_answers hread
    exact hr ▸ ⟨hp.seqNo,hp.targetPort,hp.sourcePort⟩
  · obtain ⟨n,hn,hr⟩ := varint32_answers hread
    exact hr ▸ ⟨hp.seqNo,hn,hp.sourcePort⟩
  · obtain ⟨n,hr⟩ := map_answers hread
    exact hr ▸ ⟨hp.seqNo,hp.targetPort,hp.sourcePort⟩
  · obtain ⟨t,hr⟩ := map_answers hread
    exact hr ▸ ⟨hp.seqNo,hp.targetPort,hp.sourcePort⟩
  · obtain ⟨n,hn,hr⟩ := varint32_answers hread
    exact hr ▸ ⟨hp.seqNo,hp.targetPort,hn⟩
  · obtain ⟨t,hr⟩ := map_answers hread
    exact hr ▸ ⟨hp.seqNo,hp.targetPort,hp.sourcePort⟩

theorem AckResp.switch_keeps : Switch.Keeps switch fun a => IsUint32 a.seqNo := by
  intro a k byte R _ hcase bs r hread
  unfold switch at hcase
  split at hcase <;> cases hcase
  obtain ⟨n,hn,hr⟩ := varint32_answers hread
  exact hr ▸ hn

theorem NackResp.switch_keeps : Switch.Keeps switch fun a => IsUint32 a.seqNo := by
  intro a k byte R _ hcase bs r hread
  unfold switch at hcase
  split at hcase <;> cases hcase
  obtain ⟨n,hn,hr⟩ := varint32_answers hread
  exact hr ▸ hn

end Answers

section Nested

variable (ctx : Context)

/-- The switch of `PushPull` with no loop of its own for the states. -/
def PushPull.plain : Switch PushPull := fun p field =>
  match field with
  | 2 => some (18,(message ctx PushNodeState.switch .default).map
      fun s => { p with states := p.states ++ [s] })
  | k => PushPull.switch ctx p k

def ComBroadcast.plain : Switch ComBroadcast := fun c field =>
  match field with
  | 1 => some (10,(message ctx (Broadcast.switch ctx) .default).map
      fun b => { c with bs := c.bs ++ [b] })
  | _ => none

def PushPull.slot : Slot PushPull PushNodeState :=
  ⟨PushPull.states,fun p states => { p with states := states },fun _ _ => rfl,fun _ _ _ => rfl⟩

def ComBroadcast.slot : Slot ComBroadcast Broadcast :=
  ⟨ComBroadcast.bs,fun c bs => { c with bs := bs },fun _ _ => rfl,fun _ _ _ => rfl⟩

theorem PushPull.unrolls : Unrolls ctx 18 (message ctx PushNodeState.switch .default) slot
    (switch ctx) (plain ctx) where
  small := by decide
  loop _ := rfl
  once _ := rfl
  other p k hk := by
    unfold plain
    split
    · exact absurd rfl hk
    · rfl

theorem ComBroadcast.unrolls : Unrolls ctx 10 (message ctx (Broadcast.switch ctx) .default) slot
    (switch ctx) (plain ctx) where
  small := by decide
  loop _ := rfl
  once _ := rfl
  other c k hk := by
    unfold plain switch
    split
    · exact absurd rfl hk
    · rfl

theorem PushPull.message_eq (p : PushPull) :
    message ctx (switch ctx) p = message ctx (plain ctx) p := by
  have hparse : parse ctx (switch ctx) p = parse ctx (plain ctx) p := by
    funext bs
    exact (unrolls ctx).parse p bs
  rw [message,hparse]
  rfl

theorem ComBroadcast.message_eq (c : ComBroadcast) :
    message ctx (switch ctx) c = message ctx (plain ctx) c := by
  have hparse : parse ctx (switch ctx) c = parse ctx (plain ctx) c := by
    funext bs
    exact (unrolls ctx).parse c bs
  rw [message,hparse]
  rfl

theorem PushNodeState.wellFormed_default : default.WellFormed :=
  ⟨isUint32_zero,isUint32_zero,PushNodeStateType.wellFormed_ofInt 0⟩

theorem Broadcast.wellFormed_default : default.WellFormed :=
  ⟨BroadcastType.wellFormed_ofInt 0,trivial⟩

section Available

variable (f : List UInt8 → Bool)

theorem message_available {σ : Type} (sw : Switch σ) :
    message { ctx with dataAvailable := f } sw = message ctx sw := by
  funext s
  rw [message,message,parse_available]

theorem PushPull.plain_available :
    PushPull.plain { ctx with dataAvailable := f } = PushPull.plain ctx := by
  funext p k
  unfold plain
  split
  · rw [message_available]
  · rename_i hk
    unfold switch
    split
    · rfl
    · exact absurd rfl hk
    · rfl

theorem Broadcast.switch_available :
    Broadcast.switch { ctx with dataAvailable := f } = Broadcast.switch ctx := by
  funext b k
  unfold switch
  split
  · rfl
  · rw [message_available]
  · rw [message_available]
  · rw [message_available]
  · rfl

theorem ComBroadcast.plain_available :
    ComBroadcast.plain { ctx with dataAvailable := f } = ComBroadcast.plain ctx := by
  funext c k
  unfold plain
  rw [Broadcast.switch_available,message_available]

theorem MessageData.switch_available :
    MessageData.switch { ctx with dataAvailable := f } = MessageData.switch ctx := by
  funext md k
  unfold switch
  rw [PushPull.message_eq,PushPull.message_eq,PushPull.plain_available,
    ComBroadcast.message_eq,ComBroadcast.message_eq,ComBroadcast.plain_available]
  simp only [message_available]

/-- However much of the input the library calls available, and so however far the loops
of the repeated fields run, the same message is read. -/
theorem MessageData.parse_dataAvailable (bytes : List UInt8) :
    MessageData.parseFromString { ctx with dataAvailable := f } bytes =
      MessageData.parseFromString ctx bytes := by
  rw [parseFromString,parseFromString,parse_available,switch_available]

end Available

section Known

variable (hknown : ∀ tag bs, ctx.unknownFieldParse tag bs = none) (ctx' : Context)

include hknown

theorem PushPull.plain_within : (plain ctx).Within (plain ctx') := by
  intro p k byte R h
  unfold plain at h ⊢
  split at h
  · cases h
    exact ⟨_,rfl,(message_within (.refl _) ctx' hknown _).map _⟩
  · rename_i hk
    unfold switch at h ⊢
    split at h
    · exact ⟨R,h,.refl R⟩
    · exact absurd rfl hk
    · cases h

theorem Broadcast.switch_within : (switch ctx).Within (switch ctx') := by
  intro b k byte R h
  unfold switch at h ⊢
  split at h
  · exact ⟨R,h,.refl R⟩
  all_goals cases h
  all_goals exact ⟨_,rfl,(message_within (.refl _) ctx' hknown _).map _⟩

theorem ComBroadcast.plain_within : (plain ctx).Within (plain ctx') := by
  intro c k byte R h
  unfold plain at h ⊢
  split at h <;> cases h
  exact ⟨_,rfl,(message_within (Broadcast.switch_within ctx hknown ctx') ctx' hknown _).map _⟩

theorem MessageData.switch_within : (switch ctx).Within (switch ctx') := by
  intro md k byte R h
  unfold switch at h ⊢
  rw [PushPull.message_eq,ComBroadcast.message_eq] at h ⊢
  split at h
  · exact ⟨R,h,.refl R⟩
  all_goals cases h
  case h_6 =>
    exact ⟨_,rfl,(message_within (PushPull.plain_within ctx hknown ctx') ctx' hknown _).map _⟩
  case h_7 =>
    exact ⟨_,rfl,(message_within (ComBroadcast.plain_within ctx hknown ctx') ctx' hknown _).map _⟩
  all_goals exact ⟨_,rfl,(message_within (.refl _) ctx' hknown _).map _⟩

/-- Where no unknown field comes up, it does not matter what the library does with one. -/
theorem MessageData.parse_known {bytes : List UInt8} {md : MessageData}
    (h : parseFromString ctx bytes = some md) : parseFromString ctx' bytes = some md :=
  parse_within (MessageData.switch_within ctx hknown ctx') ctx' hknown h

end Known

variable {ctx}

theorem PushPull.plain_keeps : (plain ctx).Keeps fun p => ∀ s ∈ p.states, s.WellFormed := by
  intro p k byte R hp hcase bs r hread
  unfold plain at hcase
  split at hcase
  · cases hcase
    obtain ⟨s,hs,hr⟩ := message_answers PushNodeState.switch_keeps
      PushNodeState.wellFormed_default hread
    rw [hr]
    intro t ht
    rcases List.mem_append.mp ht with hold | hnew
    · exact hp t hold
    · exact List.mem_singleton.mp hnew ▸ hs
  · rename_i hk
    unfold switch at hcase
    split at hcase
    · cases hcase
      obtain ⟨n,hr⟩ := map_answers hread
      exact hr ▸ hp
    · exact absurd rfl hk
    · cases hcase

theorem Broadcast.WellFormed.alive {b : Broadcast} (h : b.WellFormed) : b.alive.WellFormed := by
  unfold Broadcast.alive
  split
  · rename_i a ha
    have hb := h.content
    rwa [ha] at hb
  · exact ⟨isUint32_zero,isUint32_zero⟩

theorem Broadcast.WellFormed.dead {b : Broadcast} (h : b.WellFormed) : b.dead.WellFormed := by
  unfold Broadcast.dead
  split
  · rename_i d hd
    have hb := h.content
    rwa [hd] at hb
  · exact isUint32_zero

theorem Broadcast.WellFormed.suspect {b : Broadcast} (h : b.WellFormed) :
    b.suspect.WellFormed := by
  unfold Broadcast.suspect
  split
  · rename_i s hs
    have hb := h.content
    rwa [hs] at hb
  · exact isUint32_zero

theorem Broadcast.switch_keeps : (switch ctx).Keeps WellFormed := by
  intro b k byte R hb hcase bs r hread
  unfold switch at hcase
  split at hcase <;> cases hcase
  · obtain ⟨n,hr⟩ := map_answers hread
    exact hr ▸ ⟨BroadcastType.wellFormed_ofInt n,hb.content⟩
  · obtain ⟨a,ha,hr⟩ := message_answers Alive.switch_keeps hb.alive hread
    exact hr ▸ ⟨hb.type,ha⟩
  · obtain ⟨d,hd,hr⟩ := message_answers Dead.switch_keeps hb.dead hread
    exact hr ▸ ⟨hb.type,hd⟩
  · obtain ⟨s,hs,hr⟩ := message_answers Suspect.switch_keeps hb.suspect hread
    exact hr ▸ ⟨hb.type,hs⟩

theorem ComBroadcast.plain_keeps : (plain ctx).Keeps fun c => ∀ b ∈ c.bs, b.WellFormed := by
  intro c k byte R hc hcase bs r hread
  unfold plain at hcase
  split at hcase <;> cases hcase
  obtain ⟨b,hb,hr⟩ := message_answers Broadcast.switch_keeps Broadcast.wellFormed_default hread
  rw [hr]
  intro t ht
  rcases List.mem_append.mp ht with hold | hnew
  · exact hc t hold
  · exact List.mem_singleton.mp hnew ▸ hb

theorem MessageData.WellFormed.ping {md : MessageData} (h : md.WellFormed) :
    md.ping.WellFormed := by
  unfold MessageData.ping
  split
  · rename_i p hp
    have hbody := h.body
    rwa [hp] at hbody
  · exact ⟨isUint32_zero,isUint32_zero⟩

theorem MessageData.WellFormed.indirectPing {md : MessageData} (h : md.WellFormed) :
    md.indirectPing.WellFormed := by
  unfold MessageData.indirectPing
  split
  · rename_i p hp
    have hbody := h.body
    rwa [hp] at hbody
  · exact ⟨isUint32_zero,isUint32_zero,isUint32_zero⟩

theorem MessageData.WellFormed.ackResp {md : MessageData} (h : md.WellFormed) :
    IsUint32 md.ackResp.seqNo := by
  unfold MessageData.ackResp
  split
  · rename_i a ha
    have hbody := h.body
    rwa [ha] at hbody
  · exact isUint32_zero

theorem MessageData.WellFormed.nackResp {md : MessageData} (h : md.WellFormed) :
    IsUint32 md.nackResp.seqNo := by
  unfold MessageData.nackResp
  split
  · rename_i n hn
    have hbody := h.body
    rwa [hn] at hbody
  · exact isUint32_zero

theorem MessageData.WellFormed.pushPull {md : MessageData} (h : md.WellFormed) :
    ∀ s ∈ md.pushPull.states, s.WellFormed := by
  unfold MessageData.pushPull
  split
  · rename_i p hp
    have hbody := h.body
    rwa [hp] at hbody
  · exact fun s hs => absurd hs List.not_mem_nil

theorem MessageData.WellFormed.comBroadcast {md : MessageData} (h : md.WellFormed) :
    ∀ b ∈ md.comBroadcast.bs, b.WellFormed := by
  unfold MessageData.comBroadcast
  split
  · rename_i c hc
    have hbody := h.body
    rwa [hc] at hbody
  · exact fun b hb => absurd hb List.not_mem_nil

theorem MessageData.switch_keeps : (switch ctx).Keeps WellFormed := by
  intro md k byte R hmd hcase bs r hread
  unfold switch at hcase
  split at hcase <;> cases hcase
  · obtain ⟨n,hr⟩ := map_answers hread
    exact hr ▸ ⟨MessageType.wellFormed_ofInt n,hmd.body⟩
  · obtain ⟨p,hp,hr⟩ := message_answers Ping.switch_keeps hmd.ping hread
    exact hr ▸ ⟨hmd.head,hp⟩
  · obtain ⟨p,hp,hr⟩ := message_answers IndirectPing.switch_keeps hmd.indirectPing hread
    exact hr ▸ ⟨hmd.head,hp⟩
  · obtain ⟨a,ha,hr⟩ := message_answers AckResp.switch_keeps hmd.ackResp hread
    exact hr ▸ ⟨hmd.head,ha⟩
  · obtain ⟨n,hn,hr⟩ := message_answers NackResp.switch_keeps hmd.nackResp hread
    exact hr ▸ ⟨hmd.head,hn⟩
  · rw [PushPull.message_eq] at hread
    obtain ⟨p,hp,hr⟩ := message_answers PushPull.plain_keeps hmd.pushPull hread
    exact hr ▸ ⟨hmd.head,hp⟩
  · rw [ComBroadcast.message_eq] at hread
    obtain ⟨c,hc,hr⟩ := message_answers ComBroadcast.plain_keeps hmd.comBroadcast hread
    exact hr ▸ ⟨hmd.head,hc⟩
  · obtain ⟨u,hr⟩ := map_answers hread
    exact hr ▸ ⟨hmd.head,trivial⟩
  · obtain ⟨e,hr⟩ := map_answers hread
    exact hr ▸ ⟨hmd.head,trivial⟩

theorem MessageData.wellFormed_default : default.WellFormed :=
  ⟨MessageType.wellFormed_ofInt 0,trivial⟩

/-- No input is read as a message whose numbers do not fit. -/
theorem MessageData.wellFormed_of_parse {bytes : List UInt8} {md : MessageData}
    (h : parseFromString ctx bytes = some md) : md.WellFormed :=
  parse_invariant switch_keeps wellFormed_default h

end Nested

end GossipMemberlist
