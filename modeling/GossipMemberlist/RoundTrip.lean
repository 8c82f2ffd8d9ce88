import GossipMemberlist.MessageParse

/-!
# Parsing what was serialized

A message is read back field by field: what is not written keeps its default, and
everything else advances the parser to the next field. What a parser accepts it
accepts again, unchanged, from its own serialization.
-/

namespace GossipMemberlist

open Wire

/-- An encoding that the parser has a size for. -/
def Small (fs : List Field) : Prop := (encode fs).length ≤ sizeMax

theorem Small.left {fs gs : List Field} (h : Small (fs ++ gs)) : Small fs := by
  rw [Small,encode_append,List.length_append] at h
  exact Nat.le_of_add_right_le h

theorem Small.right {fs gs : List Field} (h : Small (fs ++ gs)) : Small gs := by
  rw [Small,encode_append,List.length_append] at h
  exact Nat.le_of_add_left_le h

theorem Small.string {k : ℕ} {s : String} (h : Small (stringField k s)) :
    (utf8 s).length ≤ sizeMax := by
  unfold stringField at h
  split at h
  · rename_i hs
    rw [hs]
    exact Nat.zero_le _
  · simp only [Small,encode,List.flatMap_singleton,Field.encode,List.length_append] at h
    omega

theorem Small.message {k : ℕ} {fs : List Field} (h : Small (messageField k fs)) : Small fs := by
  simp only [Small,messageField,encode,List.flatMap_singleton,Field.encode,
    List.length_append] at h
  simp only [Small,encode]
  omega

theorem Small.messages {α : Type} {k : ℕ} {g : α → List Field} {x : α} {xs : List α}
    (h : Small ((x::xs).flatMap fun x => messageField k (g x))) :
    Small (g x) ∧ Small (xs.flatMap fun x => messageField k (g x)) := by
  rw [List.flatMap_cons] at h
  exact ⟨h.left.message,h.right⟩

section Fields

variable {σ τ : Type} {ctx : Context} {sw : Switch σ} {s s' s'' : σ} {k n : ℕ}

theorem advances_number {R : Reader ℕ} {f : ℕ → σ} (hk : Knows sw s k 0 (R.map f))
    (hread : ∀ rest, R.read (varint n ++ rest) = some (n,rest)) (hzero : f 0 = s)
    (hvalue : f n = s') : Advances ctx sw s (encode (uintField k n)) s' := by
  subst hvalue
  unfold uintField
  split
  · rename_i h
    rw [h,hzero]
    exact .nil
  · rw [encode,List.flatMap_singleton]
    refine hk.advances fun rest => ?_
    rw [Reader.map,Reader.filterMap_read (hread rest),Option.map_some]

theorem advances_uint {f : ℕ → σ} (hk : Knows sw s k 0 (Reader.varint32.map f))
    (hn : IsUint32 n) (hzero : f 0 = s) (hvalue : f n = s') :
    Advances ctx sw s (encode (uintField k n)) s' :=
  advances_number hk (Reader.varint32_varint hn) hzero hvalue

theorem advances_code {f : ℕ → σ} (hk : Knows sw s k 0 (Reader.varint64.map f))
    (hn : n < 2 ^ 64) (hzero : f 0 = s) (hvalue : f n = s') :
    Advances ctx sw s (encode (uintField k n)) s' :=
  advances_number hk (Reader.varint64_varint hn) hzero hvalue

theorem advances_string {f : String → σ} {t : String} (hk : Knows sw s k 2 (str.map f))
    (ht : Small (stringField k t)) (hempty : f "" = s) (hvalue : f t = s') :
    Advances ctx sw s (encode (stringField k t)) s' := by
  have hsize := ht.string
  subst hvalue
  unfold stringField
  split
  · rename_i h
    rw [h,hempty]
    exact .nil
  · rw [encode,List.flatMap_singleton]
    refine hk.advances fun rest => ?_
    have hread : str.read (varint (utf8 t).length ++ utf8 t ++ rest) = some (t,rest) := by
      rw [List.append_assoc,str,Reader.filterMap_read (Reader.bytes_bytes hsize rest),
        fromUTF8_utf8,Option.map_some]
    rw [Reader.map,Reader.filterMap_read hread,Option.map_some]

theorem advances_message {sub : Switch τ} {t t' : τ} {f : τ → σ} {fs : List Field}
    (hk : Knows sw s k 2 ((message ctx sub t).map f)) (hfs : Small (messageField k fs))
    (hparse : Advances ctx sub t (encode fs) t') (hvalue : f t' = s') :
    Advances ctx sw s (encode (messageField k fs)) s' := by
  subst hvalue
  rw [messageField,encode,List.flatMap_singleton]
  refine hk.advances fun rest => ?_
  have hread : (message ctx sub t).read (varint (encode fs).length ++ encode fs ++ rest) =
      some (t',rest) := by
    rw [List.append_assoc,message,
      Reader.filterMap_read (Reader.bytes_bytes hfs.message rest),hparse.parse,Option.map_some]
  rw [Reader.map,Reader.filterMap_read hread,Option.map_some]

theorem advances_messages {α : Type} {slot : Slot σ τ} {sub : Switch τ} {t : τ} {g : α → List Field}
    {value : α → τ} {xs : List α}
    (hk : ∀ s, Knows sw s k 2 ((message ctx sub t).map fun t => slot.put s (slot.get s ++ [t])))
    (hput : ∀ s, slot.put s (slot.get s) = s)
    (hparse : ∀ x ∈ xs, Small (g x) → Advances ctx sub t (encode (g x)) (value x))
    (hsmall : Small (xs.flatMap fun x => messageField k (g x))) :
    Advances ctx sw s (encode (xs.flatMap fun x => messageField k (g x)))
      (slot.put s (slot.get s ++ xs.map value)) := by
  induction xs generalizing s with
  | nil =>
    rw [List.map_nil,List.append_nil,hput]
    exact .nil
  | cons x xs ih =>
    have hx : Advances ctx sw s (encode (messageField k (g x)))
        (slot.put s (slot.get s ++ [value x])) := by
      rw [List.flatMap_cons] at hsmall
      exact advances_message (hk s) hsmall.left
        (hparse x List.mem_cons_self hsmall.left.message) rfl
    have hxs := ih (s := slot.put s (slot.get s ++ [value x]))
      (fun y hy => hparse y (List.mem_cons_of_mem x hy)) hsmall.messages.2
    rw [slot.get_put,slot.put_put,List.append_assoc,List.singleton_append,
      ← List.map_cons] at hxs
    rw [List.flatMap_cons]
    exact hx.fields hxs

end Fields

section Messages

variable {ctx : Context}

theorem Alive.advances {a : Alive} (h : a.WellFormed) (hs : Small a.fields) :
    Advances ctx switch ⟨0,"","",0⟩ (encode a.fields) a := by
  obtain ⟨incarnation,node,addr,port⟩ := a
  have hincarnation : IsUint32 incarnation := h.incarnation
  have hport : IsUint32 port := h.port
  have h1 : Advances ctx switch ⟨0,"","",0⟩ (encode (uintField 1 incarnation))
      ⟨incarnation,"","",0⟩ :=
    advances_uint ⟨rfl,by decide,by decide⟩ hincarnation rfl rfl
  have h2 : Advances ctx switch ⟨incarnation,"","",0⟩ (encode (stringField 2 node))
      ⟨incarnation,node,"",0⟩ :=
    advances_string ⟨rfl,by decide,by decide⟩ hs.left.left.right rfl rfl
  have h3 : Advances ctx switch ⟨incarnation,node,"",0⟩ (encode (stringField 3 addr))
      ⟨incarnation,node,addr,0⟩ :=
    advances_string ⟨rfl,by decide,by decide⟩ hs.left.right rfl rfl
  have h4 : Advances ctx switch ⟨incarnation,node,addr,0⟩ (encode (uintField 4 port))
      ⟨incarnation,node,addr,port⟩ :=
    advances_uint ⟨rfl,by decide,by decide⟩ hport rfl rfl
  exact ((h1.fields h2).fields h3).fields h4

theorem Dead.advances {d : Dead} (h : d.WellFormed) (hs : Small d.fields) :
    Advances ctx switch ⟨0,"",""⟩ (encode d.fields) d := by
  obtain ⟨incarnation,node,from_⟩ := d
  have hincarnation : IsUint32 incarnation := h
  have h1 : Advances ctx switch ⟨0,"",""⟩ (encode (uintField 1 incarnation))
      ⟨incarnation,"",""⟩ :=
    advances_uint ⟨rfl,by decide,by decide⟩ hincarnation rfl rfl
  have h2 : Advances ctx switch ⟨incarnation,"",""⟩ (encode (stringField 2 node))
      ⟨incarnation,node,""⟩ :=
    advances_string ⟨rfl,by decide,by decide⟩ hs.left.right rfl rfl
  have h3 : Advances ctx switch ⟨incarnation,node,""⟩ (encode (stringField 3 from_))
      ⟨incarnation,node,from_⟩ :=
    advances_string ⟨rfl,by decide,by decide⟩ hs.right rfl rfl
  exact (h1.fields h2).fields h3

theorem Suspect.advances {s : Suspect} (h : s.WellFormed) (hs : Small s.fields) :
    Advances ctx switch ⟨0,"",""⟩ (encode s.fields) s := by
  obtain ⟨incarnation,node,from_⟩ := s
  have hincarnation : IsUint32 incarnation := h
  have h1 : Advances ctx switch ⟨0,"",""⟩ (encode (uintField 1 incarnation))
      ⟨incarnation,"",""⟩ :=
    advances_uint ⟨rfl,by decide,by decide⟩ hincarnation rfl rfl
  have h2 : Advances ctx switch ⟨incarnation,"",""⟩ (encode (stringField 2 node))
      ⟨incarnation,node,""⟩ :=
    advances_string ⟨rfl,by decide,by decide⟩ hs.left.right rfl rfl
  have h3 : Advances ctx switch ⟨incarnation,node,""⟩ (encode (stringField 3 from_))
      ⟨incarnation,node,from_⟩ :=
    advances_string ⟨rfl,by decide,by decide⟩ hs.right rfl rfl
  exact (h1.fields h2).fields h3

theorem Ping.advances {p : Ping} (h : p.WellFormed) (hs : Small p.fields) :
    Advances ctx switch ⟨0,"","",0,""⟩ (encode p.fields) p := by
  obtain ⟨seqNo,node,sourceAddr,sourcePort,sourceNode⟩ := p
  have hseqNo : IsUint32 seqNo := h.seqNo
  have hsourcePort : IsUint32 sourcePort := h.sourcePort
  have h1 : Advances ctx switch ⟨0,"","",0,""⟩ (encode (uintField 1 seqNo))
      ⟨seqNo,"","",0,""⟩ :=
    advances_uint ⟨rfl,by decide,by decide⟩ hseqNo rfl rfl
  have h2 : Advances ctx switch ⟨seqNo,"","",0,""⟩ (encode (stringField 2 node))
      ⟨seqNo,node,"",0,""⟩ :=
    advances_string ⟨rfl,by decide,by decide⟩ hs.left.left.left.right rfl rfl
  have h3 : Advances ctx switch ⟨seqNo,node,"",0,""⟩ (encode (stringField 3 sourceAddr))
      ⟨seqNo,node,sourceAddr,0,""⟩ :=
    advances_string ⟨rfl,by decide,by decide⟩ hs.left.left.right rfl rfl
  have h4 : Advances ctx switch ⟨seqNo,node,sourceAddr,0,""⟩ (encode (uintField 4 sourcePort))
      ⟨seqNo,node,sourceAddr,sourcePort,""⟩ :=
    advances_uint ⟨rfl,by decide,by decide⟩ hsourcePort rfl rfl
  have h5 : Advances ctx switch ⟨seqNo,node,sourceAddr,sourcePort,""⟩ (encode (stringField 5 sourceNode))
      ⟨seqNo,node,sourceAddr,sourcePort,sourceNode⟩ :=
    advances_string ⟨rfl,by decide,by decide⟩ hs.right rfl rfl
  exact (((h1.fields h2).fields h3).fields h4).fields h5

theorem IndirectPing.advances {p : IndirectPing} (h : p.WellFormed) (hs : Small p.fields) :
    Advances ctx switch ⟨0,"","",0,false,"",0,""⟩ (encode p.fields) p := by
  obtain ⟨seqNo,node,targetAddr,targetPort,nack,sourceAddr,sourcePort,sourceNode⟩ := p
  have hseqNo : IsUint32 seqNo := h.seqNo
  have htargetPort : IsUint32 targetPort := h.targetPort
  have hsourcePort : IsUint32 sourcePort := h.sourcePort
  have hnack : nack.toNat < 2 ^ 64 := Nat.lt_of_le_of_lt (Bool.toNat_le nack) (by decide)
  have h1 : Advances ctx switch ⟨0,"","",0,false,"",0,""⟩ (encode (uintField 1 seqNo))
      ⟨seqNo,"","",0,false,"",0,""⟩ :=
    advances_uint ⟨rfl,by decide,by decide⟩ hseqNo rfl rfl
  have h2 : Advances ctx switch ⟨seqNo,"","",0,false,"",0,""⟩ (encode (stringField 2 node))
      ⟨seqNo,node,"",0,false,"",0,""⟩ :=
    advances_string ⟨rfl,by decide,by decide⟩ hs.left.left.left.left.left.left.right rfl rfl
  have h3 : Advances ctx switch ⟨seqNo,node,"",0,false,"",0,""⟩
      (encode (stringField 3 targetAddr)) ⟨seqNo,node,targetAddr,0,false,"",0,""⟩ :=
    advances_string ⟨rfl,by decide,by decide⟩ hs.left.left.left.left.left.right rfl rfl
  have h4 : Advances ctx switch ⟨seqNo,node,targetAddr,0,false,"",0,""⟩
      (encode (uintField 4 targetPort)) ⟨seqNo,node,targetAddr,targetPort,false,"",0,""⟩ :=
    advances_uint ⟨rfl,by decide,by decide⟩ htargetPort rfl rfl
  have h5 : Advances ctx switch ⟨seqNo,node,targetAddr,targetPort,false,"",0,""⟩
      (encode (uintField 5 nack.toNat)) ⟨seqNo,node,targetAddr,targetPort,nack,"",0,""⟩ :=
    advances_code ⟨rfl,by decide,by decide⟩ hnack rfl (by cases nack <;> rfl)
  have h6 : Advances ctx switch ⟨seqNo,node,targetAddr,targetPort,nack,"",0,""⟩
      (encode (stringField 6 sourceAddr))
      ⟨seqNo,node,targetAddr,targetPort,nack,sourceAddr,0,""⟩ :=
    advances_string ⟨rfl,by decide,by decide⟩ hs.left.left.right rfl rfl
  have h7 : Advances ctx switch ⟨seqNo,node,targetAddr,targetPort,nack,sourceAddr,0,""⟩
      (encode (uintField 7 sourcePort))
      ⟨seqNo,node,targetAddr,targetPort,nack,sourceAddr,sourcePort,""⟩ :=
    advances_uint ⟨rfl,by decide,by decide⟩ hsourcePort rfl rfl
  have h8 : Advances ctx switch ⟨seqNo,node,targetAddr,targetPort,nack,sourceAddr,sourcePort,""⟩
      (encode (stringField 8 sourceNode))
      ⟨seqNo,node,targetAddr,targetPort,nack,sourceAddr,sourcePort,sourceNode⟩ :=
    advances_string ⟨rfl,by decide,by decide⟩ hs.right rfl rfl
  exact ((((((h1.fields h2).fields h3).fields h4).fields h5).fields h6).fields h7).fields h8

theorem PushNodeStateType.code_lt (t : PushNodeStateType) : t.code < 2 ^ 64 := by
  cases t with
  | unrecognized value =>
    have hlt := Int.emod_lt_of_pos value (show (0 : ℤ) < 2 ^ 64 by decide)
    rw [code]
    omega
  | _ => decide

theorem BroadcastType.code_lt (t : BroadcastType) : t.code < 2 ^ 64 := by
  cases t with
  | unrecognized value =>
    have hlt := Int.emod_lt_of_pos value (show (0 : ℤ) < 2 ^ 64 by decide)
    rw [code]
    omega
  | _ => decide

theorem MessageType.code_lt (t : MessageType) : t.code < 2 ^ 64 := by
  cases t with
  | unrecognized value =>
    have hlt := Int.emod_lt_of_pos value (show (0 : ℤ) < 2 ^ 64 by decide)
    rw [code]
    omega
  | _ => decide

theorem PushNodeState.advances {s : PushNodeState} (h : s.WellFormed) (hs : Small s.fields) :
    Advances ctx switch .default (encode s.fields) s := by
  obtain ⟨name,addr,port,incarnation,state⟩ := s
  have hport : IsUint32 port := h.port
  have hincarnation : IsUint32 incarnation := h.incarnation
  have hstate : PushNodeStateType.ofInt (toInt32 state.code) = state := h.state
  have h1 : Advances ctx switch .default (encode (stringField 1 name))
      ⟨name,"",0,0,.stateAlive⟩ :=
    advances_string ⟨rfl,by decide,by decide⟩ hs.left.left.left.left rfl rfl
  have h2 : Advances ctx switch ⟨name,"",0,0,.stateAlive⟩ (encode (stringField 2 addr))
      ⟨name,addr,0,0,.stateAlive⟩ :=
    advances_string ⟨rfl,by decide,by decide⟩ hs.left.left.left.right rfl rfl
  have h3 : Advances ctx switch ⟨name,addr,0,0,.stateAlive⟩ (encode (uintField 3 port))
      ⟨name,addr,port,0,.stateAlive⟩ :=
    advances_uint ⟨rfl,by decide,by decide⟩ hport rfl rfl
  have h4 : Advances ctx switch ⟨name,addr,port,0,.stateAlive⟩ (encode (uintField 4 incarnation))
      ⟨name,addr,port,incarnation,.stateAlive⟩ :=
    advances_uint ⟨rfl,by decide,by decide⟩ hincarnation rfl rfl
  have h5 : Advances ctx switch ⟨name,addr,port,incarnation,.stateAlive⟩
      (encode (uintField 5 state.code)) ⟨name,addr,port,incarnation,state⟩ :=
    advances_code ⟨rfl,by decide,by decide⟩ state.code_lt rfl (by rw [hstate])
  exact (((h1.fields h2).fields h3).fields h4).fields h5

theorem Broadcast.advances {b : Broadcast} (h : b.WellFormed) (hs : Small b.fields) :
    Advances ctx (switch ctx) .default (encode b.fields) b := by
  obtain ⟨type,content⟩ := b
  have htype : BroadcastType.ofInt (toInt32 type.code) = type := h.type
  have hcontent : content.WellFormed := h.content
  have h1 : Advances ctx (switch ctx) .default (encode (uintField 1 type.code)) ⟨type,.notSet⟩ :=
    advances_code ⟨rfl,by decide,by decide⟩ type.code_lt rfl (by rw [htype]; rfl)
  have h2 : Advances ctx (switch ctx) ⟨type,.notSet⟩ (encode content.fields) ⟨type,content⟩ := by
    cases content with
    | notSet => exact .nil
    | alive a =>
      exact advances_message ⟨rfl,by decide,by decide⟩ hs.right
        (a.advances hcontent hs.right.message) rfl
    | dead d =>
      exact advances_message ⟨rfl,by decide,by decide⟩ hs.right
        (d.advances hcontent hs.right.message) rfl
    | suspect s =>
      exact advances_message ⟨rfl,by decide,by decide⟩ hs.right
        (s.advances hcontent hs.right.message) rfl
  exact h1.fields h2

theorem PushPull.advances {p : PushPull} (h : ∀ s ∈ p.states, s.WellFormed)
    (hs : Small p.fields) : Advances ctx (plain ctx) ⟨false,[]⟩ (encode p.fields) p := by
  obtain ⟨join,states⟩ := p
  have hjoin : join.toNat < 2 ^ 64 := Nat.lt_of_le_of_lt (Bool.toNat_le join) (by decide)
  have h1 : Advances ctx (plain ctx) ⟨false,[]⟩ (encode (uintField 1 join.toNat)) ⟨join,[]⟩ :=
    advances_code ⟨rfl,by decide,by decide⟩ hjoin rfl (by cases join <;> rfl)
  have h2 : Advances ctx (plain ctx) ⟨join,[]⟩
      (encode (states.flatMap fun s => messageField 2 s.fields)) ⟨join,states⟩ := by
    have hall : Advances ctx (plain ctx) ⟨join,[]⟩
        (encode (states.flatMap fun s => messageField 2 s.fields))
        (slot.put ⟨join,[]⟩ (slot.get ⟨join,[]⟩ ++ states.map id)) :=
      advances_messages (fun _ => ⟨rfl,by decide,by decide⟩) (fun _ => rfl)
        (fun s hmem => s.advances (h s hmem)) hs.right
    rwa [List.map_id] at hall
  exact h1.fields h2

theorem ComBroadcast.advances {c : ComBroadcast} (h : ∀ b ∈ c.bs, b.WellFormed)
    (hs : Small c.fields) : Advances ctx (plain ctx) ⟨[]⟩ (encode c.fields) c := by
  have hall : Advances ctx (plain ctx) ⟨[]⟩ (encode (c.bs.flatMap fun b => messageField 1 b.fields))
      (slot.put ⟨[]⟩ (slot.get ⟨[]⟩ ++ c.bs.map id)) :=
    advances_messages (fun _ => ⟨rfl,by decide,by decide⟩) (fun _ => rfl)
      (fun b hmem => b.advances (h b hmem)) hs
  rwa [List.map_id] at hall

theorem AckResp.advances {a : AckResp} (h : IsUint32 a.seqNo) :
    Advances ctx switch ⟨0⟩ (encode (uintField 1 a.seqNo)) a :=
  advances_uint ⟨rfl,by decide,by decide⟩ h rfl rfl

theorem NackResp.advances {n : NackResp} (h : IsUint32 n.seqNo) :
    Advances ctx switch ⟨0⟩ (encode (uintField 1 n.seqNo)) n :=
  advances_uint ⟨rfl,by decide,by decide⟩ h rfl rfl

theorem User.advances {u : User} (hs : Small (stringField 1 u.msg)) :
    Advances ctx switch ⟨""⟩ (encode (stringField 1 u.msg)) u :=
  advances_string ⟨rfl,by decide,by decide⟩ hs rfl rfl

theorem ErrResp.advances {e : ErrResp} (hs : Small (stringField 1 e.error)) :
    Advances ctx switch ⟨""⟩ (encode (stringField 1 e.error)) e :=
  advances_string ⟨rfl,by decide,by decide⟩ hs rfl rfl

theorem Body.advances {head : MessageType} {body : Body} (h : body.WellFormed)
    (hs : Small body.fields) :
    Advances ctx (MessageData.switch ctx) ⟨head,.notSet⟩ (encode body.fields) ⟨head,body⟩ := by
  cases body with
  | notSet => exact .nil
  | ping p =>
    exact advances_message ⟨rfl,by decide,by decide⟩ hs (p.advances h hs.message) rfl
  | indirectPing p =>
    exact advances_message ⟨rfl,by decide,by decide⟩ hs (p.advances h hs.message) rfl
  | ackResp a => exact advances_message ⟨rfl,by decide,by decide⟩ hs (AckResp.advances h) rfl
  | nackResp n => exact advances_message ⟨rfl,by decide,by decide⟩ hs (NackResp.advances h) rfl
  | pushPull p =>
    have hk : Knows (MessageData.switch ctx) ⟨head,.notSet⟩ 6 2
        ((message ctx (PushPull.plain ctx) ⟨false,[]⟩).map fun p => ⟨head,.pushPull p⟩) := by
      rw [← PushPull.message_eq]
      exact ⟨rfl,by decide,by decide⟩
    exact advances_message hk hs (p.advances h hs.message) rfl
  | comBroadcast c =>
    have hk : Knows (MessageData.switch ctx) ⟨head,.notSet⟩ 7 2
        ((message ctx (ComBroadcast.plain ctx) ⟨[]⟩).map fun c => ⟨head,.comBroadcast c⟩) := by
      rw [← ComBroadcast.message_eq]
      exact ⟨rfl,by decide,by decide⟩
    exact advances_message hk hs (c.advances h hs.message) rfl
  | user u => exact advances_message ⟨rfl,by decide,by decide⟩ hs (User.advances hs.message) rfl
  | errResp e =>
    exact advances_message ⟨rfl,by decide,by decide⟩ hs (ErrResp.advances hs.message) rfl

namespace MessageData

theorem advances_head (head : MessageType) (h : head.WellFormed) :
    Advances ctx (switch ctx) .default (encode (uintField 1 head.code)) ⟨head,.notSet⟩ := by
  have hhead : MessageType.ofInt (toInt32 head.code) = head := h
  exact advances_code ⟨rfl,by decide,by decide⟩ head.code_lt rfl (by rw [hhead]; rfl)

/-- The parser inverts the serializer on every message that fits. -/
theorem parse_serialize {md : MessageData} (h : md.WellFormed)
    (hs : md.serialize.length ≤ sizeMax) : parseFromString ctx md.serialize = some md := by
  have hsmall : Small (uintField 1 md.head.code ++ md.body.fields) := hs
  have hbody : Advances ctx (switch ctx) ⟨md.head,.notSet⟩ (encode md.body.fields) md :=
    Body.advances h.body hsmall.right
  exact ((advances_head md.head h.head).fields hbody).parse

/-- What is accepted without an unknown field fits, every library reads it alike, and its own
serialization is accepted as the same message. -/
theorem parse_canonical (ctx : Context) {bytes : List UInt8} {md : MessageData}
    (h : parseFromString .strict bytes = some md) (hs : md.serialize.length ≤ sizeMax) :
    md.WellFormed ∧ parseFromString ctx bytes = some md ∧
      parseFromString ctx md.serialize = some md :=
  ⟨wellFormed_of_parse h,parse_known .strict (fun _ _ => rfl) ctx h,
    parse_serialize (wellFormed_of_parse h) hs⟩

/-- The acknowledgement comes before the head, then once more with a long varint. -/
theorem parse_canonical_merged : (genAckResp 7).WellFormed ∧
    parseFromString .strict [34,2,8,9,8,2,34,3,8,135,0] = some (genAckResp 7) ∧
      parseFromString .strict (genAckResp 7).serialize = some (genAckResp 7) :=
  parse_canonical .strict
    (show parseFromString .strict [34,2,8,9,8,2,34,3,8,135,0] = some (genAckResp 7)
      by decide +kernel) (by decide +kernel)

end MessageData

end Messages

end GossipMemberlist
