import Mathlib.Algebra.Order.Ring.Int

/-!
# Gossip messages

The protocol-buffer messages of the membership protocol and the functions that
build them. A `uint32` field is a natural number: the member only copies and
compares these, and the arithmetic that can wrap is written out where it occurs.
Enumerations are open on the wire, so a received one may be unrecognized.
-/

namespace GossipMemberlist

/-- Broadcast when a node is known to be alive; overloaded for nodes joining. -/
structure Alive where
  incarnation : ℕ
  node : String
  addr : String
  port : ℕ
  deriving DecidableEq

/-- Broadcast when a node is suspected to be dead. -/
structure Suspect where
  incarnation : ℕ
  node : String
  from_ : String
  deriving DecidableEq

/-- Broadcast when a node is confirmed dead; overloaded for nodes leaving. -/
structure Dead where
  incarnation : ℕ
  node : String
  from_ : String
  deriving DecidableEq

inductive BroadcastType
  | aliveMsg | deadMsg | suspectMsg | unrecognized (value : ℤ)
  deriving DecidableEq

inductive Content
  | notSet | alive (a : Alive) | dead (d : Dead) | suspect (s : Suspect)
  deriving DecidableEq

structure Broadcast where
  type : BroadcastType
  content : Content
  deriving DecidableEq

namespace Broadcast

/-- Reading a field of the `oneof` that is not set gives its default message. -/
def alive (b : Broadcast) : Alive :=
  match b.content with
  | .alive a => a
  | _ => ⟨0,"","",0⟩

def dead (b : Broadcast) : Dead :=
  match b.content with
  | .dead d => d
  | _ => ⟨0,"",""⟩

def suspect (b : Broadcast) : Suspect :=
  match b.content with
  | .suspect s => s
  | _ => ⟨0,"",""⟩

end Broadcast

def genAliveBroadcast (a : Alive) : Broadcast := ⟨.aliveMsg,.alive a⟩

def genSuspectBroadcast (s : Suspect) : Broadcast := ⟨.suspectMsg,.suspect s⟩

def genDeadBroadcast (d : Dead) : Broadcast := ⟨.deadMsg,.dead d⟩

@[simp] theorem genAliveBroadcast_alive (a : Alive) : (genAliveBroadcast a).alive = a := rfl
@[simp] theorem genSuspectBroadcast_suspect (s : Suspect) :
    (genSuspectBroadcast s).suspect = s := rfl
@[simp] theorem genDeadBroadcast_dead (d : Dead) : (genDeadBroadcast d).dead = d := rfl

inductive PushNodeStateType
  | stateAlive | stateSuspect | stateDead | stateLeft | unrecognized (value : ℤ)
  deriving DecidableEq

structure PushNodeState where
  name : String
  addr : String
  port : ℕ
  incarnation : ℕ
  state : PushNodeStateType
  deriving DecidableEq

structure PushPull where
  join : Bool
  states : List PushNodeState
  deriving DecidableEq

def varintSize (n : ℕ) : ℕ := n.log2 / 7 + 1

/-- A `uint32` field with a one-byte tag; the default value is not written. -/
def uint32FieldSize (n : ℕ) : ℕ := if n = 0 then 0 else 1 + varintSize n

def stringFieldSize (s : String) : ℕ :=
  if s.isEmpty then 0 else 1 + varintSize s.utf8ByteSize + s.utf8ByteSize

/-- An embedded message with a one-byte tag; it is written even when empty. -/
def messageFieldSize (n : ℕ) : ℕ := 1 + varintSize n + n

/-- A negative enumerator is sign-extended to ten varint bytes. -/
def BroadcastType.fieldSize : BroadcastType → ℕ
  | .aliveMsg => 0
  | .deadMsg => 2
  | .suspectMsg => 2
  | .unrecognized value => if value < 0 then 11 else 1 + varintSize value.toNat

def Alive.byteSizeLong (a : Alive) : ℕ :=
  uint32FieldSize a.incarnation + stringFieldSize a.node + stringFieldSize a.addr +
    uint32FieldSize a.port

def Dead.byteSizeLong (d : Dead) : ℕ :=
  uint32FieldSize d.incarnation + stringFieldSize d.node + stringFieldSize d.from_

def Suspect.byteSizeLong (s : Suspect) : ℕ :=
  uint32FieldSize s.incarnation + stringFieldSize s.node + stringFieldSize s.from_

def Broadcast.byteSizeLong (b : Broadcast) : ℕ :=
  b.type.fieldSize + match b.content with
    | .notSet => 0
    | .alive a => messageFieldSize a.byteSizeLong
    | .dead d => messageFieldSize d.byteSizeLong
    | .suspect s => messageFieldSize s.byteSizeLong

end GossipMemberlist
