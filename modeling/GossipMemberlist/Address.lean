import GossipMemberlist.Table

/-!
# Socket addresses

`inet_pton` for IPv4, the byte order of ports and `Node::FullAddr`. A record keeps
its address as text, so each use of it parses the text again.
-/

namespace GossipMemberlist

/-- Four octets in network byte order. -/
structure InAddr where
  a : UInt8
  b : UInt8
  c : UInt8
  d : UInt8
  deriving DecidableEq

structure SockaddrIn where
  sinPort : UInt16
  sinAddr : InAddr
  deriving DecidableEq

/-- `htons` of a little-endian host: the two bytes change places. -/
def htons (port : UInt16) : UInt16 :=
  UInt16.ofNat (port.toNat % 256 * 256 + port.toNat / 256)

/-- The bytes that a function taking a C string sees. -/
def cString (s : String) : List Char := s.toList.takeWhile (· ≠ '\x00')

/-- A decimal number from 0 to 255 without leading zeros. -/
def octet (digits : List Char) : Option UInt8 :=
  let value := digits.foldl (fun n c => 10 * n + (c.toNat - '0'.toNat)) 0
  if digits.all Char.isDigit ∧ value < 256 ∧ (digits.length = 1 ∨ digits.head? ≠ some '0') ∧
      digits ≠ [] then some (UInt8.ofNat value)
  else none

def splitDots : List Char → List (List Char)
  | [] => [[]]
  | '.'::cs => []::splitDots cs
  | c::cs =>
    match splitDots cs with
    | [] => [[c]]
    | piece::pieces => (c::piece)::pieces

def inetPton (src : String) : Option InAddr :=
  match splitDots (cString src) with
  | [a,b,c,d] => do some ⟨← octet a,← octet b,← octet c,← octet d⟩
  | _ => none

/-- `none` is the branch that ends the process with `exit(-1)`. -/
def Node.fullAddr (n : Node) : Option SockaddrIn :=
  (inetPton n.addr).map fun sinAddr => ⟨htons n.port,sinAddr⟩

theorem htons_toNat (port : UInt16) :
    (htons port).toNat = port.toNat % 256 * 256 + port.toNat / 256 := by
  have hlt := port.toNat_lt
  rw [htons,UInt16.toNat_ofNat']
  omega

theorem htons_eq_iff (port : UInt16) :
    htons port = port ↔ port.toNat % 256 = port.toNat / 256 := by
  have hlt := port.toNat_lt
  rw [← UInt16.toNat_inj,htons_toNat]
  omega

theorem fullAddr_isSome (n : Node) : n.fullAddr.isSome = (inetPton n.addr).isSome :=
  Option.isSome_map

example : inetPton "10.0.0.255" = some ⟨10,0,0,255⟩ := by decide +kernel

example : inetPton "10.0.0.256" = none ∧ inetPton "10.0.0" = none ∧ inetPton "10.0.0.01" = none :=
  by decide +kernel

end GossipMemberlist
