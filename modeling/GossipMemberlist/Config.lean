import GossipMemberlist.Messages

/-!
# Configuration and numeric helpers

The fields of `Config` that the membership logic reads. The results of double
arithmetic that the code converts back to integers are parameters: no theorem
depends on how the logarithms round.
-/

namespace GossipMemberlist

structure Config where
  name : String
  advertiseAddr : String
  advertisePort : UInt16
  retransmitMult : ℕ
  suspicionMult : ℕ
  suspicionMaxTimeoutMult : ℕ
  probeInterval : ℤ
  /-- Time before a dead node's name can be reclaimed at a different address or
  port; zero means that it cannot. -/
  deadNodeReclaimTime : ℤ

/-- `DefaultLANConfig` on a host of this name; times are in microseconds. -/
def defaultLANConfig (hostname : String) : Config :=
  ⟨hostname,"",6666,4,4,6,1000000,10000000⟩

/-- The integers the code obtains from double-precision logarithms. -/
structure Floats where
  /-- `ceil(log10(n))` as a `uint32_t`. -/
  ceilLog10 : ℕ → ℕ
  /-- `mult * max(1.0, log10(1 + n)) * interval` as an `int64_t`. -/
  scaledTimeout : ℕ → ℕ → ℤ → ℤ
  /-- `max - log(n + 1) / log(k + 1) * (max - min)` as an `int64_t`. -/
  confirmTimeout : ℕ → ℕ → ℤ → ℤ → ℤ

/-- What the logarithms come to, to fifteen digits, in a cluster of at most nine members that
expects at most two confirmations. For `k = 0` the quotient is infinite, and its conversion
gives the smallest `int64_t`. -/
def Floats.small : Floats where
  ceilLog10 n := if n ≤ 1 then 0 else 1
  scaledTimeout mult _ interval := mult * interval
  confirmTimeout n k min max :=
    let frac : ℤ := match n, k with
      | 0, _ => 0
      | 1, 2 => 630929753571457
      | 2, 1 => 1584962500721156
      | 3, 2 => 1261859507142915
      | _, _ => 10 ^ 15
    if k = 0 then -2 ^ 63 else (max * 10 ^ 15 - frac * (max - min)).tdiv (10 ^ 15)

def retransmitLimit (fl : Floats) (retransmitMult n : ℕ) : ℕ :=
  retransmitMult * fl.ceilLog10 ((n + 1) % 2 ^ 32) % 2 ^ 32

def suspicionTimeout (fl : Floats) (suspicionMult n : ℕ) (interval : ℤ) : ℤ :=
  fl.scaledTimeout suspicionMult n interval

end GossipMemberlist
