import Mathlib.Algebra.Order.Ring.Int
import Mathlib.Data.Nat.Log

/-!
# Tagged fields on the wire

The part of the protocol-buffer wire format that messages of integers, strings and
embedded messages use: base-128 varints, lowest group first, and fields that carry
a varint or a byte string of counted length. Decoding inverts encoding, and input
that ends inside a field is refused.
-/

namespace Wire

/-- `k` groups with a continuation bit and a last one. -/
def groups : ℕ → ℕ → List UInt8
  | 0, n => [UInt8.ofNat n]
  | k+1, n => UInt8.ofNat (n % 128 + 128)::groups k (n / 128)

def varint (n : ℕ) : List UInt8 := groups (n.log2 / 7) n

/-- The number at the start of the input and what comes after it. -/
def decodeVarint : List UInt8 → Option (ℕ × List UInt8)
  | [] => none
  | b::bs =>
    if b.toNat < 128 then some (b.toNat,bs)
    else (decodeVarint bs).map fun r => (b.toNat - 128 + 128 * r.1,r.2)

inductive Value
  | varint (n : ℕ)
  | bytes (bs : List UInt8)
  deriving DecidableEq

structure Field where
  number : ℕ
  value : Value
  deriving DecidableEq

def Field.encode (f : Field) : List UInt8 :=
  match f.value with
  | .varint n => Wire.varint (8 * f.number) ++ Wire.varint n
  | .bytes bs => Wire.varint (8 * f.number + 2) ++ (Wire.varint bs.length ++ bs)

def encode (fs : List Field) : List UInt8 := fs.flatMap Field.encode

/-- A wire type other than the two used here is refused. -/
def decodeField (input : List UInt8) : Option (Field × List UInt8) :=
  match decodeVarint input with
  | none => none
  | some (tag,rest) =>
    if tag % 8 = 0 then (decodeVarint rest).map fun r => (⟨tag / 8,.varint r.1⟩,r.2)
    else if tag % 8 = 2 then
      match decodeVarint rest with
      | none => none
      | some (len,rest) =>
        if len ≤ rest.length then some (⟨tag / 8,.bytes (rest.take len)⟩,rest.drop len) else none
    else none

/-- The fields read before the input ends or goes wrong, and whether it ended well;
`fuel` bounds the number of fields. -/
def decodeFields : ℕ → List UInt8 → List Field × Bool
  | 0, input => ([],input.isEmpty)
  | fuel+1, input =>
    if input.isEmpty then ([],true)
    else match decodeField input with
      | none => ([],false)
      | some (f,rest) =>
        let r := decodeFields fuel rest
        (f::r.1,r.2)

/-- Every field takes at least one byte. -/
def decode (input : List UInt8) : List Field × Bool := decodeFields input.length input

theorem groups_length (k n : ℕ) : (groups k n).length = k + 1 := by
  induction k generalizing n with
  | zero => rfl
  | succ k ih => rw [groups,List.length_cons,ih]

theorem varint_length (n : ℕ) : (varint n).length = n.log2 / 7 + 1 := groups_length _ _

theorem varint_length_pos (n : ℕ) : 0 < (varint n).length := by
  rw [varint_length]
  omega

theorem toNat_ofNat {n : ℕ} (h : n < 256) : (UInt8.ofNat n).toNat = n := by
  rw [UInt8.toNat_ofNat']
  exact Nat.mod_eq_of_lt h

theorem decodeVarint_groups {k n : ℕ} (h : n < 128 ^ (k + 1)) (rest : List UInt8) :
    decodeVarint (groups k n ++ rest) = some (n,rest) := by
  induction k generalizing n with
  | zero =>
    have hn : n < 128 := by simpa using h
    simp [groups,decodeVarint,toNat_ofNat (show n < 256 by omega),hn]
  | succ k ih =>
    have hdiv : n / 128 < 128 ^ (k + 1) := by
      rw [Nat.div_lt_iff_lt_mul (by decide),← Nat.pow_succ]
      exact h
    have hbyte := toNat_ofNat (show n % 128 + 128 < 256 by omega)
    rw [groups,List.cons_append,decodeVarint,hbyte,if_neg (by omega),ih hdiv]
    simp only [Option.map_some,Option.some.injEq,Prod.mk.injEq,and_true]
    omega

theorem lt_groups (n : ℕ) : n < 128 ^ (n.log2 / 7 + 1) := by
  have hlog : n < 2 ^ (n.log2 + 1) := Nat.lt_log2_self
  have hexp : n.log2 + 1 ≤ 7 * (n.log2 / 7 + 1) := by omega
  calc n < 2 ^ (n.log2 + 1) := hlog
    _ ≤ 2 ^ (7 * (n.log2 / 7 + 1)) := Nat.pow_le_pow_right (by decide) hexp
    _ = 128 ^ (n.log2 / 7 + 1) := by rw [Nat.pow_mul]

theorem decodeVarint_varint (n : ℕ) (rest : List UInt8) :
    decodeVarint (varint n ++ rest) = some (n,rest) :=
  decodeVarint_groups (lt_groups n) rest

theorem decodeField_encode (f : Field) (rest : List UInt8) :
    decodeField (f.encode ++ rest) = some (f,rest) := by
  obtain ⟨number,value⟩ := f
  cases value with
  | varint n =>
    have hmod : 8 * number % 8 = 0 := by omega
    have hdiv : 8 * number / 8 = number := by omega
    simp only [Field.encode,List.append_assoc,decodeField,decodeVarint_varint,hmod,if_true,
      Option.map_some,hdiv]
  | bytes bs =>
    have hmod : (8 * number + 2) % 8 = 2 := by omega
    have hdiv : (8 * number + 2) / 8 = number := by omega
    simp only [Field.encode,List.append_assoc,decodeField,decodeVarint_varint,hmod,hdiv]
    simp

theorem Field.encode_length_pos (f : Field) : 0 < f.encode.length := by
  unfold Field.encode
  split <;> rw [List.length_append] <;> exact Nat.add_pos_left (varint_length_pos _) _

theorem decodeFields_encode (fs : List Field) {fuel : ℕ} (h : (encode fs).length ≤ fuel) :
    decodeFields fuel (encode fs) = (fs,true) := by
  induction fs generalizing fuel with
  | nil => cases fuel <;> rfl
  | cons f fs ih =>
    have hpos := f.encode_length_pos
    rw [encode,List.flatMap_cons,List.length_append] at h
    obtain ⟨fuel,rfl⟩ : ∃ k, fuel = k + 1 := ⟨fuel - 1,by omega⟩
    have hne : (f.encode ++ encode fs).isEmpty = false := by
      rw [List.isEmpty_eq_false_iff]
      intro hnil
      rw [(List.append_eq_nil_iff.mp hnil).1] at hpos
      exact absurd hpos (Nat.lt_irrefl 0)
    change decodeFields (fuel + 1) (f.encode ++ encode fs) = (f::fs,true)
    rw [decodeFields,hne,decodeField_encode]
    simp only [Bool.false_eq_true,if_false]
    rw [ih (by change (List.flatMap Field.encode fs).length ≤ fuel; omega)]

theorem decode_encode (fs : List Field) : decode (encode fs) = (fs,true) :=
  decodeFields_encode fs (le_refl _)

theorem encode_injective : Function.Injective encode := by
  intro fs fs' h
  have := decode_encode fs
  rw [h,decode_encode] at this
  exact (congrArg Prod.fst this).symm

@[simp] theorem encode_nil : encode [] = [] := rfl

theorem encode_append (fs fs' : List Field) : encode (fs ++ fs') = encode fs ++ encode fs' :=
  List.flatMap_append

theorem zero_mem_groups {k n : ℕ} (h : n < 128 ^ (k + 1)) (hk : k = 0 ∨ 128 ^ k ≤ n) :
    0 ∈ groups k n ↔ n = 0 := by
  induction k generalizing n with
  | zero =>
    have hlt : n < 256 := by omega
    rw [groups,List.mem_singleton,← UInt8.toNat_inj,toNat_ofNat hlt]
    exact eq_comm
  | succ k ih =>
    have hpow : 0 < 128 ^ k := Nat.pow_pos (by decide)
    have hle : 128 * 128 ^ k ≤ n := by
      rcases hk with hk | hk
      · omega
      · rwa [Nat.pow_succ,Nat.mul_comm] at hk
    have hdiv : n / 128 < 128 ^ (k + 1) := by
      rw [Nat.div_lt_iff_lt_mul (by decide),← Nat.pow_succ]
      exact h
    have hrest := ih hdiv (Or.inr (by omega))
    have hhead : (0 : UInt8) ≠ UInt8.ofNat (n % 128 + 128) := by
      rw [Ne,← UInt8.toNat_inj,toNat_ofNat (by omega)]
      show ¬0 = n % 128 + 128
      omega
    rw [groups,List.mem_cons,hrest]
    constructor
    · rintro (h0 | h0)
      · exact absurd h0 hhead
      · omega
    · omega

theorem zero_mem_varint (n : ℕ) : 0 ∈ varint n ↔ n = 0 := by
  refine zero_mem_groups (lt_groups n) ?_
  rcases Nat.eq_zero_or_pos (n.log2 / 7) with h | h
  · exact Or.inl h
  · have hn : n ≠ 0 := by
      rintro rfl
      exact absurd h (by decide)
    refine Or.inr ?_
    calc 128 ^ (n.log2 / 7) = 2 ^ (7 * (n.log2 / 7)) := by rw [Nat.pow_mul]
      _ ≤ 2 ^ n.log2 := Nat.pow_le_pow_right (by decide) (by omega)
      _ ≤ n := Nat.log2_self_le hn

theorem encode_eq_nil {fs : List Field} : encode fs = [] ↔ fs = [] := by
  constructor
  · intro h
    have := decode_encode fs
    rw [h] at this
    exact (congrArg Prod.fst this).symm
  · rintro rfl
    rfl

/-- The bytes hold no zero, so a reader that stops at one sees all of them. -/
def ZeroFree (fs : List Field) : Prop := 0 ∉ encode fs

@[simp] theorem zeroFree_nil : ZeroFree [] := List.not_mem_nil

@[simp] theorem zeroFree_append {fs fs' : List Field} :
    ZeroFree (fs ++ fs') ↔ ZeroFree fs ∧ ZeroFree fs' := by
  rw [ZeroFree,encode_append,List.mem_append,not_or]
  rfl

theorem zeroFree_flatMap {α : Type*} {g : α → List Field} {xs : List α} :
    ZeroFree (xs.flatMap g) ↔ ∀ x ∈ xs, ZeroFree (g x) := by
  induction xs with
  | nil => simp
  | cons x xs ih => rw [List.flatMap_cons,zeroFree_append,ih,List.forall_mem_cons]

theorem zeroFree_varint {k n : ℕ} : ZeroFree [⟨k,.varint n⟩] ↔ k ≠ 0 ∧ n ≠ 0 := by
  simp [ZeroFree,encode,Field.encode,zero_mem_varint]

theorem zeroFree_bytes {k : ℕ} {bs : List UInt8} :
    ZeroFree [⟨k,.bytes bs⟩] ↔ bs ≠ [] ∧ 0 ∉ bs := by
  simp [ZeroFree,encode,Field.encode,zero_mem_varint]

end Wire
