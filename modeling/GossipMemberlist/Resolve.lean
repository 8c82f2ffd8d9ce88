import GossipMemberlist.Address
import Mathlib.Data.List.TakeWhile

/-!
# Addresses of clusters to join

`resolveAddr` takes `[name/]ip[:port]` apart. It cuts the name off, but leaves the
slash, and `inet_pton` then refuses what is left.
-/

namespace GossipMemberlist

/-- A `std::string` as the list of its bytes. -/
abbrev StdString := List Char

namespace StdString

def npos : ℕ := 2 ^ 64 - 1

def find (c : Char) (s : StdString) : ℕ := if c ∈ s then s.idxOf c else npos

def toInt (pos : ℕ) : ℤ := Int.bmod pos (2 ^ 32)

/-- `substr(pos)`, where `none` is the exception; a negative `pos` becomes a large one. -/
def substr (pos : ℤ) (s : StdString) : Option StdString :=
  let pos := (pos % 2 ^ 64).toNat
  if pos ≤ s.length then some (s.drop pos) else none

/-- `substr(0, count)` -/
def substrTo (count : ℤ) (s : StdString) : StdString := s.take (count % 2 ^ 64).toNat

def isSpace (c : Char) : Bool := c ∈ [' ','\t','\n','\x0b','\x0c','\r']

/-- `none` is the exception: nothing to convert, or a number out of range. -/
def stoul (s : StdString) : Option ℕ :=
  let s := s.dropWhile isSpace
  let (negative,s) : Bool × StdString :=
    match s with
    | '-'::s => (true,s)
    | '+'::s => (false,s)
    | s => (false,s)
  let digits := s.takeWhile Char.isDigit
  let value := Nat.ofDigitChars 10 digits 0
  if digits = [] ∨ 2 ^ 64 ≤ value then none
  else some (if negative then (2 ^ 64 - value) % 2 ^ 64 else value)

/-- `to_string` -/
def decimal (n : ℕ) : StdString := Nat.toDigits 10 n

end StdString

open StdString

def defaultPort : UInt16 := 6666

def hasPort (s : StdString) : Bool := find ':' s ≠ npos

def ensurePort (port : UInt16) (s : StdString) : StdString :=
  if hasPort s then s else s ++ ':'::decimal port.toNat

/-- The second half of `resolveAddr`, from `ensurePort` on. The address was zeroed and stays
so when `inet_pton` fails. -/
def resolveHost (host : StdString) : Option SockaddrIn := do
  let host := ensurePort defaultPort host
  let index := toInt (find ':' host)
  let port ← stoul (← substr (index + 1) host)
  let sinAddr := (inetPton (String.ofList (substrTo index host))).getD ⟨0,0,0,0⟩
  some ⟨htons (UInt16.ofNat port),sinAddr⟩

/-- The first half: the name is cut off and not used. -/
def cutName (s : StdString) : Option StdString :=
  let index := toInt (find '/' s)
  if index ≠ -1 then substr index s else some s

def resolveAddr (s : StdString) : Option SockaddrIn := (cutName s).bind resolveHost

def InAddr.dotted (ip : InAddr) : StdString :=
  decimal ip.a.toNat ++ '.'::(decimal ip.b.toNat ++ '.'::(decimal ip.c.toNat ++
    '.'::decimal ip.d.toNat))

def portSuffix (port : Option UInt16) : StdString := port.elim [] fun p => ':'::decimal p.toNat

def clusterAddr (name : Option StdString) (ip : InAddr) (port : Option UInt16) : StdString :=
  name.elim [] (· ++ ['/']) ++ (ip.dotted ++ portSuffix port)

theorem isDigit_of_mem_decimal {n : ℕ} {c : Char} (h : c ∈ decimal n) : c.isDigit = true :=
  Nat.isDigit_of_mem_toDigits (by decide) (by decide) h

theorem not_mem_decimal {c : Char} (hc : c.isDigit = false) (n : ℕ) : c ∉ decimal n := fun h => by
  rw [isDigit_of_mem_decimal h] at hc
  cases hc

theorem decimal_ne_nil (n : ℕ) : decimal n ≠ [] := Nat.toDigits_ne_nil

theorem isSpace_of_isDigit {c : Char} (hc : c.isDigit = true) : isSpace c = false := by
  rw [isSpace,decide_eq_false_iff_not]
  intro hs
  simp only [List.mem_cons,List.not_mem_nil,or_false] at hs
  rcases hs with rfl | rfl | rfl | rfl | rfl | rfl <;> cases hc

theorem stoul_decimal {n : ℕ} (hn : n < 2 ^ 64) : stoul (decimal n) = some n := by
  have hdigits : (decimal n).takeWhile Char.isDigit = decimal n :=
    List.takeWhile_eq_self_iff.mpr fun c hc => isDigit_of_mem_decimal hc
  have hvalue : Nat.ofDigitChars 10 (decimal n) 0 = n := Nat.ofDigitChars_ten_toDigits
  have hspace : (decimal n).dropWhile isSpace = decimal n :=
    List.dropWhile_eq_self_iff.mpr fun hl => by
      rw [isSpace_of_isDigit (isDigit_of_mem_decimal (List.getElem_mem hl))]
      exact Bool.false_ne_true
  have hsign : ∀ s : StdString, decimal n ≠ '-'::s ∧ decimal n ≠ '+'::s := fun s =>
    ⟨fun h => not_mem_decimal (c := '-') rfl n (h ▸ List.mem_cons_self),
      fun h => not_mem_decimal (c := '+') rfl n (h ▸ List.mem_cons_self)⟩
  unfold stoul
  simp only [hspace]
  split
  · rename_i h
    exact absurd h (hsign _).1
  · rename_i h
    exact absurd h (hsign _).2
  · simpa [hdigits,hvalue,decimal_ne_nil] using hn

theorem octet_decimal (o : UInt8) : octet (decimal o.toNat) = some o := by
  have hall : ∀ n : Fin 256, octet (decimal n) = some (UInt8.ofNat n) := by decide +kernel
  have h := hall ⟨o.toNat,o.toNat_lt⟩
  rwa [UInt8.ofNat_toNat] at h

theorem length_decimal_le (o : UInt8) : (decimal o.toNat).length ≤ 3 := by
  have hall : ∀ n : Fin 256, (decimal n).length ≤ 3 := by decide +kernel
  exact hall ⟨o.toNat,o.toNat_lt⟩

theorem splitDots_piece {p : List Char} (hp : '.' ∉ p) : splitDots p = [p] := by
  induction p with
  | nil => rfl
  | cons c cs ih =>
    obtain ⟨hc,hcs⟩ := List.ne_and_not_mem_of_not_mem_cons hp
    rw [splitDots,ih hcs]
    exact fun h => hc h.symm

theorem splitDots_append {p : List Char} (hp : '.' ∉ p) (rest : List Char) :
    splitDots (p ++ '.'::rest) = p::splitDots rest := by
  induction p with
  | nil => rfl
  | cons c cs ih =>
    obtain ⟨hc,hcs⟩ := List.ne_and_not_mem_of_not_mem_cons hp
    rw [List.cons_append,splitDots,ih hcs]
    exact fun h => hc h.symm

theorem splitDots_dotted {p : List Char} (hp : '.' ∉ p) (ip : InAddr) :
    splitDots (p ++ ip.dotted) =
      [p ++ decimal ip.a.toNat,decimal ip.b.toNat,decimal ip.c.toNat,decimal ip.d.toNat] := by
  have hdot : ∀ n : ℕ, '.' ∉ decimal n := not_mem_decimal rfl
  have hfirst : '.' ∉ p ++ decimal ip.a.toNat := fun h =>
    (List.mem_append.mp h).elim hp (hdot _)
  rw [InAddr.dotted,← List.append_assoc,splitDots_append hfirst,splitDots_append (hdot _),
    splitDots_append (hdot _),splitDots_piece (hdot _)]

theorem mem_dotted {ip : InAddr} {c : Char} (h : c ∈ ip.dotted) : c = '.' ∨ c.isDigit = true := by
  simp only [InAddr.dotted,List.mem_append,List.mem_cons] at h
  rcases h with h | h | h | h | h | h | h
  all_goals first | exact .inl h | exact .inr (isDigit_of_mem_decimal h)

theorem length_dotted_le (ip : InAddr) : ip.dotted.length ≤ 15 := by
  have ha := length_decimal_le ip.a
  have hb := length_decimal_le ip.b
  have hc := length_decimal_le ip.c
  have hd := length_decimal_le ip.d
  simp only [InAddr.dotted,List.length_append,List.length_cons]
  omega

theorem cString_ofList {l : List Char} (h : '\x00' ∉ l) : cString (String.ofList l) = l := by
  rw [cString,String.toList_ofList]
  exact List.takeWhile_eq_self_iff.mpr fun c hc =>
    decide_eq_true fun h0 => h (h0 ▸ hc)

theorem not_mem_dotted {c : Char} (hdot : c ≠ '.') (hdigit : c.isDigit = false) (ip : InAddr) :
    c ∉ ip.dotted := fun h => by
  rcases mem_dotted h with rfl | hc
  · exact hdot rfl
  · rw [hdigit] at hc
    cases hc

theorem inetPton_dotted (ip : InAddr) : inetPton (String.ofList ip.dotted) = some ip := by
  have hsplit := splitDots_dotted (p := []) List.not_mem_nil ip
  rw [List.nil_append,List.nil_append] at hsplit
  rw [inetPton,cString_ofList (not_mem_dotted (by decide) rfl ip),hsplit]
  simp [octet_decimal]

theorem inetPton_slash_dotted (ip : InAddr) :
    inetPton (String.ofList ('/'::ip.dotted)) = none := by
  have hsplit := splitDots_dotted (p := ['/']) (by decide) ip
  have hzero : '\x00' ∉ '/'::ip.dotted :=
    List.not_mem_cons_of_ne_of_not_mem (by decide) (not_mem_dotted (by decide) rfl ip)
  have hoctet : octet ('/'::decimal ip.a.toNat) = none := by simp [octet]
  rw [inetPton,cString_ofList hzero]
  simp only [List.singleton_append] at hsplit
  rw [hsplit]
  simp [hoctet]

theorem find_of_not_mem {c : Char} {s : StdString} (h : c ∉ s) : find c s = npos := if_neg h

theorem find_append_cons {c : Char} {s : StdString} (h : c ∉ s) (rest : StdString) :
    find c (s ++ c::rest) = s.length := by
  rw [find,if_pos (List.mem_append_right s List.mem_cons_self),List.idxOf_append,if_neg h,
    List.idxOf_cons_self,Nat.zero_add]

theorem toInt_npos : toInt npos = -1 := by decide

theorem toInt_of_lt {pos : ℕ} (h : pos < 2 ^ 31) : toInt pos = pos := by
  have h' : (pos : ℤ) < 2 ^ 31 := by exact_mod_cast h
  exact Int.bmod_eq_of_le_mul_two (by push_cast; omega) (by push_cast; omega)

theorem toInt_wrapped {pos : ℕ} (hle : 2 ^ 31 ≤ pos) (hlt : pos < 2 ^ 32) :
    toInt pos = pos - 2 ^ 32 := by
  have h : 2 ^ 31 ≤ (pos : ℤ) := by exact_mod_cast hle
  have h' : (pos : ℤ) < 2 ^ 32 := by exact_mod_cast hlt
  calc toInt pos = Int.bmod (pos - (2 ^ 32 : ℕ)) (2 ^ 32) := (Int.sub_bmod_right _ _).symm
    _ = pos - (2 ^ 32 : ℕ) :=
      Int.bmod_eq_of_le_mul_two (by push_cast; omega) (by push_cast; omega)
    _ = pos - 2 ^ 32 := by push_cast; rfl

theorem substr_nat (pos : ℕ) (s : StdString) (hpos : pos < 2 ^ 64) (h : pos ≤ s.length) :
    substr pos s = some (s.drop pos) := by
  have hmod : ((pos : ℤ) % 2 ^ 64).toNat = pos := by omega
  rw [substr,hmod,if_pos h]

theorem substr_negative (pos : ℤ) (s : StdString) (hneg : pos < 0) (hpos : -2 ^ 31 ≤ pos)
    (h : s.length < 2 ^ 63) : substr pos s = none := by
  have hmod : s.length < (pos % 2 ^ 64).toNat := by omega
  rw [substr,if_neg (by omega)]

theorem substrTo_nat {count : ℕ} (hcount : count < 2 ^ 64) (s : StdString) :
    substrTo count s = s.take count := by
  have hmod : ((count : ℤ) % 2 ^ 64).toNat = count := by omega
  rw [substrTo,hmod]

theorem hasPort_eq_true {s : StdString} (hlen : s.length < npos) :
    hasPort s = true ↔ ':' ∈ s := by
  rw [hasPort,decide_eq_true_iff,find]
  split
  · rename_i h
    exact ⟨fun _ => h,fun _ => by have := List.idxOf_lt_length_iff.mpr h; omega⟩
  · rename_i h
    exact ⟨fun hne => absurd rfl hne,fun hmem => absurd hmem h⟩

theorem ensurePort_suffix {host : StdString} (h : ':' ∉ host) (hlen : host.length < 2 ^ 32)
    (port : Option UInt16) : ensurePort defaultPort (host ++ portSuffix port) =
      host ++ ':'::decimal (port.getD defaultPort).toNat := by
  cases port with
  | none =>
    have hport : ¬hasPort host = true := fun hp =>
      h ((hasPort_eq_true (hlen.trans (by decide))).mp hp)
    rw [ensurePort,portSuffix,Option.elim_none,List.append_nil,if_neg hport]
    rfl
  | some p =>
    have hfind := find_append_cons h (decimal p.toNat)
    have hport : hasPort (host ++ ':'::decimal p.toNat) = true := by
      rw [hasPort,hfind]
      exact decide_eq_true (hlen.trans (by decide)).ne
    rw [ensurePort,portSuffix,Option.elim_some,if_pos hport]
    rfl

theorem resolveHost_suffix {host : StdString} (h : ':' ∉ host) (hlen : host.length < 2 ^ 31)
    (port : Option UInt16) : resolveHost (host ++ portSuffix port) =
      some ⟨htons (port.getD defaultPort),(inetPton (String.ofList host)).getD ⟨0,0,0,0⟩⟩ := by
  have hport := (port.getD defaultPort).toNat_lt
  have hensure := ensurePort_suffix h (by omega) port
  generalize port.getD defaultPort = p at hport hensure ⊢
  have hdrop : (host ++ ':'::decimal p.toNat).drop (host.length + 1) = decimal p.toNat := by
    rw [← List.drop_drop,List.drop_left,List.drop_one,List.tail_cons]
  have hsub : substr ((host.length : ℤ) + 1) (host ++ ':'::decimal p.toNat) =
      some (decimal p.toNat) := by
    have h1 := substr_nat (host.length + 1) (host ++ ':'::decimal p.toNat)
      (by omega) (by simp)
    rwa [hdrop] at h1
  have hindex : toInt (find ':' (host ++ ':'::decimal p.toNat)) = host.length := by
    rw [find_append_cons h,toInt_of_lt hlen]
  simp only [resolveHost,hensure,hindex,hsub,substrTo_nat (show host.length < 2 ^ 64 by omega),
    List.take_left]
  simp [stoul_decimal (show p.toNat < 2 ^ 64 by omega)]

theorem clusterAddr_none (ip : InAddr) (port : Option UInt16) :
    clusterAddr none ip port = ip.dotted ++ portSuffix port := rfl

theorem clusterAddr_some (name : StdString) (ip : InAddr) (port : Option UInt16) :
    clusterAddr (some name) ip port = name ++ '/'::(ip.dotted ++ portSuffix port) := by
  simp [clusterAddr]

theorem not_mem_portSuffix {c : Char} (hc : c ≠ ':') (hdigit : c.isDigit = false)
    (port : Option UInt16) : c ∉ portSuffix port := by
  cases port with
  | none => exact List.not_mem_nil
  | some p => exact List.not_mem_cons_of_ne_of_not_mem hc (not_mem_decimal hdigit _)

theorem length_portSuffix_le (port : Option UInt16) : (portSuffix port).length ≤ 6 := by
  cases port with
  | none => exact Nat.zero_le 6
  | some p =>
    have hp := p.toNat_lt
    have hlen : (decimal p.toNat).length ≤ 5 :=
      (Nat.length_toDigits_le_iff (by decide) (by decide)).mpr (by omega)
    exact Nat.succ_le_succ hlen

theorem resolveAddr_of_cut {s host : StdString} (h : cutName s = some host) :
    resolveAddr s = resolveHost host := by
  rw [resolveAddr,h,Option.bind_some]

theorem resolveAddr_none (ip : InAddr) (port : Option UInt16) :
    resolveAddr (clusterAddr none ip port) = some ⟨htons (port.getD defaultPort),ip⟩ := by
  have hslash : '/' ∉ ip.dotted ++ portSuffix port := fun h => (List.mem_append.mp h).elim
    (not_mem_dotted (by decide) rfl ip) (not_mem_portSuffix (by decide) rfl port)
  have hlen := length_dotted_le ip
  have hhost := resolveHost_suffix (not_mem_dotted (by decide) rfl ip) (by omega) port
  rw [inetPton_dotted] at hhost
  have hcut : ¬(-1 : ℤ) ≠ -1 := fun h => h rfl
  have hname : cutName (ip.dotted ++ portSuffix port) = some (ip.dotted ++ portSuffix port) := by
    rw [cutName,find_of_not_mem hslash,toInt_npos,if_neg hcut]
  rw [clusterAddr_none,resolveAddr_of_cut hname,hhost,Option.getD_some]

/-- The slash stays in front of the address, which is then no dotted quad. -/
theorem resolveAddr_some {name : StdString} (hname : '/' ∉ name) (hlen : name.length < 2 ^ 31)
    (ip : InAddr) (port : Option UInt16) : resolveAddr (clusterAddr (some name) ip port) =
      some ⟨htons (port.getD defaultPort),⟨0,0,0,0⟩⟩ := by
  have hdotted := length_dotted_le ip
  have hcolon : ':' ∉ '/'::ip.dotted :=
    List.not_mem_cons_of_ne_of_not_mem (by decide) (not_mem_dotted (by decide) rfl ip)
  have hhost := resolveHost_suffix hcolon (by rw [List.length_cons]; omega) port
  rw [inetPton_slash_dotted] at hhost
  have hsub := substr_nat name.length (name ++ '/'::(ip.dotted ++ portSuffix port))
    (by omega) (by simp)
  rw [List.drop_left] at hsub
  have hindex : (name.length : ℤ) ≠ -1 := by omega
  have hcut : cutName (name ++ '/'::(ip.dotted ++ portSuffix port)) =
      some ('/'::ip.dotted ++ portSuffix port) := by
    rw [cutName,find_append_cons hname,toInt_of_lt hlen,if_pos hindex,hsub,List.cons_append]
  rw [clusterAddr_some,resolveAddr_of_cut hcut,hhost,Option.getD_none]

/-- The position of the slash does not fit an `int`, and `substr` throws. -/
theorem resolveAddr_long {name : StdString} (hname : '/' ∉ name) (hle : 2 ^ 31 ≤ name.length)
    (hlt : name.length < 2 ^ 32 - 1) (ip : InAddr) (port : Option UInt16) :
    resolveAddr (clusterAddr (some name) ip port) = none := by
  have hdotted := length_dotted_le ip
  have hport := length_portSuffix_le port
  have hindex := toInt_wrapped hle (by omega)
  have hsub := substr_negative (toInt name.length)
    (name ++ '/'::(ip.dotted ++ portSuffix port)) (by omega) (by omega)
    (by simp only [List.length_append,List.length_cons]; omega)
  have hne : toInt name.length ≠ -1 := by omega
  have hcut : cutName (name ++ '/'::(ip.dotted ++ portSuffix port)) = none := by
    rw [cutName,find_append_cons hname,if_pos hne,hsub]
  rw [clusterAddr_some,resolveAddr,hcut,Option.bind_none]

/-- A prefix is harmless only where the address is the one that a failed conversion leaves. -/
theorem resolveAddr_iff (name : Option StdString) (ip : InAddr) (port : Option UInt16)
    (hname : ∀ n ∈ name, '/' ∉ n ∧ n.length < 2 ^ 32 - 1) :
    resolveAddr (clusterAddr name ip port) = some ⟨htons (port.getD defaultPort),ip⟩ ↔
      ∀ n ∈ name, ip = ⟨0,0,0,0⟩ ∧ n.length < 2 ^ 31 := by
  cases name with
  | none => exact iff_of_true (resolveAddr_none ip port) fun n hn => nomatch hn
  | some n =>
    obtain ⟨hslash,hlt⟩ := hname n rfl
    by_cases hlen : n.length < 2 ^ 31
    · rw [resolveAddr_some hslash hlen]
      constructor
      · intro h m hm
        cases hm
        injection h with h
        injection h with _ h
        exact ⟨h.symm,hlen⟩
      · intro h
        rw [(h n rfl).1]
    · rw [resolveAddr_long hslash (by omega) hlt]
      exact iff_of_false (fun h => nomatch h) fun h => hlen (h n rfl).2

theorem resolveAddr_local : resolveAddr (clusterAddr none ⟨127,0,0,1⟩ (some 6666)) =
    some ⟨htons 6666,⟨127,0,0,1⟩⟩ :=
  (resolveAddr_iff none ⟨127,0,0,1⟩ (some 6666) nofun).mpr nofun

theorem resolveAddr_named : clusterAddr (some ['b']) ⟨10,0,0,1⟩ none = "b/10.0.0.1".toList ∧
    resolveAddr "b/10.0.0.1".toList = some ⟨htons defaultPort,⟨0,0,0,0⟩⟩ ∧
    resolveAddr "10.0.0.1".toList = some ⟨htons defaultPort,⟨10,0,0,1⟩⟩ := by
  decide +kernel

end GossipMemberlist
