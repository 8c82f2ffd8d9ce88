import GossipMemberlist.Library.Wire

/-!
# Reading a message field by field

A generated parser is a loop: read a tag, look its number up in a switch, check the
tag against the one byte that the case expects and read a value, or hand an unusual
tag to the library. A reader takes a value off the front of the input and never
grows it. The loop of a repeated field that looks at the next tag by itself changes
nothing, and no proper part of a field is ever accepted as one.
-/

namespace Wire

/-- The number at the start of the input, in at most `k` groups. -/
def readVarint : ℕ → List UInt8 → Option (ℕ × List UInt8)
  | 0, _ => none
  | _+1, [] => none
  | k+1, b::bs =>
    if b.toNat < 128 then some (b.toNat,bs)
    else (readVarint k bs).map fun r => (b.toNat - 128 + 128 * r.1,r.2)

theorem readVarint_shrinks {k : ℕ} {bs : List UInt8} {r : ℕ × List UInt8}
    (h : readVarint k bs = some r) : r.2.length < bs.length := by
  induction k generalizing bs r with
  | zero => cases h
  | succ k ih =>
    cases bs with
    | nil => cases h
    | cons b bs =>
      rw [readVarint] at h
      split at h
      · cases h
        exact Nat.lt_succ_self _
      · obtain ⟨r',hr',heq⟩ := Option.map_eq_some_iff.mp h
        have hrest := ih hr'
        rw [← heq]
        exact Nat.lt_succ_of_lt hrest

theorem readVarint_groups {k m n : ℕ} (hk : k < m) (h : n < 128 ^ (k + 1)) (rest : List UInt8) :
    readVarint m (groups k n ++ rest) = some (n,rest) := by
  induction k generalizing m n with
  | zero =>
    obtain ⟨m,rfl⟩ : ∃ j, m = j + 1 := ⟨m - 1,by omega⟩
    have hn : n < 128 := by simpa using h
    simp [groups,readVarint,toNat_ofNat (show n < 256 by omega),hn]
  | succ k ih =>
    obtain ⟨m,rfl⟩ : ∃ j, m = j + 1 := ⟨m - 1,by omega⟩
    have hdiv : n / 128 < 128 ^ (k + 1) := by
      rw [Nat.div_lt_iff_lt_mul (by decide),← Nat.pow_succ]
      exact h
    have hbyte := toNat_ofNat (show n % 128 + 128 < 256 by omega)
    rw [groups,List.cons_append,readVarint,hbyte,if_neg (by omega),ih (by omega) hdiv]
    simp only [Option.map_some,Option.some.injEq,Prod.mk.injEq,and_true]
    omega

theorem log2_div_lt {k n : ℕ} (hk : 0 < k) (h : n < 2 ^ (7 * k)) : n.log2 / 7 < k := by
  rw [Nat.div_lt_iff_lt_mul (by decide)]
  rcases Nat.eq_zero_or_pos n with rfl | hn
  · rw [Nat.log2_zero]
    omega
  · rw [Nat.log2_lt (by omega),Nat.mul_comm k 7]
    exact h

theorem readVarint_varint {k n : ℕ} (hk : 0 < k) (h : n < 2 ^ (7 * k)) (rest : List UInt8) :
    readVarint k (varint n ++ rest) = some (n,rest) :=
  readVarint_groups (log2_div_lt hk h) (lt_groups n) rest

theorem readVarint_long {k m n : ℕ} (h : m ≤ k) (rest : List UInt8) :
    readVarint m (groups k n ++ rest) = none := by
  induction m generalizing k n with
  | zero => rfl
  | succ m ih =>
    obtain ⟨k,rfl⟩ : ∃ j, k = j + 1 := ⟨k - 1,by omega⟩
    have hbyte := toNat_ofNat (show n % 128 + 128 < 256 by omega)
    rw [groups,List.cons_append,readVarint,hbyte,if_neg (by omega),ih (by omega),Option.map_none]

theorem readVarint_varint_or (k n : ℕ) (rest : List UInt8) :
    readVarint k (varint n ++ rest) = none ∨ readVarint k (varint n ++ rest) = some (n,rest) := by
  by_cases hk : k ≤ n.log2 / 7
  · exact Or.inl (readVarint_long hk rest)
  · exact Or.inr (readVarint_groups (Nat.lt_of_not_le hk) (lt_groups n) rest)

theorem readVarint_cut {k m n : ℕ} {bs : List UInt8} (h : bs <+: groups k n)
    (hne : bs ≠ groups k n) : readVarint m bs = none := by
  induction k generalizing m n bs with
  | zero =>
    rcases List.prefix_cons_iff.mp h with rfl | ⟨t,rfl,ht⟩
    · cases m <;> rfl
    · rw [List.prefix_nil.mp ht] at hne
      exact absurd rfl hne
  | succ k ih =>
    rcases List.prefix_cons_iff.mp h with rfl | ⟨t,rfl,ht⟩
    · cases m <;> rfl
    · have hbyte := toNat_ofNat (show n % 128 + 128 < 256 by omega)
      have hrest : t ≠ groups k (n / 128) := fun heq => hne (by rw [heq,groups])
      cases m with
      | zero => rfl
      | succ m => rw [readVarint,hbyte,if_neg (by omega),ih ht hrest,Option.map_none]

/-- The longest byte string or embedded message that is read. -/
def sizeMax : ℕ := 2 ^ 31 - 1 - 16

structure Reader (α : Type) where
  read : List UInt8 → Option (α × List UInt8)
  shrinks : ∀ {bs r}, read bs = some r → r.2.length < bs.length

namespace Reader

variable {α β : Type}

/-- `f` makes a value of what was read, or refuses it. -/
def filterMap (f : α → Option β) (R : Reader α) : Reader β where
  read bs := (R.read bs).bind fun r => (f r.1).map fun b => (b,r.2)
  shrinks := by
    intro bs r h
    obtain ⟨r',hr',h⟩ := Option.bind_eq_some_iff.mp h
    obtain ⟨b,hb,rfl⟩ := Option.map_eq_some_iff.mp h
    exact R.shrinks hr'

def map (f : α → β) (R : Reader α) : Reader β := R.filterMap fun a => some (f a)

theorem filterMap_read {R : Reader α} {bs rest : List UInt8} {a : α}
    (h : R.read bs = some (a,rest)) (f : α → Option β) :
    (R.filterMap f).read bs = (f a).map fun b => (b,rest) := by
  simp only [filterMap,h,Option.bind_some]

theorem filterMap_eq_none {R : Reader α} {bs : List UInt8} (h : R.read bs = none)
    (f : α → Option β) : (R.filterMap f).read bs = none := by
  simp only [filterMap,h,Option.bind_none]

/-- What `R` reads `R'` reads alike. -/
def Within (R R' : Reader α) : Prop := ∀ bs r, R.read bs = some r → R'.read bs = some r

theorem Within.refl (R : Reader α) : R.Within R := fun _ _ h => h

theorem of_filterMap {R : Reader α} {f : α → Option β} {bs : List UInt8} {r : β × List UInt8}
    (h : (R.filterMap f).read bs = some r) : ∃ a, f a = some r.1 ∧ R.read bs = some (a,r.2) := by
  obtain ⟨r',hr',h⟩ := Option.bind_eq_some_iff.mp h
  obtain ⟨b,hb,rfl⟩ := Option.map_eq_some_iff.mp h
  exact ⟨r'.1,hb,hr'⟩

theorem of_map {R : Reader α} {f : α → β} {bs : List UInt8} {r : β × List UInt8}
    (h : (R.map f).read bs = some r) : ∃ a, r.1 = f a ∧ R.read bs = some (a,r.2) := by
  obtain ⟨a,ha,hread⟩ := of_filterMap h
  exact ⟨a,(Option.some.inj ha).symm,hread⟩

def varint : Reader ℕ := ⟨readVarint 10,readVarint_shrinks⟩

/-- `ReadVarint32` keeps the low half. -/
def varint32 : Reader ℕ := varint.map fun n => n % 2 ^ 32

def varint64 : Reader ℕ := varint.map fun n => n % 2 ^ 64

/-- A count of at most five bytes and as many bytes as it says. -/
def bytes : Reader (List UInt8) where
  read bs := (readVarint 5 bs).bind fun r =>
    if r.1 ≤ sizeMax ∧ r.1 ≤ r.2.length then some (r.2.take r.1,r.2.drop r.1) else none
  shrinks := by
    intro bs r h
    obtain ⟨r',hr',h⟩ := Option.bind_eq_some_iff.mp h
    have hlt := readVarint_shrinks hr'
    split at h
    · cases h
      rw [List.length_drop]
      omega
    · cases h

theorem varint_varint {n : ℕ} (h : n < 2 ^ 64) (rest : List UInt8) :
    varint.read (Wire.varint n ++ rest) = some (n,rest) :=
  readVarint_varint (by decide) (Nat.lt_trans h (by decide)) rest

theorem varint32_varint {n : ℕ} (h : n < 2 ^ 32) (rest : List UInt8) :
    varint32.read (Wire.varint n ++ rest) = some (n,rest) := by
  rw [varint32,map,filterMap_read (varint_varint (Nat.lt_trans h (by decide)) rest),
    Nat.mod_eq_of_lt h]
  rfl

theorem varint64_varint {n : ℕ} (h : n < 2 ^ 64) (rest : List UInt8) :
    varint64.read (Wire.varint n ++ rest) = some (n,rest) := by
  rw [varint64,map,filterMap_read (varint_varint h rest),Nat.mod_eq_of_lt h]
  rfl

theorem bytes_bytes {bs : List UInt8} (h : bs.length ≤ sizeMax) (rest : List UInt8) :
    bytes.read (Wire.varint bs.length ++ (bs ++ rest)) = some (bs,rest) := by
  have hcount := readVarint_varint (show 0 < 5 by decide)
    (Nat.lt_of_le_of_lt h (by decide)) (bs ++ rest)
  simp [bytes,hcount,h]

theorem varint_cut {n : ℕ} {bs : List UInt8} (h : bs <+: Wire.varint n)
    (hne : bs ≠ Wire.varint n) : varint.read bs = none := readVarint_cut h hne

theorem bytes_cut {bs cs : List UInt8} (h : cs <+: Wire.varint bs.length ++ bs)
    (hne : cs ≠ Wire.varint bs.length ++ bs) : bytes.read cs = none := by
  obtain ⟨t,ht⟩ := h
  have hcut : ∀ part, cs = Wire.varint bs.length ++ part → bs = part ++ t →
      bytes.read cs = none := by
    rintro part rfl hbs
    have hlt : part.length < bs.length := by
      have hpart : t ≠ [] := by
        rintro rfl
        rw [List.append_nil] at hbs
        exact hne (by rw [hbs])
      rw [hbs,List.length_append]
      have := List.length_pos_iff.mpr hpart
      omega
    rcases readVarint_varint_or 5 bs.length part with hnone | hsome
    · simp only [bytes,hnone,Option.bind_none]
    · simp only [bytes,hsome,Option.bind_some]
      exact if_neg (by omega)
  rcases List.append_eq_append_iff.mp ht with ⟨more,hcount,hrest⟩ | ⟨part,hcs,hrest⟩
  · by_cases hwhole : cs = Wire.varint bs.length
    · have hmore : more = [] := by
        rw [hwhole] at hcount
        exact List.self_eq_append_right.mp hcount
      rw [hmore] at hrest
      exact hcut [] (by rw [List.append_nil,hwhole]) hrest.symm
    · have hnone := readVarint_cut (m := 5) ⟨more,hcount.symm⟩ hwhole
      simp only [bytes,hnone,Option.bind_none]
  · exact hcut part hcs hrest

theorem Within.map {R R' : Reader α} (h : R.Within R') (f : α → β) : (R.map f).Within (R'.map f) := by
  intro bs r hr
  obtain ⟨a,ha,hread⟩ := of_filterMap hr
  rw [Reader.map,filterMap_read (h _ _ hread) _,ha,Option.map_some]

end Reader

/-- The parts of the parsing library that the generated code calls. -/
structure Context where
  /-- `UnknownFieldParse`: the input behind the value of an unknown field. -/
  unknownFieldParse : ℕ → List UInt8 → Option (List UInt8)
  shrinks : ∀ {tag bs rest}, unknownFieldParse tag bs = some rest → rest.length ≤ bs.length
  /-- `DataAvailable`, asked before the loop of a repeated field looks at the next tag. -/
  dataAvailable : List UInt8 → Bool

/-- A library that skips no unknown field. -/
def Context.strict : Context :=
  ⟨fun _ _ => none,fun h => (Option.some_ne_none _ h.symm).elim,fun bs => !bs.isEmpty⟩

/-- The cases of a message: the byte that the tag of a field has to end in, and the
reader of its value. -/
abbrev Switch (σ : Type) := σ → ℕ → Option (ℕ × Reader σ)

/-- Whatever a case reads, `P` goes on to hold. -/
def Switch.Keeps {σ : Type} (sw : Switch σ) (P : σ → Prop) : Prop :=
  ∀ s k byte R, P s → sw s k = some (byte,R) → ∀ bs r, R.read bs = some r → P r.1

section Loop

variable {σ τ : Type} (ctx : Context) (sw : Switch σ)

/-- The caller of a message refuses it when it ends at a zero tag or an end group. -/
def unusual (s : σ) (tag : ℕ) (bs : List UInt8) : Option (σ × List UInt8) :=
  if tag = 0 ∨ tag % 8 = 4 then none
  else (ctx.unknownFieldParse tag bs).map fun rest => (s,rest)

def choose (s : σ) (tag : ℕ) (bs : List UInt8) : Option (σ × List UInt8) :=
  match sw s (tag / 8) with
  | some (byte,R) => if tag % 2 ^ 8 = byte then R.read bs else unusual ctx s tag bs
  | none => unusual ctx s tag bs

def turn (s : σ) (bs : List UInt8) : Option (σ × List UInt8) :=
  (readVarint 5 bs).bind fun r => choose ctx sw s (r.1 % 2 ^ 32) r.2

/-- `fuel` bounds the number of fields. -/
def loop : ℕ → σ → List UInt8 → Option σ
  | 0, s, bs => if bs.isEmpty then some s else none
  | fuel+1, s, bs =>
    if bs.isEmpty then some s else (turn ctx sw s bs).bind fun r => loop fuel r.1 r.2

/-- Every field takes at least one byte. -/
def parse (s : σ) (bs : List UInt8) : Option σ := loop ctx sw bs.length s bs

/-- `ParseMessage`: the count, and a parse of that many bytes. -/
def message (s : σ) : Reader σ := Reader.bytes.filterMap (parse ctx sw s)

variable {ctx sw} {s s' : σ} {bs : List UInt8}

theorem unusual_shrinks {tag : ℕ} {r : σ × List UInt8} (h : unusual ctx s tag bs = some r) :
    r.2.length ≤ bs.length := by
  unfold unusual at h
  split at h
  · cases h
  · obtain ⟨rest,hrest,rfl⟩ := Option.map_eq_some_iff.mp h
    exact ctx.shrinks hrest

theorem choose_shrinks {tag : ℕ} {r : σ × List UInt8} (h : choose ctx sw s tag bs = some r) :
    r.2.length ≤ bs.length := by
  unfold choose at h
  split at h
  · rename_i byte R _
    split at h
    · exact Nat.le_of_lt (R.shrinks h)
    · exact unusual_shrinks h
  · exact unusual_shrinks h

theorem turn_shrinks {r : σ × List UInt8} (h : turn ctx sw s bs = some r) :
    r.2.length < bs.length := by
  obtain ⟨t,ht,h⟩ := Option.bind_eq_some_iff.mp h
  exact Nat.lt_of_le_of_lt (choose_shrinks h) (readVarint_shrinks ht)

theorem loop_fuel {n m : ℕ} (hn : bs.length ≤ n) (hm : bs.length ≤ m) :
    loop ctx sw n s bs = loop ctx sw m s bs := by
  induction n generalizing m s bs with
  | zero =>
    have hbs : bs = [] := List.length_eq_zero_iff.mp (Nat.le_zero.mp hn)
    subst hbs
    cases m <;> rfl
  | succ n ih =>
    cases bs with
    | nil => cases m <;> rfl
    | cons b bs =>
      obtain ⟨m,rfl⟩ : ∃ j, m = j + 1 := ⟨m - 1,by rw [List.length_cons] at hm; omega⟩
      simp only [loop,List.isEmpty_cons,Bool.false_eq_true,if_false]
      cases hturn : turn ctx sw s (b::bs) with
      | none => rfl
      | some r =>
        have hlt := turn_shrinks hturn
        exact ih (by omega) (by omega)

@[simp] theorem parse_nil : parse ctx sw s [] = some s := rfl

theorem parse_eq (h : bs ≠ []) :
    parse ctx sw s bs = (turn ctx sw s bs).bind fun r => parse ctx sw r.1 r.2 := by
  cases bs with
  | nil => exact absurd rfl h
  | cons b bs =>
    rw [parse,List.length_cons]
    simp only [loop,List.isEmpty_cons,Bool.false_eq_true,if_false]
    cases hturn : turn ctx sw s (b::bs) with
    | none => rfl
    | some r =>
      have hlt := turn_shrinks hturn
      rw [List.length_cons] at hlt
      exact loop_fuel (Nat.le_of_lt_succ hlt) (le_refl _)

theorem parse_invariant {P : σ → Prop} (hstep : sw.Keeps P) (hs : P s)
    (h : parse ctx sw s bs = some s') : P s' := by
  induction hn : bs.length using Nat.strong_induction_on generalizing s bs with
  | _ n ih =>
    by_cases hbs : bs = []
    · subst hbs
      cases h
      exact hs
    · rw [parse_eq hbs] at h
      obtain ⟨r,hturn,h⟩ := Option.bind_eq_some_iff.mp h
      have hr : P r.1 := by
        obtain ⟨t,_,hturn⟩ := Option.bind_eq_some_iff.mp hturn
        have hkeep : ∀ {tag cs}, unusual ctx s tag cs = some r → P r.1 := by
          intro tag cs hu
          unfold unusual at hu
          split at hu
          · cases hu
          · obtain ⟨rest,_,rfl⟩ := Option.map_eq_some_iff.mp hu
            exact hs
        unfold choose at hturn
        split at hturn
        · rename_i byte R hcase
          split at hturn
          · exact hstep s _ byte R hs hcase _ r hturn
          · exact hkeep hturn
        · exact hkeep hturn
      exact ih r.2.length (hn ▸ turn_shrinks hturn) hr h rfl

/-- Whatever follows, the bytes take a parse from `s` to `s'`. -/
def Advances (ctx : Context) (sw : Switch σ) (s : σ) (bs : List UInt8) (s' : σ) : Prop :=
  ∀ rest, parse ctx sw s (bs ++ rest) = parse ctx sw s' rest

theorem Advances.nil : Advances ctx sw s [] s := fun _ => rfl

theorem Advances.append {s'' : σ} {cs : List UInt8} (h : Advances ctx sw s bs s')
    (h' : Advances ctx sw s' cs s'') : Advances ctx sw s (bs ++ cs) s'' := by
  intro rest
  rw [List.append_assoc,h,h']

theorem Advances.fields {s'' : σ} {fs gs : List Field} (h : Advances ctx sw s (encode fs) s')
    (h' : Advances ctx sw s' (encode gs) s'') : Advances ctx sw s (encode (fs ++ gs)) s'' := by
  rw [encode_append]
  exact h.append h'

theorem Advances.parse (h : Advances ctx sw s bs s') : parse ctx sw s bs = some s' := by
  have hend := h []
  rwa [List.append_nil,parse_nil] at hend

structure Knows (sw : Switch σ) (s : σ) (k w : ℕ) (R : Reader σ) : Prop where
  case : sw s k = some ((8 * k + w) % 2 ^ 8,R)
  wire : w < 8
  small : 8 * k + w < 2 ^ 32

theorem Knows.choose {k w : ℕ} {R : Reader σ} (h : Knows sw s k w R) (bs : List UInt8) :
    choose ctx sw s (8 * k + w) bs = R.read bs := by
  have hdiv : (8 * k + w) / 8 = k := by
    have := h.wire
    omega
  rw [Wire.choose,hdiv,h.case]
  exact if_pos rfl

theorem Knows.turn {k w : ℕ} {R : Reader σ} (h : Knows sw s k w R) (bs : List UInt8) :
    turn ctx sw s (varint (8 * k + w) ++ bs) = R.read bs := by
  have htag := readVarint_varint (show 0 < 5 by decide)
    (Nat.lt_trans h.small (show 2 ^ 32 < 2 ^ (7 * 5) by decide)) bs
  rw [Wire.turn,htag,Option.bind_some,Nat.mod_eq_of_lt h.small]
  exact h.choose bs

theorem varint_append_ne_nil (n : ℕ) (bs : List UInt8) : varint n ++ bs ≠ [] := by
  intro h
  have hpos := varint_length_pos n
  rw [(List.append_eq_nil_iff.mp h).1] at hpos
  exact absurd hpos (Nat.lt_irrefl 0)

theorem Knows.advances {k w : ℕ} {R : Reader σ} (h : Knows sw s k w R)
    (hread : ∀ rest, R.read (bs ++ rest) = some (s',rest)) :
    Advances ctx sw s (varint (8 * k + w) ++ bs) s' := by
  intro rest
  rw [List.append_assoc,parse_eq (varint_append_ne_nil _ _),h.turn,hread,Option.bind_some]

theorem Knows.cut {k w : ℕ} {R : Reader σ} {cs : List UInt8} (h : Knows sw s k w R)
    (hread : ∀ part, part <+: bs → part ≠ bs → R.read part = none)
    (hcs : cs <+: varint (8 * k + w) ++ bs) (hnil : cs ≠ [])
    (hne : cs ≠ varint (8 * k + w) ++ bs) : Wire.parse ctx sw s cs = none := by
  have hpart : ∀ part, part <+: bs → cs = varint (8 * k + w) ++ part →
      Wire.parse ctx sw s cs = none := by
    rintro part hbegins rfl
    have hother : part ≠ bs := fun heq => hne (by rw [heq])
    rw [parse_eq hnil,h.turn,hread part hbegins hother,Option.bind_none]
  obtain ⟨t,ht⟩ := hcs
  rcases List.append_eq_append_iff.mp ht with ⟨more,htag,hrest⟩ | ⟨part,hcs,hrest⟩
  · by_cases hwhole : cs = varint (8 * k + w)
    · exact hpart [] List.nil_prefix (by rw [List.append_nil,hwhole])
    · have hnone := readVarint_cut (m := 5) ⟨more,htag.symm⟩ hwhole
      rw [parse_eq hnil,Wire.turn,hnone,Option.bind_none,Option.bind_none]
  · exact hpart part ⟨t,hrest.symm⟩ hcs

/-- What the cases of `sw` read those of `sw'` read alike. -/
def Switch.Within (sw sw' : Switch σ) : Prop :=
  ∀ s k byte R, sw s k = some (byte,R) → ∃ R', sw' s k = some (byte,R') ∧ R.Within R'

theorem Switch.Within.refl (sw : Switch σ) : sw.Within sw := fun _ _ _ R h => ⟨R,h,.refl R⟩

theorem parse_within {sw' : Switch σ} (hsw : sw.Within sw') (ctx' : Context)
    (hknown : ∀ tag bs, ctx.unknownFieldParse tag bs = none)
    (h : parse ctx sw s bs = some s') : parse ctx' sw' s bs = some s' := by
  induction hn : bs.length using Nat.strong_induction_on generalizing s bs with
  | _ n ih =>
    by_cases hbs : bs = []
    · subst hbs
      exact h
    · rw [parse_eq hbs] at h ⊢
      obtain ⟨r,hturn,h⟩ := Option.bind_eq_some_iff.mp h
      have hr := ih r.2.length (hn ▸ turn_shrinks hturn) h rfl
      obtain ⟨t,htag,hchoose⟩ := Option.bind_eq_some_iff.mp hturn
      have hunusual (tag : ℕ) (cs : List UInt8) : unusual ctx s tag cs = none := by
        simp only [unusual,hknown,Option.map_none,ite_self]
      have hchoose' : choose ctx' sw' s (t.1 % 2 ^ 32) t.2 = some r := by
        unfold choose at hchoose ⊢
        split at hchoose
        · rename_i byte R hcase
          obtain ⟨R',hcase',hwithin⟩ := hsw s _ byte R hcase
          rw [hcase']
          split at hchoose
          · rename_i hbyte
            exact (if_pos hbyte).trans (hwithin _ _ hchoose)
          · rw [hunusual] at hchoose
            cases hchoose
        · rw [hunusual] at hchoose
          cases hchoose
      rw [turn,htag,Option.bind_some,hchoose',Option.bind_some]
      exact hr

theorem message_within {sw' : Switch σ} (hsw : sw.Within sw') (ctx' : Context)
    (hknown : ∀ tag bs, ctx.unknownFieldParse tag bs = none) (s : σ) :
    (message ctx sw s).Within (message ctx' sw' s) := by
  intro bs r hr
  obtain ⟨cs,hparse,hread⟩ := Reader.of_filterMap hr
  rw [message,Reader.filterMap_read hread,parse_within hsw ctx' hknown hparse,Option.map_some]

end Loop

section Repeated

variable {σ τ : Type} (ctx : Context) (byte : UInt8) (item : Reader τ)

/-- The loop of a repeated field: after an element it takes the next tag by itself
where it is the field's own again. -/
def repeatLoop : ℕ → List τ → List UInt8 → Option (List τ × List UInt8)
  | 0, _, _ => none
  | fuel+1, ts, bs =>
    (item.read bs).bind fun r =>
      match r.2 with
      | [] => some (ts ++ [r.1],[])
      | b::rest =>
        if ctx.dataAvailable (b::rest) ∧ b = byte then repeatLoop fuel (ts ++ [r.1]) rest
        else some (ts ++ [r.1],b::rest)

theorem repeatLoop_shrinks {fuel : ℕ} {ts : List τ} {bs : List UInt8} {r : List τ × List UInt8}
    (h : repeatLoop ctx byte item fuel ts bs = some r) : r.2.length < bs.length := by
  induction fuel generalizing ts bs with
  | zero => cases h
  | succ fuel ih =>
    obtain ⟨q,hq,h⟩ := Option.bind_eq_some_iff.mp h
    have hlt := item.shrinks hq
    obtain ⟨t,rest⟩ := q
    cases rest with
    | nil =>
      cases h
      exact hlt
    | cons b rest =>
      dsimp only at h hlt
      rw [List.length_cons] at hlt
      split at h
      · have := ih h
        omega
      · cases h
        rwa [List.length_cons]

def repeated (ts : List τ) : Reader (List τ) :=
  ⟨fun bs => repeatLoop ctx byte item bs.length ts bs,repeatLoop_shrinks ctx byte item⟩

structure Slot (σ τ : Type) where
  get : σ → List τ
  put : σ → List τ → σ
  get_put : ∀ s ts, get (put s ts) = ts
  put_put : ∀ s ts ts', put (put s ts) ts' = put s ts'

variable {ctx byte item} {sw plain : Switch σ}

/-- `sw` and `plain` differ in the case of a repeated field only, which `sw` reads with
a loop of its own and `plain` an element at a time. -/
structure Unrolls (ctx : Context) (byte : UInt8) (item : Reader τ) (slot : Slot σ τ)
    (sw plain : Switch σ) : Prop where
  small : byte.toNat < 128
  loop : ∀ s, sw s (byte.toNat / 8) = some (byte.toNat,
    (repeated ctx byte item (slot.get s)).map (slot.put s))
  once : ∀ s, plain s (byte.toNat / 8) = some (byte.toNat,
    item.map fun t => slot.put s (slot.get s ++ [t]))
  other : ∀ s k, k ≠ byte.toNat / 8 → sw s k = plain s k

variable {slot : Slot σ τ} (h : Unrolls ctx byte item slot sw plain)
include h

theorem Unrolls.element (s : σ) (bs : List UInt8) :
    parse ctx plain s (byte::bs) =
      (item.read bs).bind fun r => parse ctx plain (slot.put s (slot.get s ++ [r.1])) r.2 := by
  have htag : readVarint 5 (byte::bs) = some (byte.toNat,bs) := if_pos h.small
  have hmod : byte.toNat % 2 ^ 32 = byte.toNat :=
    Nat.mod_eq_of_lt (Nat.lt_trans h.small (by decide))
  have hlow : byte.toNat % 2 ^ 8 = byte.toNat :=
    Nat.mod_eq_of_lt (Nat.lt_trans h.small (by decide))
  rw [parse_eq (List.cons_ne_nil _ _),turn,htag,Option.bind_some,hmod,choose,h.once]
  simp only [hlow,if_true,Reader.map,Reader.filterMap,Option.map_some,Option.bind_assoc,
    Option.bind_some]

theorem Unrolls.elements {n : ℕ} (s : σ)
    (hshort : ∀ s bs, bs.length < n → parse ctx sw s bs = parse ctx plain s bs) (fuel : ℕ)
    (ts : List τ) {bs : List UInt8} (hn : bs.length < n) (hfuel : bs.length ≤ fuel) :
    ((repeatLoop ctx byte item fuel ts bs).bind fun r => parse ctx sw (slot.put s r.1) r.2) =
      (item.read bs).bind fun r => parse ctx plain (slot.put s (ts ++ [r.1])) r.2 := by
  induction fuel generalizing ts bs with
  | zero =>
    cases hread : item.read bs with
    | none => rfl
    | some r =>
      have := item.shrinks hread
      omega
  | succ fuel ih =>
    cases hread : item.read bs with
    | none => rw [repeatLoop,hread,Option.bind_none,Option.bind_none,Option.bind_none]
    | some r =>
      have hlt := item.shrinks hread
      obtain ⟨t,rest⟩ := r
      rw [repeatLoop,hread,Option.bind_some,Option.bind_some]
      cases rest with
      | nil => rfl
      | cons b rest =>
        rw [List.length_cons] at hlt
        dsimp only
        split
        · rename_i hnext
          rw [ih _ (by omega) (by omega),hnext.2,h.element,slot.get_put]
          simp only [slot.put_put]
        · rw [Option.bind_some]
          exact hshort _ _ (by rw [List.length_cons]; omega)

theorem Unrolls.parse (s : σ) (bs : List UInt8) : parse ctx sw s bs = parse ctx plain s bs := by
  induction hn : bs.length using Nat.strong_induction_on generalizing s bs with
  | _ n ih =>
    subst hn
    have hshort : ∀ s cs, cs.length < bs.length → Wire.parse ctx sw s cs = Wire.parse ctx plain s cs :=
      fun s cs hcs => ih cs.length hcs s cs rfl
    have hsame : ∀ {o : Option (σ × List UInt8)}, (∀ r, o = some r → r.2.length < bs.length) →
        (o.bind fun r => Wire.parse ctx sw r.1 r.2) = o.bind fun r => Wire.parse ctx plain r.1 r.2 := by
      intro o ho
      cases o with
      | none => rfl
      | some r => exact hshort _ _ (ho r rfl)
    by_cases hbs : bs = []
    · rw [hbs,parse_nil,parse_nil]
    rw [parse_eq hbs,parse_eq hbs,turn,turn,Option.bind_assoc,Option.bind_assoc]
    cases htag : readVarint 5 bs with
    | none => rfl
    | some r =>
      have hlt := readVarint_shrinks htag
      rw [Option.bind_some,Option.bind_some]
      have hunusual := hsame (o := unusual ctx s (r.1 % 2 ^ 32) r.2) fun q hq =>
        Nat.lt_of_le_of_lt (unusual_shrinks hq) hlt
      by_cases hk : r.1 % 2 ^ 32 / 8 = byte.toNat / 8
      · unfold choose
        rw [hk,h.loop,h.once]
        dsimp only
        split
        · simp only [Reader.map,Reader.filterMap,repeated,Option.map_some,Option.bind_assoc,
            Option.bind_some]
          exact h.elements s hshort _ _ hlt (le_refl _)
        · exact hunusual
      · have hchoose : choose ctx sw s (r.1 % 2 ^ 32) r.2 = choose ctx plain s (r.1 % 2 ^ 32) r.2 := by
          unfold choose
          rw [h.other s _ hk]
        rw [hchoose]
        exact hsame fun q hq => Nat.lt_of_le_of_lt (choose_shrinks hq) hlt

end Repeated

theorem parse_available {σ : Type} (ctx : Context) (f : List UInt8 → Bool) (sw : Switch σ) :
    parse { ctx with dataAvailable := f } sw = parse ctx sw := by
  funext s bs
  induction hn : bs.length using Nat.strong_induction_on generalizing s bs with
  | _ n ih =>
    by_cases hbs : bs = []
    · rw [hbs,parse_nil,parse_nil]
    · rw [parse_eq hbs,parse_eq hbs]
      have hturn : turn { ctx with dataAvailable := f } sw s bs = turn ctx sw s bs := rfl
      rw [hturn]
      cases hr : turn ctx sw s bs with
      | none => rfl
      | some r => exact ih r.2.length (hn ▸ turn_shrinks hr) r.1 r.2 rfl

end Wire
