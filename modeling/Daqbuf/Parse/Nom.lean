import Mathlib
import Daqbuf.Bytes.Endian
/-!
# Parsers of Bytes

Parsers that take a value off the front of a byte sequence.  A parser stops with a recoverable error, with a
failure, with the statement that input is missing, or in a panic.

Main results:

- Theorem {lit}`bind_eq_ok`: two parsers one after the other succeed exactly when both do.
- Theorem {lit}`bind_eq_panicked`: they panic exactly when the first one does, or the second one on what is left.
- Theorems {lit}`exact_beU`, {lit}`exact_beI` and {lit}`exact_take`: a field is parsed exactly from what
  encodes it.
- Theorems {lit}`Local.bind`, {lit}`local_readU` and {lit}`local_refuse`: what is parsed does not depend on what
  follows.
- Theorem {lit}`many0_flatMap`: encodings one after the other are parsed completely.
-/

namespace Nom

open Bytes

/-- {lit}`ErrorKind`, as far as it occurs. -/
inductive ErrorKind where
  | eof
  | fail
  | many0
  deriving DecidableEq, Repr

/-- {lit}`ParseError` -/
class ParseError (ε : Type) where
  fromErrorKind : ErrorKind → ε

instance : ParseError ErrorKind := ⟨id⟩

/-- {lit}`nom::Err`; of missing input the size is kept where it is known. -/
inductive Err (ε : Type) where
  | incomplete (needed : Option ℕ)
  | error (e : ε)
  | failure (e : ε)
  deriving DecidableEq, Repr

/-- How a parser stops -/
inductive Stop (ε : Type) where
  | err (e : Err ε)
  | panicked
  deriving DecidableEq, Repr

/-- A parser: it returns its value and the input that is left. -/
abbrev Parser (ε α : Type) := StateT (List UInt8) (Except (Stop ε)) α

section Core

variable {ε α β : Type}

/-- Stops with an error. -/
def throwErr (e : Err ε) : Parser ε α := fun _ => .error (.err e)

/-- Stops with an error, if a condition holds. -/
def refuse (bad : Prop) [Decidable bad] (e : Err ε) : Parser ε Unit := fun inp =>
  if bad then .error (.err e) else .ok ((), inp)

/-- Panics, if a condition holds. -/
def panicIf (bad : Prop) [Decidable bad] : Parser ε Unit := fun inp =>
  if bad then .error .panicked else .ok ((), inp)

variable [ParseError ε]

/-- {lit}`nom::bytes::complete::take` -/
def take (n : ℕ) : Parser ε (List UInt8) := fun inp =>
  if inp.length < n then .error (.err (.error (ParseError.fromErrorKind .eof))) else .ok (inp.take n, inp.drop n)

/-- {lit}`be_u8`, {lit}`be_u32` and {lit}`be_u64`, by the number of bytes. -/
def beU (n : ℕ) : Parser ε ℕ := do return ofBe (← take n)

/-- The number with a sign that the bits of a number stand for. -/
def signed (n v : ℕ) : ℤ := if 2 * v < 256 ^ n then v else v - 256 ^ n

/-- The bits that stand for a number with a sign. -/
def unsigned (n : ℕ) (x : ℤ) : ℕ := (x % (256 ^ n : ℕ)).toNat

/-- {lit}`be_i8`, {lit}`be_i16`, {lit}`be_i32` and {lit}`be_i64`, by the number of bytes. -/
def beI (n : ℕ) : Parser ε ℤ := do return signed n (← beU n)

/-- The bytes of a number with a sign. -/
def beBytesI (n : ℕ) (x : ℤ) : List UInt8 := beBytes n (unsigned n x)

/-- {lit}`be_u8`, as a byte -/
def beU8 : Parser ε UInt8
  | [] => .error (.err (.error (ParseError.fromErrorKind .eof)))
  | b :: rest => .ok (b, rest)

/-- Applies a parser a number of times, as a loop does. -/
def times (p : Parser ε α) : ℕ → Parser ε (List α)
  | 0 => pure []
  | n + 1 => do
      let a ← p
      return a :: (← times p n)

/-- {lit}`many0`: applies the parser until it has a recoverable error.  It has to make progress. -/
def many0 (p : Parser ε α) : Parser ε (List α) := fun inp =>
  match p inp with
  | .error (.err (.error _)) => .ok ([], inp)
  | .error e => .error e
  | .ok (a, rest) =>
      if rest.length < inp.length then (many0 p rest).map fun (as, rest) => (a :: as, rest)
      else .error (.err (.error (ParseError.fromErrorKind .many0)))
termination_by inp => inp.length

end Core

/-! ## One parser after the other -/

section Rules

variable {ε α β : Type} {p : Parser ε α} {f : α → Parser ε β} {inp rest : List UInt8}

theorem bind_apply : (p >>= f) inp = (p inp).bind fun x => f x.1 x.2 := rfl

theorem bind_eq_ok {b : β} :
    (p >>= f) inp = .ok (b, rest) ↔ ∃ a mid, p inp = .ok (a, mid) ∧ f a mid = .ok (b, rest) := by
  rw [bind_apply]
  cases h : p inp with
  | error e => simp [Except.bind]
  | ok x =>
      obtain ⟨a, mid⟩ := x
      simp [Except.bind]

theorem bind_eq_panicked :
    (p >>= f) inp = .error .panicked ↔
      p inp = .error .panicked ∨ ∃ a mid, p inp = .ok (a, mid) ∧ f a mid = .error .panicked := by
  rw [bind_apply]
  cases h : p inp with
  | error e => simp [Except.bind]
  | ok x =>
      obtain ⟨a, mid⟩ := x
      simp [Except.bind]

/-- A first parser that succeeds hands over what it left. -/
theorem bind_of_ok {a : α} {mid : List UInt8} (h : p inp = .ok (a, mid)) : (p >>= f) inp = f a mid := by
  rw [bind_apply, h]
  rfl

theorem pure_eq_ok {a b : α} : (pure a : Parser ε α) inp = .ok (b, rest) ↔ b = a ∧ rest = inp := by
  simp [pure, StateT.pure, Except.pure, eq_comm]

theorem pure_ne_panicked {a : α} : (pure a : Parser ε α) inp ≠ .error .panicked := nofun

theorem throwErr_ne_ok {e : Err ε} {x : α × List UInt8} : (throwErr e : Parser ε α) inp ≠ .ok x := nofun

theorem refuse_eq_ok {bad : Prop} [Decidable bad] {e : Err ε} {u : Unit} :
    refuse bad e inp = .ok (u, rest) ↔ ¬ bad ∧ rest = inp := by
  unfold refuse
  split
  · simp_all
  · simp_all [eq_comm]

theorem refuse_of_not {bad : Prop} [Decidable bad] {e : Err ε} (h : ¬ bad) (inp : List UInt8) :
    refuse bad e inp = .ok ((), inp) := if_neg h

theorem refuse_ne_panicked {bad : Prop} [Decidable bad] {e : Err ε} : refuse bad e inp ≠ .error .panicked := by
  unfold refuse
  split
  · nofun
  · nofun

theorem panicIf_eq_ok {bad : Prop} [Decidable bad] {u : Unit} :
    (panicIf bad : Parser ε Unit) inp = .ok (u, rest) ↔ ¬ bad ∧ rest = inp := by
  unfold panicIf
  split
  · simp_all
  · simp_all [eq_comm]

theorem panicIf_of_not {bad : Prop} [Decidable bad] (h : ¬ bad) (inp : List UInt8) :
    (panicIf bad : Parser ε Unit) inp = .ok ((), inp) := if_neg h

theorem panicIf_eq_panicked {bad : Prop} [Decidable bad] :
    (panicIf bad : Parser ε Unit) inp = .error .panicked ↔ bad := by
  unfold panicIf
  split
  · simp_all
  · simp_all

theorem get_eq_ok {s : List UInt8} : (get : Parser ε (List UInt8)) inp = .ok (s, rest) ↔ s = inp ∧ rest = inp := by
  simp [get, getThe, MonadStateOf.get, StateT.get, pure, Except.pure, eq_comm]

theorem get_apply (inp : List UInt8) : (get : Parser ε (List UInt8)) inp = .ok (inp, inp) := rfl

theorem get_ne_panicked : (get : Parser ε (List UInt8)) inp ≠ .error .panicked := nofun

theorem set_eq_ok {s : List UInt8} {u : PUnit} : (set s : Parser ε PUnit) inp = .ok (u, rest) ↔ rest = s := by
  simp [set, MonadStateOf.set, StateT.set, pure, Except.pure, eq_comm]

theorem set_ne_panicked {s : List UInt8} : (set s : Parser ε PUnit) inp ≠ .error .panicked := nofun

end Rules

/-! ## Fields -/

section Fields

variable {ε α β : Type} {inp rest : List UInt8}

/-- A parser that succeeds exactly on what encodes a valid value, with anything behind it. -/
def Exact (p : Parser ε α) (valid : α → Prop) (enc : α → List UInt8) : Prop :=
  ∀ inp a rest, p inp = .ok (a, rest) ↔ valid a ∧ inp = enc a ++ rest

/-- A parser that does not panic. -/
def Total (p : Parser ε α) : Prop := ∀ inp, p inp ≠ .error .panicked

theorem Total.bind {p : Parser ε α} {f : α → Parser ε β} (hp : Total p) (hf : ∀ a, Total (f a)) :
    Total (p >>= f) := by
  intro inp h
  rcases bind_eq_panicked.mp h with h | ⟨a, mid, -, h⟩
  · exact hp inp h
  · exact hf a mid h

/-- The encodings of an exact parser cannot be confused. -/
theorem Exact.unique {p : Parser ε α} {valid : α → Prop} {enc : α → List UInt8} (hp : Exact p valid enc)
    {a b : α} {r s : List UInt8} (ha : valid a) (hb : valid b) (heq : enc a ++ r = enc b ++ s) : a = b ∧ r = s := by
  have hpa : p (enc a ++ r) = .ok (a, r) := (hp _ _ _).mpr ⟨ha, rfl⟩
  have hpb : p (enc a ++ r) = .ok (b, s) := (hp _ _ _).mpr ⟨hb, heq⟩
  rw [hpa] at hpb
  simpa using hpb

/-- An exact parser in front of another one. -/
theorem Exact.bind_eq_ok {p : Parser ε α} {f : α → Parser ε β} {valid : α → Prop} {enc : α → List UInt8} {b : β}
    (hp : Exact p valid enc) :
    (p >>= f) inp = .ok (b, rest) ↔ ∃ a mid, (valid a ∧ inp = enc a ++ mid) ∧ f a mid = .ok (b, rest) := by
  rw [Nom.bind_eq_ok]
  simp only [hp inp]

/-- A parser that is exact and does not panic, in front of another one. -/
theorem Exact.bind_eq_panicked {p : Parser ε α} {f : α → Parser ε β} {valid : α → Prop} {enc : α → List UInt8}
    (hp : Exact p valid enc) (htotal : Total p) :
    (p >>= f) inp = .error .panicked ↔ ∃ a mid, (valid a ∧ inp = enc a ++ mid) ∧ f a mid = .error .panicked := by
  rw [Nom.bind_eq_panicked, or_iff_right (htotal inp)]
  simp only [hp inp]

/-- What an exact parser accepts, it parses. -/
theorem Exact.parse {p : Parser ε α} {valid : α → Prop} {enc : α → List UInt8} (hp : Exact p valid enc) {a : α}
    (ha : valid a) (rest : List UInt8) : p (enc a ++ rest) = .ok (a, rest) :=
  (hp _ _ _).mpr ⟨ha, rfl⟩

/-- Exact values one after the other are exact. -/
theorem Exact.times {p : Parser ε α} {valid : α → Prop} {enc : α → List UInt8} (hp : Exact p valid enc) (n : ℕ) :
    Exact (times p n) (fun as => as.length = n ∧ ∀ a ∈ as, valid a) (fun as => as.flatMap enc) := by
  induction n with
  | zero =>
      intro inp as rest
      rw [Nom.times, pure_eq_ok]
      constructor
      · rintro ⟨rfl, rfl⟩
        exact ⟨⟨rfl, nofun⟩, rfl⟩
      · rintro ⟨⟨hlen, -⟩, rfl⟩
        obtain rfl := List.eq_nil_of_length_eq_zero hlen
        exact ⟨rfl, rfl⟩
  | succ n ih =>
      intro inp as rest
      rw [Nom.times, hp.bind_eq_ok]
      simp only [ih.bind_eq_ok, pure_eq_ok]
      constructor
      · rintro ⟨a, mid, ⟨ha, rfl⟩, as', mid', ⟨⟨hlen, has⟩, rfl⟩, rfl, rfl⟩
        refine ⟨⟨congrArg Nat.succ hlen, List.forall_mem_cons.mpr ⟨ha, has⟩⟩, ?_⟩
        exact (List.append_assoc _ _ _).symm
      · rintro ⟨⟨hlen, has⟩, rfl⟩
        cases as with
        | nil => cases hlen
        | cons a as =>
            obtain ⟨ha, has⟩ := List.forall_mem_cons.mp has
            exact ⟨a, _, ⟨ha, List.append_assoc _ _ _⟩, as, rest, ⟨⟨Nat.succ.inj hlen, has⟩, rfl⟩, rfl, rfl⟩

theorem Total.times {p : Parser ε α} (hp : Total p) (n : ℕ) : Total (times p n) := by
  induction n with
  | zero => exact fun _ => nofun
  | succ n ih => exact hp.bind fun a => ih.bind fun as => fun _ => nofun

variable [ParseError ε]

theorem exact_beU8 : Exact (beU8 : Parser ε UInt8) (fun _ => True) (fun b => [b]) := by
  intro inp b rest
  cases inp with
  | nil => exact iff_of_false nofun nofun
  | cons c inp =>
      rw [beU8, Except.ok.injEq, Prod.mk.injEq, true_and, List.singleton_append, List.cons.injEq]

theorem total_beU8 : Total (beU8 : Parser ε UInt8) := by
  intro inp
  cases inp with
  | nil => nofun
  | cons c inp => nofun

/-- {lit}`take` gives the bytes at the front. -/
theorem exact_take (n : ℕ) : Exact (take n : Parser ε (List UInt8)) (fun bs => bs.length = n) id := by
  intro inp a rest
  unfold take
  split
  · rename_i hlt
    apply iff_of_false nofun
    rintro ⟨hlen, rfl⟩
    rw [List.length_append, id, hlen] at hlt
    omega
  · rename_i hle
    rw [Except.ok.injEq, Prod.mk.injEq]
    constructor
    · rintro ⟨rfl, rfl⟩
      have hlen : (inp.take n).length = n := by
        rw [List.length_take]
        omega
      exact ⟨hlen, (List.take_append_drop n inp).symm⟩
    · rintro ⟨hlen, rfl⟩
      exact ⟨List.take_left' hlen, List.drop_left' hlen⟩

theorem take_append (bs rest : List UInt8) : (take bs.length : Parser ε (List UInt8)) (bs ++ rest) = .ok (bs, rest) :=
  (exact_take _ _ _ _).mpr ⟨rfl, rfl⟩

theorem total_take (n : ℕ) : Total (take n : Parser ε (List UInt8)) := by
  intro inp
  unfold take
  split
  · nofun
  · nofun

theorem leBytes_ofLe (bs : List UInt8) : leBytes bs.length (ofLe bs) = bs := by
  induction bs with
  | nil => rfl
  | cons b bs ih =>
      have hbyte : UInt8.ofNat (b.toNat + 256 * ofLe bs) = b := by
        apply UInt8.toNat_inj.mp
        have hb := b.toNat_lt
        rw [UInt8.toNat_ofNat']
        omega
      have hrest : (b.toNat + 256 * ofLe bs) / 256 = ofLe bs := by
        have hb := b.toNat_lt
        omega
      rw [List.length_cons, ofLe, leBytes, hbyte, hrest, ih]

/-- The bytes of the number that bytes stand for are these bytes. -/
theorem beBytes_ofBe {n : ℕ} {bs : List UInt8} (hlen : bs.length = n) : beBytes n (ofBe bs) = bs := by
  subst hlen
  rw [beBytes, ofBe, ← List.length_reverse, leBytes_ofLe, List.reverse_reverse]

/-- An unsigned field is parsed from its bytes. -/
theorem exact_beU (n : ℕ) : Exact (beU n : Parser ε ℕ) (fun v => v < 256 ^ n) (beBytes n) := by
  intro inp v rest
  rw [beU, bind_eq_ok]
  constructor
  · rintro ⟨bs, mid, htake, hpure⟩
    obtain ⟨rfl, rfl⟩ := pure_eq_ok.mp hpure
    obtain ⟨hlen, rfl⟩ := (exact_take n _ _ _).mp htake
    rw [beBytes_ofBe hlen]
    exact ⟨hlen ▸ ofBe_lt bs, rfl⟩
  · rintro ⟨hlt, rfl⟩
    refine ⟨beBytes n v, rest, (exact_take n _ _ _).mpr ⟨length_beBytes n v, rfl⟩, ?_⟩
    rw [ofBe_beBytes_of_lt hlt]
    rfl

theorem beU_append {n v : ℕ} (hlt : v < 256 ^ n) (rest : List UInt8) :
    (beU n : Parser ε ℕ) (beBytes n v ++ rest) = .ok (v, rest) :=
  (exact_beU n _ _ _).mpr ⟨hlt, rfl⟩

theorem total_beU (n : ℕ) : Total (beU n : Parser ε ℕ) := (total_take n).bind fun _ _ => nofun

/-- A number that a field with a sign can hold. -/
def FitsSigned (n : ℕ) (x : ℤ) : Prop := -256 ^ n ≤ 2 * x ∧ 2 * x < 256 ^ n

instance {n : ℕ} {x : ℤ} : Decidable (FitsSigned n x) := inferInstanceAs (Decidable (_ ∧ _))

theorem unsigned_signed {n v : ℕ} (hlt : v < 256 ^ n) : unsigned n (signed n v) = v := by
  unfold unsigned signed
  split
  · rw [Int.emod_eq_of_lt (Int.natCast_nonneg v) (by exact_mod_cast hlt)]
    rfl
  · rw [show ((256 : ℤ) ^ n) = ((256 ^ n : ℕ) : ℤ) by norm_cast, Int.sub_emod_right,
      Int.emod_eq_of_lt (Int.natCast_nonneg v) (by exact_mod_cast hlt)]
    rfl

theorem fitsSigned_signed {n v : ℕ} (hlt : v < 256 ^ n) : FitsSigned n (signed n v) := by
  have hlt' : (v : ℤ) < 256 ^ n := by exact_mod_cast hlt
  unfold FitsSigned signed
  split
  · rename_i h
    have h' : 2 * (v : ℤ) < 256 ^ n := by exact_mod_cast h
    omega
  · rename_i h
    have h' : (256 : ℤ) ^ n ≤ 2 * v := by exact_mod_cast not_lt.mp h
    omega

theorem unsigned_lt (n : ℕ) (x : ℤ) : unsigned n x < 256 ^ n := by
  have hpos : (0 : ℤ) < ((256 ^ n : ℕ) : ℤ) := by positivity
  have hlt := Int.emod_lt_of_pos x hpos
  have hnonneg := Int.emod_nonneg x hpos.ne'
  unfold unsigned
  omega

theorem signed_unsigned {n : ℕ} {x : ℤ} (hx : FitsSigned n x) : signed n (unsigned n x) = x := by
  have hpow : ((256 : ℤ) ^ n) = ((256 ^ n : ℕ) : ℤ) := by norm_cast
  have hpos : (0 : ℤ) < ((256 ^ n : ℕ) : ℤ) := by positivity
  obtain ⟨hge, hlt⟩ := hx
  rw [hpow] at hge hlt
  unfold signed
  rcases le_or_gt 0 x with hx | hx
  · have hmod : unsigned n x = x.toNat := by
      rw [unsigned, Int.emod_eq_of_lt hx (by omega)]
    rw [hmod, if_pos (by omega)]
    omega
  · have hmod : unsigned n x = (x + (256 ^ n : ℕ)).toNat := by
      rw [unsigned, ← Int.add_emod_right, Int.emod_eq_of_lt (by omega) (by omega)]
    rw [hmod, if_neg (by omega), hpow]
    omega

/-- A field with a sign is parsed from its bytes. -/
theorem exact_beI (n : ℕ) : Exact (beI n : Parser ε ℤ) (FitsSigned n) (beBytesI n) := by
  intro inp x rest
  rw [beI, bind_eq_ok]
  constructor
  · rintro ⟨v, mid, hv, hpure⟩
    obtain ⟨rfl, rfl⟩ := pure_eq_ok.mp hpure
    obtain ⟨hlt, rfl⟩ := (exact_beU n _ _ _).mp hv
    rw [beBytesI, unsigned_signed hlt]
    exact ⟨fitsSigned_signed hlt, rfl⟩
  · rintro ⟨hfits, rfl⟩
    refine ⟨unsigned n x, rest, (exact_beU n _ _ _).mpr ⟨unsigned_lt n x, rfl⟩, ?_⟩
    rw [signed_unsigned hfits]
    rfl

/-- Enough bytes begin with a field with a sign. -/
theorem exists_beBytesI {n : ℕ} (hle : n ≤ inp.length) :
    ∃ x mid, FitsSigned n x ∧ inp = beBytesI n x ++ mid := by
  have hlen : (inp.take n).length = n := by
    rw [List.length_take]
    omega
  have hlt : ofBe (inp.take n) < 256 ^ n := (ofBe_lt (inp.take n)).trans_eq (by rw [hlen])
  refine ⟨signed n (ofBe (inp.take n)), inp.drop n, fitsSigned_signed hlt, ?_⟩
  rw [beBytesI, unsigned_signed hlt, beBytes_ofBe hlen, List.take_append_drop]

theorem ofBe_beBytesI (n : ℕ) (x : ℤ) : ofBe (beBytesI n x) = unsigned n x := ofBe_beBytes_of_lt (unsigned_lt n x)

theorem total_beI (n : ℕ) : Total (beI n : Parser ε ℤ) := (total_beU n).bind fun _ _ => nofun

@[simp]
theorem length_beBytesI (n : ℕ) (x : ℤ) : (beBytesI n x).length = n := length_beBytes n _

/-! ## Repetition -/

/-- A parser that succeeds is applied once more, if it made progress. -/
theorem many0_of_ok {p : Parser ε α} {a : α} (h : p inp = .ok (a, rest)) (hlt : rest.length < inp.length) :
    many0 p inp = (many0 p rest).map fun (as, rest) => (a :: as, rest) := by
  rw [many0, h]
  exact if_pos hlt

/-- The repetition ends with a recoverable error, without loss. -/
theorem many0_of_error {p : Parser ε α} {e : ε} (h : p inp = .error (.err (.error e))) :
    many0 p inp = .ok ([], inp) := by
  rw [many0, h]

/-- Encodings one after the other are parsed completely, if the parser does not accept an empty input. -/
theorem many0_flatMap {p : Parser ε α} {enc : β → List UInt8} {val : β → α} {e : ε} {bs : List β}
    (hp : ∀ b ∈ bs, ∀ rest, p (enc b ++ rest) = .ok (val b, rest)) (hne : ∀ b ∈ bs, enc b ≠ [])
    (hnil : p [] = .error (.err (.error e))) : many0 p (bs.flatMap enc) = .ok (bs.map val, []) := by
  induction bs with
  | nil => exact many0_of_error hnil
  | cons b bs ih =>
      have hb := hp b List.mem_cons_self (bs.flatMap enc)
      have hpos : 0 < (enc b).length := List.length_pos_of_ne_nil (hne b List.mem_cons_self)
      have hrest := ih (fun c hc => hp c (List.mem_cons_of_mem _ hc)) (fun c hc => hne c (List.mem_cons_of_mem _ hc))
      rw [List.flatMap_cons, many0_of_ok hb, hrest]
      · rfl
      · rw [List.length_append]
        omega

end Fields

/-! ## Unwrapped fields -/

section Unwrap

variable {ε α : Type} {inp rest : List UInt8}

/-- {lit}`unwrap` of what a parser gives: its errors are panics. -/
def unwrap {δ : Type} (p : Parser δ α) : Parser ε α := fun inp =>
  match p inp with
  | .ok x => .ok x
  | .error _ => .error .panicked

/-- {lit}`read_u8` and {lit}`read_u32` of a cursor, unwrapped, by the number of bytes -/
def readU (n : ℕ) : Parser ε ℕ := unwrap (beU n : Parser ErrorKind ℕ)

/-- {lit}`read_i8`, {lit}`read_i32` and {lit}`read_i64` of a cursor, unwrapped, by the number of bytes -/
def readI (n : ℕ) : Parser ε ℤ := unwrap (beI n : Parser ErrorKind ℤ)

theorem beU_apply (n : ℕ) (inp : List UInt8) :
    (beU n : Parser ErrorKind ℕ) inp =
      if inp.length < n then .error (.err (.error .eof)) else .ok (ofBe (inp.take n), inp.drop n) := by
  rw [beU, bind_apply, take]
  split
  · rfl
  · rfl

theorem readU_apply (n : ℕ) (inp : List UInt8) :
    (readU n : Parser ε ℕ) inp =
      if inp.length < n then .error .panicked else .ok (ofBe (inp.take n), inp.drop n) := by
  rw [readU, unwrap, beU_apply]
  split
  · rename_i h
    split at h
    · cases h
    · rename_i hle
      rw [if_neg hle, ← Except.ok.inj h]
  · rename_i h
    split at h
    · rename_i hlt
      rw [if_pos hlt]
    · cases h

theorem readI_eq (n : ℕ) : (readI n : Parser ε ℤ) = do return signed n (← readU n) := by
  funext inp
  rw [readI, unwrap, beI, bind_apply, bind_apply, readU, unwrap]
  cases (beU n : Parser ErrorKind ℕ) inp with
  | error e => rfl
  | ok x => rfl

/-- A field without a sign that is read in front of another parser. -/
theorem readU_bind (n : ℕ) (f : ℕ → Parser ε α) :
    (readU n >>= f) inp = if inp.length < n then .error .panicked else f (ofBe (inp.take n)) (inp.drop n) := by
  rw [bind_apply, readU_apply]
  split
  · rfl
  · rfl

/-- A field with a sign that is read in front of another parser. -/
theorem readI_bind (n : ℕ) (f : ℤ → Parser ε α) :
    (readI n >>= f) inp =
      if inp.length < n then .error .panicked else f (signed n (ofBe (inp.take n))) (inp.drop n) := by
  rw [readI_eq, bind_assoc, readU_bind]
  rfl

theorem refuse_bind (bad : Prop) [Decidable bad] (e : Err ε) (f : Unit → Parser ε α) :
    (refuse bad e >>= f) inp = if bad then .error (.err e) else f () inp := by
  rw [bind_apply, refuse]
  split
  · rfl
  · rfl

theorem panicIf_bind (bad : Prop) [Decidable bad] (f : Unit → Parser ε α) :
    (panicIf bad >>= f) inp = if bad then .error .panicked else f () inp := by
  rw [bind_apply, panicIf]
  split
  · rfl
  · rfl

/-- Consecutive fields without a sign. -/
def fieldsAt (k : ℕ) : ℕ → List UInt8 → List ℕ
  | 0, _ => []
  | n + 1, inp => ofBe (inp.take k) :: fieldsAt k n (inp.drop k)

theorem times_readU (k n : ℕ) (inp : List UInt8) :
    (times (readU k) n : Parser ε (List ℕ)) inp =
      if inp.length < k * n then .error .panicked else .ok (fieldsAt k n inp, inp.drop (k * n)) := by
  induction n generalizing inp with
  | zero => exact (if_neg (Nat.not_lt_zero _)).symm
  | succ n ih =>
      rw [times, readU_bind]
      have hmul : k * (n + 1) = k + k * n := by ring
      split
      · rename_i hlt
        rw [if_pos (by rw [hmul]; omega)]
      · rename_i hle
        rw [bind_apply, ih, List.length_drop]
        split
        · rename_i hlt
          rw [if_pos (by rw [hmul]; omega)]
          rfl
        · rename_i hle'
          rw [if_neg (by rw [hmul]; omega), hmul, ← List.drop_drop]
          rfl

/-! ## What follows -/

/-- Where a parser succeeds, it does so with anything behind the input, too. -/
def Local (p : Parser ε α) : Prop :=
  ∀ inp a rest more, p inp = .ok (a, rest) → p (inp ++ more) = .ok (a, rest ++ more)

theorem Local.bind {β : Type} {p : Parser ε α} {f : α → Parser ε β} (hp : Local p) (hf : ∀ a, Local (f a)) :
    Local (p >>= f) := by
  intro inp b rest more h
  obtain ⟨a, mid, hfst, hsnd⟩ := bind_eq_ok.mp h
  exact bind_eq_ok.mpr ⟨a, mid ++ more, hp inp a mid more hfst, hf a mid b rest more hsnd⟩

theorem local_pure (a : α) : Local (pure a : Parser ε α) := by
  intro inp b rest more h
  obtain ⟨rfl, rfl⟩ := pure_eq_ok.mp h
  rfl

theorem local_throwErr (e : Err ε) : Local (throwErr e : Parser ε α) := fun _ _ _ _ h => absurd h throwErr_ne_ok

theorem local_refuse (bad : Prop) [Decidable bad] (e : Err ε) : Local (refuse bad e) := by
  intro inp u rest more h
  obtain ⟨hbad, rfl⟩ := refuse_eq_ok.mp h
  exact refuse_of_not hbad _

theorem local_panicIf (bad : Prop) [Decidable bad] : Local (panicIf bad : Parser ε Unit) := by
  intro inp u rest more h
  obtain ⟨hbad, rfl⟩ := panicIf_eq_ok.mp h
  exact panicIf_of_not hbad _

theorem local_readU (n : ℕ) : Local (readU n : Parser ε ℕ) := by
  intro inp a rest more h
  rw [readU_apply] at h ⊢
  split_ifs at h with hlt
  cases h
  rw [List.length_append, if_neg (by omega), List.take_append_of_le_length (not_lt.mp hlt),
    List.drop_append_of_le_length (not_lt.mp hlt)]

theorem local_readI (n : ℕ) : Local (readI n : Parser ε ℤ) := by
  rw [readI_eq]
  exact (local_readU n).bind fun a => local_pure _

theorem Local.times {p : Parser ε α} (hp : Local p) (n : ℕ) : Local (times p n) := by
  induction n with
  | zero => exact local_pure []
  | succ n ih => exact hp.bind fun a => ih.bind fun as => local_pure (a :: as)

end Unwrap

/-! ## Text -/

/-- {lit}`str::as_bytes` -/
def utf8 (s : String) : List UInt8 := s.toByteArray.data.toList

/-- {lit}`String::from_utf8`; nothing for invalid text -/
def fromUtf8 (bs : List UInt8) : Option String := String.fromUTF8? ⟨bs.toArray⟩

/-- Exactly the bytes of a text give it. -/
theorem fromUtf8_eq_some {bs : List UInt8} {s : String} : fromUtf8 bs = some s ↔ bs = utf8 s := by
  unfold fromUtf8 String.fromUTF8? utf8
  split
  · rw [Option.some.injEq, ← String.toByteArray_inj]
    constructor
    · intro h
      rw [← h]
      rfl
    · rintro rfl
      rfl
  · rename_i h
    apply iff_of_false nofun
    rintro rfl
    exact h s.isValidUTF8

@[simp]
theorem fromUtf8_utf8 (s : String) : fromUtf8 (utf8 s) = some s := fromUtf8_eq_some.mpr rfl

end Nom
