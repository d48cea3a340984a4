import Daqbuf.Arith.Checked
import Daqbuf.Bytes.Layout
import Daqbuf.Netpod.Types
/-!
# Decoding of Disk Values

The conversion of the payload of an event on disk to a value, for each scalar type, for scalars and for waveforms.  The
byte order is the one that the event states.

A conversion has no result where it panics: a slice is longer than what it is taken from, or the size of a chunk is
zero.

Main results:

- Theorem {lit}`exists_reads`: the conversion for a type, by when it panics and what it gives back.
- Theorem {lit}`decodes_iff`: a payload is decoded to what was recorded, or refused, exactly if it is decodable.
-/

namespace Daqbuf
namespace Disk
namespace Decode

open Bytes Netpod

/-! ## Conversions -/

/-- {lit}`Endian` -/
inductive Endian where
  | little
  | big
  deriving DecidableEq, Repr

/-- A number of {lit}`nl` bytes, signed or not, with a fraction or not, by its bits -/
abbrev Number (nl : ℕ) : Type := BitVec (8 * nl)

/-- {lit}`from_le_bytes` and {lit}`from_be_bytes` -/
def fromBytes (nl : ℕ) : Endian → List UInt8 → Number nl
  | .little, bs => BitVec.ofNat (8 * nl) (ofLe bs)
  | .big, bs => BitVec.ofNat (8 * nl) (ofBe bs)

/-- {lit}`to_le_bytes` and {lit}`to_be_bytes` -/
def toBytes (nl : ℕ) : Endian → Number nl → List UInt8
  | .little, v => leBytes nl v.toNat
  | .big, v => beBytes nl v.toNat

/-- {lit}`ScalarValueFromBytes` -/
structure ScalarValueFromBytes (V : Type) where
  convert : List UInt8 → Endian → Option V
  convertDim1 : List UInt8 → Endian → ℕ → Option (List V)

/-- The number in the first {lit}`nl` bytes -/
def numberAt (nl : ℕ) (buf : List UInt8) (endian : Endian) : Option (Number nl) :=
  if nl ≤ buf.length then some (fromBytes nl endian (buf.take nl)) else none

/-- {lit}`impl_scalar_value_from_bytes` -/
def implScalarValueFromBytes (nl : ℕ) : ScalarValueFromBytes (Number nl) where
  convert := numberAt nl
  convertDim1 buf endian n :=
    if min n nl = 0 then none else (chunksExact (min n nl) buf).mapM fun b2 => numberAt nl b2 endian

/-- {lit}`ScalarValueFromBytes` for {lit}`bool` -/
def boolFromBytes : ScalarValueFromBytes Bool where
  convert buf _ :=
    match buf with
    | b :: _ => some (b != 0)
    | [] => some false
  convertDim1 buf _ n := some ((buf.take (min buf.length n)).map (· != 0))

/-- {lit}`ScalarValueFromBytes` for {lit}`String`, with {lit}`String::from_utf8_lossy` -/
def stringFromBytes (fromUtf8Lossy : List UInt8 → String) : ScalarValueFromBytes String where
  convert buf _ := some (fromUtf8Lossy (if 255 ≤ buf.length then buf.take 255 else buf))
  convertDim1 buf _ _ := some [fromUtf8Lossy (if 255 ≤ buf.length then buf.take 255 else buf)]

/-! ## Events -/

/-- {lit}`EnumVariant` -/
structure EnumVariant where
  ix : ℕ
  name : String
  deriving DecidableEq, Repr

/-- The values that the containers for a type are made for -/
def Elem : ScalarType → Type
  | .u8 => Number 1
  | .u16 => Number 2
  | .u32 => Number 4
  | .u64 => Number 8
  | .i8 => Number 1
  | .i16 => Number 2
  | .i32 => Number 4
  | .i64 => Number 8
  | .f32 => Number 4
  | .f64 => Number 8
  | .bool => Bool
  | .string => String
  | .enum => EnumVariant

/-- One entry of {lit}`ContainerEvents<PulsedVal<_>>` -/
structure PulsedEvent (V : Type) where
  ts : UInt64
  pulse : UInt64
  val : V

/-- {lit}`BinningggContainerEventsDyn`: the containers of {lit}`PulsedVal` -/
inductive EventsDyn where
  | dim0 (t : ScalarType) (evs : List (PulsedEvent (Elem t)))
  | dim1 (t : ScalarType) (evs : List (PulsedEvent (List (Elem t))))

namespace EventsDyn

/-- The number of events -/
def len : EventsDyn → ℕ
  | dim0 _ evs => evs.length
  | dim1 _ evs => evs.length

/-- {lit}`downcast_mut`, to a container of scalars -/
def downcast0 (t : ScalarType) : EventsDyn → Option (List (PulsedEvent (Elem t)))
  | dim0 t' evs => if h : t' = t then some (h ▸ evs) else none
  | dim1 _ _ => none

/-- {lit}`downcast_mut`, to a container of waveforms -/
def downcast1 (t : ScalarType) : EventsDyn → Option (List (PulsedEvent (List (Elem t))))
  | dim1 t' evs => if h : t' = t then some (h ▸ evs) else none
  | dim0 _ _ => none

@[simp]
theorem downcast0_dim0 (t : ScalarType) (evs : List (PulsedEvent (Elem t))) : (dim0 t evs).downcast0 t = some evs := by
  simp [downcast0]

@[simp]
theorem downcast1_dim1 (t : ScalarType) (evs : List (PulsedEvent (List (Elem t)))) :
    (dim1 t evs).downcast1 t = some evs := by
  simp [downcast1]

end EventsDyn

/-- {lit}`empty_events_pulsed_dyn_ev`; there is none for images. -/
def emptyEventsPulsedDynEv (t : ScalarType) : DataShape → Option EventsDyn
  | .scalar => some (.dim0 t [])
  | .wave _ => some (.dim1 t [])
  | .image _ _ => none

/-- The type for which there is a conversion, with the conversion -/
structure Conversion where
  t : ScalarType
  impl : ScalarValueFromBytes (Elem t)

/-- {lit}`ValueFromBytes`: {lit}`ValueDim0FromBytesImpl` and {lit}`ValueDim1FromBytesImpl` -/
inductive ValueFromBytes where
  | dim0 (conv : Conversion)
  | dim1 (conv : Conversion) (shape : DataShape)

/-- {lit}`ValueFromBytes::convert`: the events with one more, or an error -/
def ValueFromBytes.convert (ts pulse : UInt64) (buf : List UInt8) (endian : Endian) (events : EventsDyn) :
    ValueFromBytes → Option (Except String EventsDyn)
  | dim0 ⟨t, impl⟩ =>
      match events.downcast0 t with
      | some evs => (impl.convert buf endian).map fun v => .ok (.dim0 t (evs ++ [⟨ts, pulse, v⟩]))
      | none => some (.error "unexpected container")
  | dim1 ⟨t, impl⟩ shape =>
      match events.downcast1 t with
      | some evs =>
          match shape with
          | .wave n => (impl.convertDim1 buf endian n).map fun v => .ok (.dim1 t (evs ++ [⟨ts, pulse, v⟩]))
          | _ => some (.error "ValueDim1FromBytesImpl bad shape")
      | none => some (.error "unexpected container")

/-- {lit}`AggKind` -/
inductive AggKind where
  | eventBlobs
  | dimXBins1
  | dimXBinsN (n : ℕ)
  | plain
  | timeWeightedScalar
  | pulseIdDiff
  deriving DecidableEq, Repr

section Conv

variable (fromUtf8Lossy : List UInt8 → String)

/-- The conversion that {lit}`make_scalar_conv` chooses for a type -/
def conversion : ScalarType → Conversion
  | .u8 => ⟨.u8, implScalarValueFromBytes 1⟩
  | .u16 => ⟨.u16, implScalarValueFromBytes 2⟩
  | .u32 => ⟨.u32, implScalarValueFromBytes 4⟩
  | .u64 => ⟨.u64, implScalarValueFromBytes 8⟩
  | .i8 => ⟨.i8, implScalarValueFromBytes 1⟩
  | .i16 => ⟨.i16, implScalarValueFromBytes 2⟩
  | .i32 => ⟨.i32, implScalarValueFromBytes 4⟩
  | .i64 => ⟨.i64, implScalarValueFromBytes 8⟩
  | .f32 => ⟨.f32, implScalarValueFromBytes 4⟩
  | .f64 => ⟨.f64, implScalarValueFromBytes 8⟩
  | .bool => ⟨.bool, boolFromBytes⟩
  | .string => ⟨.string, stringFromBytes fromUtf8Lossy⟩
  | .enum => ⟨.string, stringFromBytes fromUtf8Lossy⟩

/-- {lit}`make_scalar_conv` -/
def makeScalarConv (t : ScalarType) (shape : DataShape) (aggKind : AggKind) : Except String ValueFromBytes :=
  match aggKind with
  | .eventBlobs => .error "make_scalar_conv  EventBlobs"
  | _ =>
      match shape with
      | .scalar => .ok (.dim0 (conversion fromUtf8Lossy t))
      | .wave _ => .ok (.dim1 (conversion fromUtf8Lossy t) shape)
      | .image _ _ => .error "make_scalar_conv  Image"

end Conv

/-! ## What it is for -/

/-- The types that the conversion is about: numbers and booleans -/
def NumberOrBool (t : ScalarType) : Prop := t ≠ .string ∧ t ≠ .enum

instance (t : ScalarType) : Decidable (NumberOrBool t) := inferInstanceAs (Decidable (_ ∧ _))

/-- How a value of a type is recorded -/
def putValue : (t : ScalarType) → NumberOrBool t → Endian → Elem t → List UInt8
  | .u8, _ => toBytes 1
  | .u16, _ => toBytes 2
  | .u32, _ => toBytes 4
  | .u64, _ => toBytes 8
  | .i8, _ => toBytes 1
  | .i16, _ => toBytes 2
  | .i32, _ => toBytes 4
  | .i64, _ => toBytes 8
  | .f32, _ => toBytes 4
  | .f64, _ => toBytes 8
  | .bool, _ => fun _ (b : Bool) => [if b then 1 else 0]
  | .string, h => absurd rfl h.1
  | .enum, h => absurd rfl h.2

/-- The payload records a value of the shape, and the second container has it behind the events of the first one. -/
inductive Records {t : ScalarType} (ht : NumberOrBool t) (ts pulse : UInt64) (endian : Endian) :
    DataShape → List UInt8 → EventsDyn → EventsDyn → Prop
  | scalar (v : Elem t) (evs) :
      Records ht ts pulse endian .scalar (putValue t ht endian v) (.dim0 t evs) (.dim0 t (evs ++ [⟨ts, pulse, v⟩]))
  | wave (vs : List (Elem t)) (evs) :
      Records ht ts pulse endian (.wave vs.length) (vs.flatMap (putValue t ht endian)) (.dim1 t evs)
        (.dim1 t (evs ++ [⟨ts, pulse, vs⟩]))

/-- There is a decoder, which never panics on the payload, and appends what the payload records. -/
def Decodes (fromUtf8Lossy : List UInt8 → String) (aggKind : AggKind) {t : ScalarType} (ht : NumberOrBool t)
    (shape : DataShape) (endian : Endian) (buf : List UInt8) : Prop :=
  ∃ conv, makeScalarConv fromUtf8Lossy t shape aggKind = .ok conv ∧
    ∀ ts pulse events, conv.convert ts pulse buf endian events ≠ none ∧
      ∀ events', Records ht ts pulse endian shape buf events events' →
        conv.convert ts pulse buf endian events = some (.ok events')

/-- The values are booleans, or the payload has a value of the size of the type, or the waveform has at least as many
elements as a value has bytes, or there is not even one chunk of as many bytes as the waveform has elements. -/
def Decodable (t : ScalarType) (buf : List UInt8) : DataShape → Prop
  | .scalar => t = .bool ∨ t.bytes ≤ buf.length
  | .wave n => t = .bool ∨ t.bytes ≤ n ∨ 0 < n ∧ buf.length < n
  | .image _ _ => False

/-! ## Each conversion -/

section Numbers

variable {nl n : ℕ} {endian : Endian} {buf : List UInt8}

theorem length_toBytes (nl : ℕ) (endian : Endian) (v : Number nl) : (toBytes nl endian v).length = nl := by
  cases endian with
  | little => exact length_leBytes nl v.toNat
  | big => exact length_beBytes nl v.toNat

theorem toNat_lt_pow (v : Number nl) : v.toNat < 256 ^ nl := by
  have hlt := v.isLt
  rwa [pow_mul, show 2 ^ 8 = 256 from rfl] at hlt

@[simp]
theorem fromBytes_toBytes (nl : ℕ) (endian : Endian) (v : Number nl) :
    fromBytes nl endian (toBytes nl endian v) = v := by
  cases endian with
  | little =>
      rw [toBytes, fromBytes, ofLe_leBytes_of_lt (toNat_lt_pow v), BitVec.ofNat_toNat, BitVec.setWidth_eq]
  | big =>
      rw [toBytes, fromBytes, ofBe_beBytes_of_lt (toNat_lt_pow v), BitVec.ofNat_toNat, BitVec.setWidth_eq]

/-- The layout of numbers -/
def numberLayout (nl : ℕ) (hnl : 0 < nl) (endian : Endian) : Layout (Number nl) where
  size := nl
  put := toBytes nl endian
  read := fromBytes nl endian
  size_pos := hnl
  length_put := length_toBytes nl endian
  read_put := fromBytes_toBytes nl endian

theorem numberAt_eq_none : numberAt nl buf endian = none ↔ buf.length < nl := by
  simp [numberAt]

theorem numberAt_of_length (endian : Endian) (h : buf.length = nl) :
    numberAt nl buf endian = some (fromBytes nl endian buf) := by
  rw [numberAt, if_pos h.ge, List.take_of_length_le h.le]

/-- With chunks of the size of a number there is one number for each chunk. -/
theorem convertDim1_of_le (hnl : 0 < nl) (hle : nl ≤ n) :
    (implScalarValueFromBytes nl).convertDim1 buf endian n =
      some ((chunksExact nl buf).map (fromBytes nl endian)) := by
  have hchunks : ∀ c ∈ chunksExact nl buf, numberAt nl c endian = some (fromBytes nl endian c) := by
    intro c hc
    exact numberAt_of_length endian (length_of_mem_chunksExact hc)
  simp only [implScalarValueFromBytes]
  rw [min_eq_right hle, if_neg hnl.ne', Arith.mapM_of_forall hchunks]

/-- With smaller chunks the first one, if there is one, is too small. -/
theorem convertDim1_of_lt (hpos : 0 < n) (hlt : n < nl) :
    (implScalarValueFromBytes nl).convertDim1 buf endian n = if n ≤ buf.length then none else some [] := by
  simp only [implScalarValueFromBytes]
  rw [min_eq_left hlt.le, if_neg hpos.ne']
  split
  · rename_i hle
    have hchunk : 0 < (chunksExact n buf).length := by
      rw [length_chunksExact]
      exact Nat.div_pos hle hpos
    obtain ⟨c, hc⟩ := List.exists_mem_of_length_pos hchunk
    refine Arith.mapM_eq_none hc (numberAt_eq_none.mpr ?_)
    rwa [length_of_mem_chunksExact hc]
  · rename_i hle
    have hnil : chunksExact n buf = [] := by
      rw [← List.length_eq_zero_iff, length_chunksExact, Nat.div_eq_of_lt (not_le.mp hle)]
    rw [hnil]
    rfl

end Numbers

/-- What a conversion does: when it panics, and that it gives back what was recorded.  A value has at least
{lit}`least` bytes. -/
structure Reads {V : Type} (put : Endian → V → List UInt8) (conv : ScalarValueFromBytes V) (least : ℕ) : Prop where
  convert_eq_none : ∀ buf endian, conv.convert buf endian = none ↔ buf.length < least
  convert_put : ∀ endian v, conv.convert (put endian v) endian = some v
  convertDim1_eq_none : ∀ buf endian n, conv.convertDim1 buf endian n = none ↔ n < least ∧ (0 < n → n ≤ buf.length)
  convertDim1_put : ∀ endian vs, least ≤ vs.length →
    conv.convertDim1 (vs.flatMap (put endian)) endian vs.length = some vs
  length_put : ∀ endian v, least ≤ (put endian v).length

theorem reads_number {nl : ℕ} (hnl : 0 < nl) : Reads (toBytes nl) (implScalarValueFromBytes nl) nl where
  convert_eq_none _ _ := numberAt_eq_none
  convert_put endian v := by
    have hconv := numberAt_of_length endian (length_toBytes nl endian v)
    rwa [fromBytes_toBytes] at hconv
  convertDim1_eq_none buf endian n := by
    obtain hle | hlt := le_or_gt nl n
    · simp [convertDim1_of_le hnl hle, hle]
    · obtain rfl | hpos := n.eq_zero_or_pos
      · simp [implScalarValueFromBytes, hnl]
      · simp [convertDim1_of_lt hpos hlt, hlt, hpos]
  convertDim1_put endian vs hle := by
    rw [convertDim1_of_le hnl hle]
    exact congrArg some ((numberLayout nl hnl endian).map_read_chunksExact vs)
  length_put endian v := (length_toBytes nl endian v).ge

theorem map_flatMap_bool (vs : List Bool) :
    (vs.flatMap fun b => [if b then (1 : UInt8) else 0]).map (· != 0) = vs := by
  induction vs with
  | nil => rfl
  | cons v vs ih =>
      rw [List.flatMap_cons, List.map_append, ih]
      cases v <;> rfl

theorem reads_bool : Reads (fun _ (b : Bool) => [if b then 1 else 0]) boolFromBytes 0 where
  convert_eq_none buf endian := by
    cases buf with
    | nil => simp [boolFromBytes]
    | cons b bs => simp [boolFromBytes]
  convert_put endian v := by
    cases v <;> rfl
  convertDim1_eq_none buf endian n := by simp [boolFromBytes]
  convertDim1_put endian vs _ := by
    have hlen : (vs.flatMap fun b : Bool => [if b then (1 : UInt8) else 0]).length = vs.length := by
      simp
    simp only [boolFromBytes]
    rw [hlen, min_self, List.take_of_length_le hlen.le, map_flatMap_bool]
  length_put _ _ := Nat.zero_le _

/-- The least number of bytes for a value -/
def leastBytes (t : ScalarType) : ℕ := if t = .bool then 0 else t.bytes

/-- The conversion that is chosen for a type reads what is recorded of this type. -/
theorem exists_reads (fromUtf8Lossy : List UInt8 → String) {t : ScalarType} (ht : NumberOrBool t) :
    ∃ impl, conversion fromUtf8Lossy t = ⟨t, impl⟩ ∧ Reads (putValue t ht) impl (leastBytes t) := by
  cases t with
  | u8 | i8 => exact ⟨_, rfl, reads_number (by norm_num)⟩
  | u16 | i16 => exact ⟨_, rfl, reads_number (by norm_num)⟩
  | u32 | i32 | f32 => exact ⟨_, rfl, reads_number (by norm_num)⟩
  | u64 | i64 | f64 => exact ⟨_, rfl, reads_number (by norm_num)⟩
  | bool => exact ⟨_, rfl, reads_bool⟩
  | string => exact absurd rfl ht.1
  | enum => exact absurd rfl ht.2

/-! ## Each shape -/

section Shapes

variable {t : ScalarType} {ht : NumberOrBool t} {impl : ScalarValueFromBytes (Elem t)} {buf : List UInt8}
  {endian : Endian} {n : ℕ}

theorem leastBytes_le_iff : leastBytes t ≤ n ↔ t = .bool ∨ t.bytes ≤ n := by
  unfold leastBytes
  split
  · simp [*]
  · simp [*]

/-- Where a value has bytes, there are at least as many as there are values. -/
theorem length_le_length_flatMap (hreads : Reads (putValue t ht) impl (leastBytes t)) (endian : Endian)
    (vs : List (Elem t)) (hpos : 0 < leastBytes t) : vs.length ≤ (vs.flatMap (putValue t ht endian)).length := by
  induction vs with
  | nil => exact Nat.zero_le _
  | cons v vs ih =>
      have hlen := hreads.length_put endian v
      rw [List.flatMap_cons, List.length_append, List.length_cons]
      omega

/-- A decoder for scalars panics on some container exactly if the payload is too short. -/
theorem dim0_decodes_iff (hreads : Reads (putValue t ht) impl (leastBytes t)) (endian : Endian) :
    (∀ ts pulse events, (ValueFromBytes.dim0 ⟨t, impl⟩).convert ts pulse buf endian events ≠ none ∧
      ∀ events', Records ht ts pulse endian .scalar buf events events' →
        (ValueFromBytes.dim0 ⟨t, impl⟩).convert ts pulse buf endian events = some (.ok events')) ↔
      leastBytes t ≤ buf.length := by
  constructor
  · intro h
    by_contra hshort
    have hnone := (hreads.convert_eq_none buf endian).mpr (not_le.mp hshort)
    apply (h 0 0 (.dim0 t [])).1
    simp [ValueFromBytes.convert, hnone]
  · intro hle ts pulse events
    constructor
    · intro hnone
      rw [ValueFromBytes.convert] at hnone
      split at hnone
      · rw [Option.map_eq_none_iff, hreads.convert_eq_none] at hnone
        exact absurd hle (not_le.mpr hnone)
      · cases hnone
    · intro events' hrec
      cases hrec with
      | scalar v evs => simp [ValueFromBytes.convert, hreads.convert_put]

/-- A decoder for waveforms panics on some container exactly if there is a chunk that is too small, or the chunks are
empty. -/
theorem dim1_decodes_iff (hreads : Reads (putValue t ht) impl (leastBytes t)) (endian : Endian) :
    (∀ ts pulse events, (ValueFromBytes.dim1 ⟨t, impl⟩ (.wave n)).convert ts pulse buf endian events ≠ none ∧
      ∀ events', Records ht ts pulse endian (.wave n) buf events events' →
        (ValueFromBytes.dim1 ⟨t, impl⟩ (.wave n)).convert ts pulse buf endian events = some (.ok events')) ↔
      leastBytes t ≤ n ∨ 0 < n ∧ buf.length < n := by
  have hcond : leastBytes t ≤ n ∨ 0 < n ∧ buf.length < n ↔ impl.convertDim1 buf endian n ≠ none := by
    rw [Ne, hreads.convertDim1_eq_none]
    omega
  rw [hcond]
  constructor
  · intro h hnone
    apply (h 0 0 (.dim1 t [])).1
    simp [ValueFromBytes.convert, hnone]
  · intro hsome ts pulse events
    constructor
    · intro hnone
      rw [ValueFromBytes.convert] at hnone
      split at hnone
      · exact hsome (Option.map_eq_none_iff.mp hnone)
      · cases hnone
    · intro events' hrec
      cases hrec with
      | wave vs evs =>
          -- Fewer elements than a value has bytes take more bytes than there are elements.
          have hle : leastBytes t ≤ vs.length := by
            by_contra hshort
            have hlen := length_le_length_flatMap hreads endian vs (Nat.zero_lt_of_lt (not_le.mp hshort))
            obtain hle | ⟨-, hlt⟩ := hcond.mpr hsome
            · exact hshort hle
            · exact absurd hlen (not_le.mpr hlt)
          simp [ValueFromBytes.convert, hreads.convertDim1_put endian vs hle]

end Shapes

/-- For every type of numbers or booleans, every shape, byte order and payload: the decoder gives what was recorded and
does not panic, exactly if the payload is decodable. -/
theorem decodes_iff (fromUtf8Lossy : List UInt8 → String) {aggKind : AggKind} {t : ScalarType} (ht : NumberOrBool t)
    (shape : DataShape) (endian : Endian) (buf : List UInt8) (hagg : aggKind ≠ .eventBlobs) :
    Decodes fromUtf8Lossy aggKind ht shape endian buf ↔ Decodable t buf shape := by
  obtain ⟨impl, hconv, hreads⟩ := exists_reads fromUtf8Lossy ht
  cases shape with
  | scalar =>
      have hmake : makeScalarConv fromUtf8Lossy t .scalar aggKind = .ok (.dim0 ⟨t, impl⟩) := by
        rw [← hconv]
        cases aggKind with
        | eventBlobs => exact absurd rfl hagg
        | _ => rfl
      rw [Decodable, ← leastBytes_le_iff, ← dim0_decodes_iff hreads endian, Decodes, hmake]
      simp only [Except.ok.injEq, exists_eq_left']
  | wave n =>
      have hmake : makeScalarConv fromUtf8Lossy t (.wave n) aggKind = .ok (.dim1 ⟨t, impl⟩ (.wave n)) := by
        rw [← hconv]
        cases aggKind with
        | eventBlobs => exact absurd rfl hagg
        | _ => rfl
      rw [Decodable, ← or_assoc, ← leastBytes_le_iff, ← dim1_decodes_iff hreads endian, Decodes, hmake]
      simp only [Except.ok.injEq, exists_eq_left']
  | image a b =>
      have hmake : makeScalarConv fromUtf8Lossy t (.image a b) aggKind = .error
          (if aggKind = .eventBlobs then "make_scalar_conv  EventBlobs" else "make_scalar_conv  Image") := by
        cases aggKind with
        | eventBlobs => exact absurd rfl hagg
        | _ => rfl
      simp [Decodes, Decodable, hmake]

/-- A waveform of two numbers with two bytes each -/
theorem decodes_two :
    NumberOrBool .u16 ∧ AggKind.plain ≠ .eventBlobs ∧
      (Decodes (fun _ => "") .plain (t := .u16) (by decide) (.wave 2) .big [0, 1, 0, 2] ↔
        Decodable .u16 [0, 1, 0, 2] (.wave 2)) :=
  ⟨by decide, by decide, decodes_iff (fun _ => "") (t := .u16) (by decide) (.wave 2) .big [0, 1, 0, 2] (by decide)⟩

/-- A waveform of one number with two bytes is cut into chunks of one byte. -/
theorem not_decodes_one :
    ¬ ∀ (fromUtf8Lossy : List UInt8 → String) (t : ScalarType) (ht : NumberOrBool t) (n : ℕ) (endian : Endian)
      (vs : List (Elem t)), vs.length = n →
        Decodes fromUtf8Lossy .plain ht (.wave n) endian (vs.flatMap (putValue t ht endian)) := by
  intro h
  have hseven := h (fun _ => "") .u16 (by decide) 1 .big [(7 : Number 2)] rfl
  obtain ⟨conv, hconv, hdecodes⟩ := hseven
  cases hconv
  exact (hdecodes 0 0 (.dim1 .u16 [])).1 rfl

end Decode
end Disk
end Daqbuf
