import Daqbuf.Netpod.Time
import Daqbuf.Netpod.Types
import Daqbuf.Parse.Nom
/-!
# Channel Configuration Files

The parser of the configuration file of a channel: a header with the name of the channel, and then entries, each
with its length at both ends.  The format is stated apart from the parser, by what an entry holds and how it is
encoded.

The source checks some lengths only after it has used them: for a subtraction, for a slice, in an assertion.
Where that goes wrong the parser panics, and so it does where a number overflows.

Main results:

- Theorem {lit}`parseFields_eq_ok`: the fields of an entry are parsed exactly from their encoding.
- Theorem {lit}`parseEntry_encode`: a whole entry is parsed back.
- Theorem {lit}`parseEntry_eq_panicked`: an entry makes the parser panic exactly if it is not sound.
- Theorem {lit}`parseConfig_iff`: the parser is safe and complete exactly on sound bytes.
-/

namespace Daqbuf
namespace Parse

open Bytes Nom Netpod

/-! ## The parser -/

/-- The errors of the parser, by their texts -/
inductive ConfigParseError where
  | kind (kind : ErrorKind)
  | badStringLen (len1 : ℤ)
  | largeStringLen (len1 : ℤ)
  | stringUtf8
  | configEntryBadLen1 (len1 : ℤ)
  | unexpectedDataTypeLen (dtlen : ℤ)
  | unexpectedDataType (dtype : UInt8)
  | canNotConvert (dtype : UInt8)
  | unknownCompression
  | unexpectedNumberOfDimensions (dim : UInt8)
  | mismatch (len1 len2 : ℤ)
  | noChannelName (len1 : ℤ)
  | channelNameUtf8
  deriving DecidableEq, Repr

instance : ParseError ConfigParseError := ⟨.kind⟩

/-- {lit}`NRes` -/
abbrev NRes := Parser ConfigParseError

/-- {lit}`mkerr` -/
abbrev mkerr (e : ConfigParseError) : Err ConfigParseError := .error e

/-- {lit}`ConfigEntry`; the time in a form for humans is left out. -/
structure ConfigEntry where
  ts : ℕ
  pulse : ℤ
  ks : ℤ
  bs : ℕ
  splitCount : ℤ
  status : ℤ
  bb : ℤ
  modulo : ℤ
  offset : ℤ
  precision : ℤ
  scalarType : ScalarType
  isCompressed : Bool
  isShaped : Bool
  isArray : Bool
  byteOrder : ByteOrder
  compressionMethod : Option CompressionMethod
  shape : Option (List ℕ)
  sourceName : Option String
  unit : Option String
  description : Option String
  optionalFields : Option String
  valueConverter : Option String
  deriving DecidableEq, Repr

/-- {lit}`ChannelConfigs` -/
structure ChannelConfigs where
  formatVersion : ℤ
  channelName : String
  entries : List ConfigEntry
  deriving DecidableEq, Repr

/-- {lit}`parse_short_string` -/
def parseShortString : NRes (Option String) := do
  let len1 ← beI 4
  if len1 = -1 then return none
  else
    refuse (len1 < 4) (mkerr (.badStringLen len1))
    refuse (500 < len1) (mkerr (.largeStringLen len1))
    let snb ← take (len1 - 4).toNat
    match fromUtf8 snb with
    | some s1 => return some s1
    | none => throwErr (mkerr .stringUtf8)

/-- The fields of an entry up to the data type -/
structure FixedFields where
  ts : ℤ
  pulse : ℤ
  ks : ℤ
  bs : ℤ
  splitCount : ℤ
  status : ℤ
  bb : ℤ
  modulo : ℤ
  offset : ℤ
  precision : ℤ
  dtlen : ℤ
  deriving DecidableEq, Repr

/-- The part of {lit}`parse_entry` up to the data type.  The product with the milliseconds can overflow. -/
def parseFixed : NRes FixedFields := do
  let ts ← beI 8
  let pulse ← beI 8
  let ks ← beI 4
  let bs ← beI 8
  panicIf (2 ^ 64 ≤ unsigned 8 bs * Timeunits.ms)
  let splitCount ← beI 4
  let status ← beI 4
  let bb ← beI 1
  let modulo ← beI 4
  let offset ← beI 4
  let precision ← beI 2
  let dtlen ← beI 4
  refuse (100 < dtlen) (mkerr (.unexpectedDataTypeLen dtlen))
  return ⟨ts, pulse, ks, bs, splitCount, status, bb, modulo, offset, precision, dtlen⟩

/-- The data type of an entry -/
structure TypeFields where
  dtmask : UInt8
  dtype : UInt8
  scalarType : ScalarType
  compressionMethod : Option CompressionMethod
  shape : Option (List ℕ)
  deriving DecidableEq, Repr

/-- The flag for compressed data -/
def isCompressed (dtmask : UInt8) : Bool := dtmask &&& 0x80 ≠ 0

/-- The flag for arrays -/
def isArray (dtmask : UInt8) : Bool := dtmask &&& 0x40 ≠ 0

/-- The flag for data with a shape -/
def isShaped (dtmask : UInt8) : Bool := dtmask &&& 0x10 ≠ 0

/-- The part of {lit}`parse_entry` that reads the compression. -/
def parseCompression (dtmask : UInt8) : NRes (Option CompressionMethod) :=
  if isCompressed dtmask then do
    let cm ← beU8
    refuse (cm ≠ 0) (mkerr .unknownCompression)
    return some .bitshuffleLZ4
  else pure none

/-- One dimension of a shape -/
def parseDimension : NRes ℕ := do return unsigned 4 (← beI 4)

/-- The part of {lit}`parse_entry` that reads the shape. -/
def parseShape (dtmask : UInt8) : NRes (Option (List ℕ)) :=
  if isShaped dtmask then do
    let dim ← beU8
    refuse (4 < dim) (mkerr (.unexpectedNumberOfDimensions dim))
    return some (← times parseDimension dim.toNat)
  else pure none

/-- The part of {lit}`parse_entry` that reads the data type. -/
def parseType : NRes TypeFields := do
  let dtmask ← beU8
  let dtype ← beU8
  refuse (13 < dtype) (mkerr (.unexpectedDataType dtype))
  match ScalarType.fromDtypeIndex dtype.toNat with
  | none => throwErr (mkerr (.canNotConvert dtype))
  | some scalarType =>
      let compressionMethod ← parseCompression dtmask
      let shape ← parseShape dtmask
      return ⟨dtmask, dtype, scalarType, compressionMethod, shape⟩

/-- The optional texts of an entry -/
structure TextFields where
  sourceName : Option String
  unit : Option String
  description : Option String
  optionalFields : Option String
  valueConverter : Option String
  deriving DecidableEq, Repr

/-- The part of {lit}`parse_entry` that reads the texts. -/
def parseTexts : NRes TextFields := do
  let sourceName ← parseShortString
  let unit ← parseShortString
  let description ← parseShortString
  let optionalFields ← parseShortString
  let valueConverter ← parseShortString
  return ⟨sourceName, unit, description, optionalFields, valueConverter⟩

/-- All fields of an entry -/
structure EntryFields where
  fixed : FixedFields
  type : TypeFields
  texts : TextFields
  deriving DecidableEq, Repr

/-- The entry that the fields make -/
def EntryFields.toConfigEntry (d : EntryFields) : ConfigEntry where
  ts := unsigned 8 d.fixed.ts
  pulse := d.fixed.pulse
  ks := d.fixed.ks
  bs := unsigned 8 d.fixed.bs * Timeunits.ms
  splitCount := d.fixed.splitCount
  status := d.fixed.status
  bb := d.fixed.bb
  modulo := d.fixed.modulo
  offset := d.fixed.offset
  precision := d.fixed.precision
  scalarType := d.type.scalarType
  isCompressed := isCompressed d.type.dtmask
  isShaped := isShaped d.type.dtmask
  isArray := isArray d.type.dtmask
  byteOrder := .fromDtypeFlags d.type.dtmask
  compressionMethod := d.type.compressionMethod
  shape := d.type.shape
  sourceName := d.texts.sourceName
  unit := d.texts.unit
  description := d.texts.description
  optionalFields := d.texts.optionalFields
  valueConverter := d.texts.valueConverter

/-- The fields of {lit}`parse_entry` -/
def parseFields : NRes EntryFields := do
  let fixed ← parseFixed
  let type ← parseType
  let texts ← parseTexts
  return ⟨fixed, type, texts⟩

/-- {lit}`parse_entry` -/
def parseEntry : NRes (Option ConfigEntry) := do
  let len1 ← beI 4
  refuse (len1 < 0 ∨ 4000 < len1) (mkerr (.configEntryBadLen1 len1))
  let inp ← get
  if inp.length = 0 then return none
  else
    -- a subtraction of unsigned numbers
    panicIf (len1 < 4)
    refuse (inp.length < (len1 - 4).toNat) (.incomplete (some (len1 - 4).toNat))
    -- a slice that begins at len1 - 8
    panicIf (len1 < 8)
    let inpE := inp.drop (len1 - 8).toNat
    let fields ← parseFields
    let inp ← get
    panicIf (inp.length ≠ inpE.length)
    set inpE
    let len2 ← beI 4
    refuse (len1 ≠ len2) (mkerr (.mismatch len1 len2))
    return some fields.toConfigEntry

/-! ## The format -/

/-- An optional text in a file -/
def encodeText : Option String → List UInt8
  | none => beBytesI 4 (-1)
  | some s => beBytesI 4 ((utf8 s).length + 4) ++ utf8 s

/-- A text is not longer than the parser accepts. -/
def ValidText (t : Option String) : Prop := ∀ s ∈ t, (utf8 s).length ≤ 496

namespace FixedFields

/-- The fixed fields of an entry in a file -/
def encode (d : FixedFields) : List UInt8 :=
  beBytesI 8 d.ts ++ beBytesI 8 d.pulse ++ beBytesI 4 d.ks ++ beBytesI 8 d.bs ++ beBytesI 4 d.splitCount ++
    beBytesI 4 d.status ++ beBytesI 1 d.bb ++ beBytesI 4 d.modulo ++ beBytesI 4 d.offset ++
    beBytesI 2 d.precision ++ beBytesI 4 d.dtlen

/-- The fields are numbers of their sizes, and the length of the data type is one that the parser accepts. -/
structure Valid (d : FixedFields) : Prop where
  ts : FitsSigned 8 d.ts
  pulse : FitsSigned 8 d.pulse
  ks : FitsSigned 4 d.ks
  bs : FitsSigned 8 d.bs
  splitCount : FitsSigned 4 d.splitCount
  status : FitsSigned 4 d.status
  bb : FitsSigned 1 d.bb
  modulo : FitsSigned 4 d.modulo
  offset : FitsSigned 4 d.offset
  precision : FitsSigned 2 d.precision
  dtlen : FitsSigned 4 d.dtlen
  dtlen_le : d.dtlen ≤ 100

/-- The bin size in nanoseconds is a number of 64 bits. -/
def BsFits (d : FixedFields) : Prop := unsigned 8 d.bs * Timeunits.ms < 2 ^ 64

end FixedFields

namespace TypeFields

/-- The data type of an entry in a file -/
def encode (d : TypeFields) : List UInt8 :=
  [d.dtmask] ++ [d.dtype] ++ (if isCompressed d.dtmask then [0] else []) ++
    (d.shape.elim [] fun shape => [UInt8.ofNat shape.length] ++ shape.flatMap (beBytes 4))

/-- The type is one that the parser knows, and there is a shape and a compression where the flags tell so. -/
structure Valid (d : TypeFields) : Prop where
  dtype_le : d.dtype ≤ 13
  scalarType_eq : ScalarType.fromDtypeIndex d.dtype.toNat = some d.scalarType
  compression_eq : d.compressionMethod = if isCompressed d.dtmask then some .bitshuffleLZ4 else none
  shape_eq : d.shape.isSome = isShaped d.dtmask
  shape_le : ∀ shape ∈ d.shape, shape.length ≤ 4 ∧ ∀ n ∈ shape, n < 2 ^ 32

end TypeFields

namespace TextFields

/-- The texts of an entry in a file -/
def encode (d : TextFields) : List UInt8 :=
  encodeText d.sourceName ++ encodeText d.unit ++ encodeText d.description ++ encodeText d.optionalFields ++
    encodeText d.valueConverter

/-- The texts are not longer than the parser accepts. -/
structure Valid (d : TextFields) : Prop where
  sourceName : ValidText d.sourceName
  unit : ValidText d.unit
  description : ValidText d.description
  optionalFields : ValidText d.optionalFields
  valueConverter : ValidText d.valueConverter

end TextFields

namespace EntryFields

/-- The fields of an entry in a file -/
def encode (d : EntryFields) : List UInt8 := d.fixed.encode ++ d.type.encode ++ d.texts.encode

/-- The fields are ones that the format allows. -/
structure Valid (d : EntryFields) : Prop where
  fixed : d.fixed.Valid
  type : d.type.Valid
  texts : d.texts.Valid

/-- The length of an entry, which counts both length fields. -/
def length (d : EntryFields) : ℕ := d.encode.length + 8

/-- An entry in a file -/
def encodeEntry (d : EntryFields) : List UInt8 :=
  beBytesI 4 d.length ++ d.encode ++ beBytesI 4 d.length

end EntryFields

/-- The beginning of a configuration file -/
def encodeHeader (ver : ℤ) (name : String) : List UInt8 :=
  beBytesI 2 ver ++ beBytesI 4 ((utf8 name).length + 8) ++ utf8 name ++ beBytesI 4 ((utf8 name).length + 8)

/-- A header has a version and a name of a length that the parser accepts. -/
def ValidHeader (ver : ℤ) (name : String) : Prop :=
  FitsSigned 2 ver ∧ 0 < (utf8 name).length ∧ (utf8 name).length ≤ 492

/-- A whole entry is one that the format allows. -/
def ValidEntry (d : EntryFields) : Prop := d.Valid ∧ d.length ≤ 4000

/-- A configuration file -/
def encodeFile (ver : ℤ) (name : String) (ds : List EntryFields) : List UInt8 :=
  encodeHeader ver name ++ ds.flatMap EntryFields.encodeEntry

/-! ## The fields are parsed from their encoding -/

section Fields

variable {inp rest : List UInt8}

theorem fitsSigned_four {x : ℤ} (hge : -2 ^ 31 ≤ x) (hlt : x < 2 ^ 31) : FitsSigned 4 x := by
  unfold FitsSigned
  omega

/-- Texts are parsed exactly. -/
theorem exact_parseShortString : Exact parseShortString ValidText encodeText := by
  intro inp t rest
  rw [parseShortString, (exact_beI 4).bind_eq_ok]
  constructor
  · rintro ⟨len1, mid, ⟨-, rfl⟩, h⟩
    split at h
    · rename_i hlen
      obtain ⟨rfl, rfl⟩ := pure_eq_ok.mp h
      subst hlen
      exact ⟨nofun, rfl⟩
    · simp only [bind_eq_ok, refuse_eq_ok] at h
      obtain ⟨_, _, ⟨hge, rfl⟩, _, _, ⟨hle, rfl⟩, snb, rest₁, htake, h⟩ := h
      obtain ⟨hlen, rfl⟩ := (exact_take _ _ _ _).mp htake
      cases htext : fromUtf8 snb with
      | none =>
          rw [htext] at h
          exact absurd h throwErr_ne_ok
      | some s =>
          rw [htext] at h
          obtain ⟨rfl, rfl⟩ := pure_eq_ok.mp h
          obtain rfl := fromUtf8_eq_some.mp htext
          have hlen1 : len1 = (utf8 s).length + 4 := by omega
          subst hlen1
          refine ⟨?_, (List.append_assoc _ _ _).symm⟩
          intro s' hs'
          obtain rfl := Option.some.inj hs'
          omega
  · rintro ⟨hvalid, rfl⟩
    cases t with
    | none => exact ⟨-1, rest, ⟨by decide, rfl⟩, rfl⟩
    | some s =>
        have hle := hvalid s rfl
        refine ⟨(utf8 s).length + 4, utf8 s ++ rest, ⟨fitsSigned_four (by omega) (by omega), ?_⟩, ?_⟩
        · exact List.append_assoc _ _ _
        · have htoNat : (((utf8 s).length + 4 : ℤ) - 4).toNat = (utf8 s).length := by omega
          rw [if_neg (by omega), bind_of_ok (refuse_of_not (by omega) _), bind_of_ok (refuse_of_not (by omega) _),
            htoNat, bind_of_ok (take_append _ _), fromUtf8_utf8]
          rfl

theorem total_parseShortString : Total parseShortString := by
  apply (total_beI 4).bind
  intro len1
  split
  · exact fun _ => nofun
  · apply Total.bind fun _ => refuse_ne_panicked
    intro
    apply Total.bind fun _ => refuse_ne_panicked
    intro
    apply (total_take _).bind
    intro snb
    split
    · exact fun _ => nofun
    · exact fun _ => nofun

/-- The fixed fields are parsed exactly, if the bin size does not overflow. -/
theorem parseFixed_eq_ok {d : FixedFields} :
    parseFixed inp = .ok (d, rest) ↔ d.Valid ∧ d.BsFits ∧ inp = d.encode ++ rest := by
  have hpanic : ∀ {x : ℤ} {u : Unit} {inp rest : List UInt8},
      (panicIf (2 ^ 64 ≤ unsigned 8 x * Timeunits.ms) : NRes Unit) inp = .ok (u, rest) ↔
        unsigned 8 x * Timeunits.ms < 2 ^ 64 ∧ rest = inp := by
    intro x u inp rest
    rw [panicIf_eq_ok, not_le]
  unfold parseFixed
  simp only [(exact_beI 8).bind_eq_ok, (exact_beI 4).bind_eq_ok, (exact_beI 2).bind_eq_ok,
    (exact_beI 1).bind_eq_ok, bind_eq_ok, hpanic, refuse_eq_ok, pure_eq_ok]
  constructor
  · rintro ⟨ts, _, ⟨hts, rfl⟩, pulse, _, ⟨hpulse, rfl⟩, ks, _, ⟨hks, rfl⟩, bs, _, ⟨hbs, rfl⟩, _, _, ⟨hfits, rfl⟩,
      splitCount, _, ⟨hsplit, rfl⟩, status, _, ⟨hstatus, rfl⟩, bb, _, ⟨hbb, rfl⟩, modulo, _, ⟨hmodulo, rfl⟩,
      offset, _, ⟨hoffset, rfl⟩, precision, _, ⟨hprecision, rfl⟩, dtlen, _, ⟨hdtlen, rfl⟩, _, _, ⟨hle, rfl⟩, rfl, rfl⟩
    refine ⟨⟨hts, hpulse, hks, hbs, hsplit, hstatus, hbb, hmodulo, hoffset, hprecision, hdtlen, not_lt.mp hle⟩,
      hfits, ?_⟩
    simp only [FixedFields.encode, List.append_assoc]
  · rintro ⟨h, hfits, rfl⟩
    refine ⟨d.ts, _, ⟨h.ts, ?_⟩, d.pulse, _, ⟨h.pulse, rfl⟩, d.ks, _, ⟨h.ks, rfl⟩, d.bs, _, ⟨h.bs, rfl⟩, (), _,
      ⟨hfits, rfl⟩, d.splitCount, _, ⟨h.splitCount, rfl⟩, d.status, _, ⟨h.status, rfl⟩, d.bb, _, ⟨h.bb, rfl⟩, d.modulo,
      _, ⟨h.modulo, rfl⟩, d.offset, _, ⟨h.offset, rfl⟩, d.precision, _, ⟨h.precision, rfl⟩, d.dtlen, _,
      ⟨h.dtlen, rfl⟩, (), _, ⟨not_lt.mpr h.dtlen_le, rfl⟩, rfl, rfl⟩
    simp only [FixedFields.encode, List.append_assoc]

/-- One dimension is parsed exactly. -/
theorem exact_parseDimension : Exact parseDimension (· < 2 ^ 32) (beBytes 4) := by
  intro inp n rest
  rw [parseDimension, (exact_beI 4).bind_eq_ok]
  simp only [pure_eq_ok]
  constructor
  · rintro ⟨x, mid, ⟨-, rfl⟩, rfl, rfl⟩
    exact ⟨unsigned_lt 4 x, rfl⟩
  · rintro ⟨hlt, rfl⟩
    have hbits : unsigned 4 (signed 4 n) = n := unsigned_signed hlt
    refine ⟨signed 4 n, rest, ⟨fitsSigned_signed hlt, ?_⟩, hbits.symm, rfl⟩
    rw [beBytesI, hbits]

theorem total_parseDimension : Total parseDimension := (total_beI 4).bind fun _ => fun _ => nofun

/-- The compression is parsed exactly, where there is one. -/
theorem exact_parseCompression (dtmask : UInt8) :
    Exact (parseCompression dtmask)
      (fun cm => cm = if isCompressed dtmask then some .bitshuffleLZ4 else none)
      (fun _ => if isCompressed dtmask then [0] else []) := by
  intro inp cm rest
  unfold parseCompression
  split
  · rw [exact_beU8.bind_eq_ok]
    simp only [bind_eq_ok, refuse_eq_ok, pure_eq_ok, not_not]
    constructor
    · rintro ⟨b, _, ⟨-, rfl⟩, _, _, ⟨rfl, rfl⟩, rfl, rfl⟩
      exact ⟨rfl, rfl⟩
    · rintro ⟨rfl, rfl⟩
      exact ⟨0, rest, ⟨trivial, rfl⟩, (), rest, ⟨rfl, rfl⟩, rfl, rfl⟩
  · rw [pure_eq_ok, List.nil_append]
    exact and_congr_right fun _ => eq_comm

theorem total_parseCompression (dtmask : UInt8) : Total (parseCompression dtmask) := by
  unfold parseCompression
  split
  · apply total_beU8.bind
    intro
    apply Total.bind fun _ => refuse_ne_panicked
    exact fun _ _ => nofun
  · exact fun _ => nofun

/-- The shape is parsed exactly, where there is one. -/
theorem exact_parseShape (dtmask : UInt8) :
    Exact (parseShape dtmask)
      (fun shape => shape.isSome = isShaped dtmask ∧ ∀ s ∈ shape, s.length ≤ 4 ∧ ∀ n ∈ s, n < 2 ^ 32)
      (fun shape => shape.elim [] fun s => [UInt8.ofNat s.length] ++ s.flatMap (beBytes 4)) := by
  intro inp shape rest
  unfold parseShape
  split
  · rename_i hshaped
    rw [exact_beU8.bind_eq_ok]
    simp only [bind_eq_ok, refuse_eq_ok, (exact_parseDimension.times _).bind_eq_ok, pure_eq_ok, hshaped]
    constructor
    · rintro ⟨b, _, ⟨-, rfl⟩, _, _, ⟨hle, rfl⟩, dims, _, ⟨⟨hlen, hdims⟩, rfl⟩, rfl, rfl⟩
      refine ⟨⟨rfl, ?_⟩, ?_⟩
      · intro s hs
        obtain rfl := Option.some.inj hs
        rw [UInt8.lt_iff_toNat_lt, not_lt] at hle
        exact ⟨hlen.trans_le hle, hdims⟩
      · simp [hlen]
    · rintro ⟨⟨hsome, hdims⟩, rfl⟩
      obtain ⟨s, rfl⟩ := Option.isSome_iff_exists.mp hsome
      obtain ⟨hlen, hs⟩ := hdims s rfl
      have htoNat : (UInt8.ofNat s.length).toNat = s.length := by
        rw [UInt8.toNat_ofNat']
        omega
      refine ⟨UInt8.ofNat s.length, _, ⟨trivial, List.append_assoc _ _ _⟩, (), _, ⟨?_, rfl⟩, s, rest,
        ⟨⟨htoNat.symm, hs⟩, rfl⟩, rfl, rfl⟩
      rw [UInt8.lt_iff_toNat_lt, htoNat, not_lt]
      exact hlen
  · rename_i hshaped
    rw [pure_eq_ok]
    constructor
    · rintro ⟨rfl, rfl⟩
      exact ⟨⟨(Bool.eq_false_iff.mpr hshaped).symm, nofun⟩, rfl⟩
    · rintro ⟨⟨hsome, -⟩, rfl⟩
      rw [Bool.eq_false_iff.mpr hshaped] at hsome
      obtain rfl := Option.isNone_iff_eq_none.mp (Option.isSome_eq_false_iff.mp hsome)
      exact ⟨rfl, rfl⟩

theorem total_parseShape (dtmask : UInt8) : Total (parseShape dtmask) := by
  unfold parseShape
  split
  · apply total_beU8.bind
    intro
    apply Total.bind fun _ => refuse_ne_panicked
    intro
    apply (total_parseDimension.times _).bind
    exact fun _ _ => nofun
  · exact fun _ => nofun

/-- The data type is parsed exactly. -/
theorem exact_parseType : Exact parseType TypeFields.Valid TypeFields.encode := by
  intro inp d rest
  unfold parseType
  simp only [exact_beU8.bind_eq_ok, bind_eq_ok, refuse_eq_ok]
  constructor
  · rintro ⟨dtmask, _, ⟨-, rfl⟩, dtype, _, ⟨-, rfl⟩, _, _, ⟨hle, rfl⟩, h⟩
    cases htype : ScalarType.fromDtypeIndex dtype.toNat with
    | none =>
      rw [htype] at h
      exact absurd h throwErr_ne_ok
    | some scalarType =>
      rw [htype] at h
      simp only [(exact_parseCompression _).bind_eq_ok, (exact_parseShape _).bind_eq_ok, pure_eq_ok] at h
      obtain ⟨cm, _, ⟨hcm, rfl⟩, shape, _, ⟨⟨hsome, hdims⟩, rfl⟩, rfl, rfl⟩ := h
      refine ⟨⟨?_, htype, hcm, hsome, hdims⟩, ?_⟩
      · rw [UInt8.lt_iff_toNat_lt, not_lt] at hle
        exact UInt8.le_iff_toNat_le.mpr hle
      · simp only [TypeFields.encode, List.append_assoc]
  · rintro ⟨h, rfl⟩
    have hle : ¬ 13 < d.dtype := by
      rw [UInt8.lt_iff_toNat_lt, not_lt]
      exact UInt8.le_iff_toNat_le.mp h.dtype_le
    let tail := (if isCompressed d.dtmask then [0] else []) ++
      ((d.shape.elim [] fun shape => [UInt8.ofNat shape.length] ++ shape.flatMap (beBytes 4)) ++ rest)
    refine ⟨d.dtmask, [d.dtype] ++ tail, ⟨trivial, ?_⟩, d.dtype, tail, ⟨trivial, rfl⟩, (), tail, ⟨hle, rfl⟩, ?_⟩
    · simp only [tail, TypeFields.encode, List.append_assoc]
    · rw [h.scalarType_eq]
      dsimp only [tail]
      rw [bind_of_ok ((exact_parseCompression d.dtmask).parse h.compression_eq _),
        bind_of_ok ((exact_parseShape d.dtmask).parse ⟨h.shape_eq, h.shape_le⟩ _)]
      rfl

theorem total_parseType : Total parseType := by
  apply total_beU8.bind
  intro dtmask
  apply total_beU8.bind
  intro dtype
  apply Total.bind fun _ => refuse_ne_panicked
  intro
  split
  · exact fun _ => nofun
  · apply (total_parseCompression dtmask).bind
    intro
    apply (total_parseShape dtmask).bind
    exact fun _ _ => nofun

/-- The texts are parsed exactly. -/
theorem exact_parseTexts : Exact parseTexts TextFields.Valid TextFields.encode := by
  intro inp d rest
  unfold parseTexts
  simp only [exact_parseShortString.bind_eq_ok, pure_eq_ok]
  constructor
  · rintro ⟨a, _, ⟨ha, rfl⟩, b, _, ⟨hb, rfl⟩, c, _, ⟨hc, rfl⟩, e, _, ⟨he, rfl⟩, f, _, ⟨hf, rfl⟩, rfl, rfl⟩
    refine ⟨⟨ha, hb, hc, he, hf⟩, ?_⟩
    simp only [TextFields.encode, List.append_assoc]
  · rintro ⟨h, rfl⟩
    refine ⟨d.sourceName, _, ⟨h.sourceName, ?_⟩, d.unit, _, ⟨h.unit, rfl⟩, d.description, _, ⟨h.description, rfl⟩,
      d.optionalFields, _, ⟨h.optionalFields, rfl⟩, d.valueConverter, _, ⟨h.valueConverter, rfl⟩, rfl, rfl⟩
    simp only [TextFields.encode, List.append_assoc]

theorem total_parseTexts : Total parseTexts := by
  apply total_parseShortString.bind
  intro
  apply total_parseShortString.bind
  intro
  apply total_parseShortString.bind
  intro
  apply total_parseShortString.bind
  intro
  apply total_parseShortString.bind
  exact fun _ _ => nofun

/-- The fields of an entry are parsed exactly, if the bin size does not overflow. -/
theorem parseFields_eq_ok {d : EntryFields} :
    parseFields inp = .ok (d, rest) ↔ d.Valid ∧ d.fixed.BsFits ∧ inp = d.encode ++ rest := by
  unfold parseFields
  simp only [bind_eq_ok, parseFixed_eq_ok, exact_parseType.bind_eq_ok, exact_parseTexts.bind_eq_ok, pure_eq_ok]
  constructor
  · rintro ⟨fixed, _, ⟨hfixed, hfits, rfl⟩, type, _, ⟨htype, rfl⟩, texts, _, ⟨htexts, rfl⟩, rfl, rfl⟩
    refine ⟨⟨hfixed, htype, htexts⟩, hfits, ?_⟩
    simp only [EntryFields.encode, List.append_assoc]
  · rintro ⟨h, hfits, rfl⟩
    refine ⟨d.fixed, _, ⟨h.fixed, hfits, ?_⟩, d.type, _, ⟨h.type, rfl⟩, d.texts, _, ⟨h.texts, rfl⟩, rfl, rfl⟩
    simp only [EntryFields.encode, List.append_assoc]

/-- The bin size in the bytes of an entry overflows. -/
def BsOverflows (inp : List UInt8) : Prop := 28 ≤ inp.length ∧ 2 ^ 64 ≤ ofBe (slice inp 20 28) * Timeunits.ms

/-- The bin size is where the format has it. -/
theorem bsOverflows_append {ts pulse ks bs : ℤ} :
    BsOverflows (beBytesI 8 ts ++ (beBytesI 8 pulse ++ (beBytesI 4 ks ++ (beBytesI 8 bs ++ rest)))) ↔
      2 ^ 64 ≤ unsigned 8 bs * Timeunits.ms := by
  have hslice : slice (beBytesI 8 ts ++ (beBytesI 8 pulse ++ (beBytesI 4 ks ++ (beBytesI 8 bs ++ rest)))) 20 28 =
      beBytesI 8 bs := by
    have hmiddle : slice ((beBytesI 8 ts ++ (beBytesI 8 pulse ++ beBytesI 4 ks)) ++ beBytesI 8 bs ++ rest) 20 28 =
        beBytesI 8 bs := slice_middle (by simp) (by simp)
    simpa only [List.append_assoc] using hmiddle
  rw [BsOverflows, hslice, ofBe_beBytesI, and_iff_right]
  simp only [List.length_append, length_beBytesI]
  omega

/-- The fixed fields panic exactly when the bin size overflows. -/
theorem parseFixed_eq_panicked : parseFixed inp = .error .panicked ↔ BsOverflows inp := by
  have htail : ∀ {ts pulse ks bs : ℤ}, Total (do
      let splitCount ← beI 4
      let status ← beI 4
      let bb ← beI 1
      let modulo ← beI 4
      let offset ← beI 4
      let precision ← beI 2
      let dtlen ← beI 4
      refuse (100 < dtlen) (mkerr (.unexpectedDataTypeLen dtlen))
      return ⟨ts, pulse, ks, bs, splitCount, status, bb, modulo, offset, precision, dtlen⟩ : NRes FixedFields) := by
    intro ts pulse ks bs
    apply (total_beI 4).bind
    intro
    apply (total_beI 4).bind
    intro
    apply (total_beI 1).bind
    intro
    apply (total_beI 4).bind
    intro
    apply (total_beI 4).bind
    intro
    apply (total_beI 2).bind
    intro
    apply (total_beI 4).bind
    intro
    apply Total.bind fun _ => refuse_ne_panicked
    exact fun _ _ => nofun
  unfold parseFixed
  simp only [(exact_beI 8).bind_eq_panicked (total_beI 8), (exact_beI 4).bind_eq_panicked (total_beI 4)]
  constructor
  · rintro ⟨ts, _, ⟨-, rfl⟩, pulse, _, ⟨-, rfl⟩, ks, _, ⟨-, rfl⟩, bs, _, ⟨-, rfl⟩, h⟩
    rcases bind_eq_panicked.mp h with h | ⟨_, _, -, h⟩
    · exact bsOverflows_append.mpr (panicIf_eq_panicked.mp h)
    · exact absurd h (htail _)
  · intro h
    have hlen := h.1
    obtain ⟨ts, inp₁, hts, rfl⟩ := exists_beBytesI (show 8 ≤ inp.length by omega)
    rw [List.length_append, length_beBytesI] at hlen
    obtain ⟨pulse, inp₂, hpulse, rfl⟩ := exists_beBytesI (show 8 ≤ inp₁.length by omega)
    rw [List.length_append, length_beBytesI] at hlen
    obtain ⟨ks, inp₃, hks, rfl⟩ := exists_beBytesI (show 4 ≤ inp₂.length by omega)
    rw [List.length_append, length_beBytesI] at hlen
    obtain ⟨bs, inp₄, hbs, rfl⟩ := exists_beBytesI (show 8 ≤ inp₃.length by omega)
    refine ⟨ts, _, ⟨hts, rfl⟩, pulse, _, ⟨hpulse, rfl⟩, ks, _, ⟨hks, rfl⟩, bs, _, ⟨hbs, rfl⟩, ?_⟩
    exact bind_eq_panicked.mpr (.inl (panicIf_eq_panicked.mpr (bsOverflows_append.mp h)))

/-- The fields of an entry panic exactly when the bin size overflows. -/
theorem parseFields_eq_panicked : parseFields inp = .error .panicked ↔ BsOverflows inp := by
  have htail : ∀ fixed, Total (do
      let type ← parseType
      let texts ← parseTexts
      return ⟨fixed, type, texts⟩ : NRes EntryFields) := by
    intro fixed
    apply total_parseType.bind
    intro
    apply total_parseTexts.bind
    exact fun _ _ => nofun
  unfold parseFields
  rw [bind_eq_panicked, parseFixed_eq_panicked]
  apply or_iff_left
  rintro ⟨fixed, mid, -, h⟩
  exact htail fixed mid h

end Fields

/-! ## Entries -/

section Entries

variable {inp rest : List UInt8} {d : EntryFields}

/-- Where an entry begins, its length is one that the parser can use: if the length is in the range of the
parser, and something follows, then it counts at least the first length field; and if as many bytes follow, then
it counts both length fields, the bin size does not overflow, and fields end where the length says. -/
def EntrySound (inp : List UInt8) : Prop :=
  ∀ (len1 : ℤ) (tail : List UInt8), inp = beBytesI 4 len1 ++ tail → 0 ≤ len1 → len1 ≤ 4000 → tail ≠ [] →
    4 ≤ len1 ∧ (len1 - 4 ≤ tail.length → 8 ≤ len1 ∧ ¬ BsOverflows tail ∧
      ∀ (d : EntryFields) (rest : List UInt8), d.Valid → tail = d.encode ++ rest → d.encode.length = len1 - 8)

theorem FixedFields.length_encode (d : FixedFields) : d.encode.length = 51 := by
  simp [FixedFields.encode]

theorem FixedFields.bsFits_iff (d : FixedFields) (rest : List UInt8) : d.BsFits ↔ ¬ BsOverflows (d.encode ++ rest) := by
  simp only [FixedFields.encode, List.append_assoc]
  rw [bsOverflows_append, FixedFields.BsFits, not_le]

theorem EntryFields.bsFits_iff (d : EntryFields) (rest : List UInt8) :
    d.fixed.BsFits ↔ ¬ BsOverflows (d.encode ++ rest) := by
  rw [EntryFields.encode, List.append_assoc, List.append_assoc]
  exact d.fixed.bsFits_iff _

/-- What follows the first length field of an entry -/
def parseRest (len1 : ℤ) : NRes (Option ConfigEntry) := do
  let inp ← get
  if inp.length = 0 then return none
  else
    panicIf (len1 < 4)
    refuse (inp.length < (len1 - 4).toNat) (.incomplete (some (len1 - 4).toNat))
    panicIf (len1 < 8)
    let inpE := inp.drop (len1 - 8).toNat
    let fields ← parseFields
    let inp ← get
    panicIf (inp.length ≠ inpE.length)
    set inpE
    let len2 ← beI 4
    refuse (len1 ≠ len2) (mkerr (.mismatch len1 len2))
    return some fields.toConfigEntry

theorem parseEntry_eq : parseEntry = (do
    let len1 ← beI 4
    refuse (len1 < 0 ∨ 4000 < len1) (mkerr (.configEntryBadLen1 len1))
    parseRest len1) := rfl

/-- A first length field that is accepted leaves the rest of the entry to parse. -/
theorem parseEntry_append {len1 : ℤ} (hge : 0 ≤ len1) (hle : len1 ≤ 4000) (tail : List UInt8) :
    parseEntry (beBytesI 4 len1 ++ tail) = parseRest len1 tail := by
  rw [parseEntry_eq, bind_of_ok ((exact_beI 4).parse (fitsSigned_four (by omega) (by omega)) tail),
    bind_of_ok (refuse_of_not (by omega) _)]

/-- What follows the first length field is parsed as an entry exactly if fields, and a length field that agrees,
make it up. -/
theorem parseRest_eq_ok {len1 : ℤ} {e : Option ConfigEntry} (hge : 0 ≤ len1) (hle : len1 ≤ 4000) :
    parseRest len1 inp = .ok (e, rest) ↔
      (inp = [] ∧ e = none ∧ rest = []) ∨
        ∃ d : EntryFields, ValidEntry d ∧ d.fixed.BsFits ∧ len1 = d.length ∧
          inp = d.encode ++ beBytesI 4 d.length ++ rest ∧ e = some d.toConfigEntry := by
  unfold parseRest
  rw [bind_of_ok (get_apply _)]
  by_cases hnil : inp = []
  · subst hnil
    rw [if_pos List.length_nil, pure_eq_ok]
    constructor
    · rintro ⟨rfl, rfl⟩
      exact .inl ⟨rfl, rfl, rfl⟩
    · rintro (⟨-, rfl, rfl⟩ | ⟨d, -, -, -, h, -⟩)
      · exact ⟨rfl, rfl⟩
      · have hlen := congrArg List.length h
        simp only [List.length_append, length_beBytesI, List.length_nil] at hlen
        omega
  · have hlen : inp.length ≠ 0 := by simpa using hnil
    rw [if_neg hlen]
    simp only [bind_eq_ok, panicIf_eq_ok, refuse_eq_ok, parseFields_eq_ok, get_eq_ok, set_eq_ok,
      (exact_beI 4).bind_eq_ok, pure_eq_ok, hnil, false_and, false_or]
    constructor
    · rintro ⟨_, _, ⟨h4, rfl⟩, _, _, ⟨hinp, rfl⟩, _, _, ⟨h8, rfl⟩, d, _, ⟨hvalid, hfits, rfl⟩, _, _, ⟨rfl, rfl⟩,
        _, _, ⟨hend, rfl⟩, _, _, rfl, len2, _, ⟨-, hlen2⟩, _, _, ⟨heq, rfl⟩, rfl, rfl⟩
      rename_i rest₁ _ _
      -- the fields end where the slice begins
      have hdrop : (d.encode ++ rest₁).drop (len1 - 8).toNat = rest₁ := by
        apply List.drop_left'
        rw [not_not, List.length_drop, List.length_append] at hend
        rw [List.length_append] at hinp
        omega
      have hlength : len1 = d.length := by
        have hdroplen := congrArg List.length hdrop
        rw [List.length_drop, List.length_append] at hdroplen
        rw [List.length_append] at hinp
        unfold EntryFields.length
        omega
      rw [hdrop] at hlen2
      obtain rfl := not_not.mp heq
      rw [hlength] at hle
      refine ⟨d, ⟨hvalid, ?_⟩, hfits, hlength, ?_, rfl⟩
      · exact_mod_cast hle
      · rw [hlen2, hlength, List.append_assoc]
    · rintro ⟨d, ⟨hvalid, hd⟩, hfits, rfl, rfl, rfl⟩
      have hlength : ((d.length : ℤ) - 8).toNat = d.encode.length := by
        unfold EntryFields.length
        omega
      have hsize : d.length = d.encode.length + 8 := rfl
      refine ⟨(), _, ⟨by omega, rfl⟩, (), _, ⟨?_, rfl⟩, (), _, ⟨by omega, rfl⟩, d, _,
        ⟨hvalid, hfits, List.append_assoc _ _ _⟩, _, _, ⟨rfl, rfl⟩, (), _, ⟨?_, rfl⟩, (), _, rfl, d.length, rest, ⟨?_, ?_⟩,
        (), rest, ⟨not_not.mpr rfl, rfl⟩, rfl, rfl⟩
      · simp only [List.length_append, length_beBytesI]
        omega
      · rw [not_not, List.length_drop, hlength]
        simp only [List.length_append, length_beBytesI]
        omega
      · exact fitsSigned_four (by omega) (by omega)
      · rw [hlength, List.append_assoc, List.drop_left]

/-- What follows the first length field makes the parser panic exactly if the length is too short for what the
parser does with it, or the bin size overflows, or the fields do not end where the length says. -/
theorem parseRest_eq_panicked {len1 : ℤ} :
    parseRest len1 inp = .error .panicked ↔
      inp ≠ [] ∧ (len1 < 4 ∨ ¬ inp.length < (len1 - 4).toNat ∧ (len1 < 8 ∨ BsOverflows inp ∨
        ∃ (d : EntryFields) (rest : List UInt8), d.Valid ∧ d.fixed.BsFits ∧ inp = d.encode ++ rest ∧
          rest.length ≠ (inp.drop (len1 - 8).toNat).length)) := by
  have htail : ∀ {inpE : List UInt8} {fields : EntryFields}, Total (do
      set inpE
      let len2 ← beI 4
      refuse (len1 ≠ len2) (mkerr (.mismatch len1 len2))
      return some fields.toConfigEntry : NRes (Option ConfigEntry)) := by
    intro inpE fields
    apply Total.bind fun _ => set_ne_panicked
    intro
    apply (total_beI 4).bind
    intro
    apply Total.bind fun _ => refuse_ne_panicked
    exact fun _ _ => nofun
  have hset : ∀ {inpE : List UInt8} {fields : EntryFields} {mid : List UInt8}, (do
      set inpE
      let len2 ← beI 4
      refuse (len1 ≠ len2) (mkerr (.mismatch len1 len2))
      return some fields.toConfigEntry : NRes (Option ConfigEntry)) mid ≠ .error .panicked := fun {_ _ mid} => htail mid
  unfold parseRest
  rw [bind_of_ok (get_apply _)]
  by_cases hnil : inp = []
  · subst hnil
    rw [if_pos List.length_nil]
    refine iff_of_false ?_ fun h => h.1 rfl
    intro h
    cases h
  · have hlen : inp.length ≠ 0 := by simpa using hnil
    rw [if_neg hlen, and_iff_right hnil]
    by_cases h4 : len1 < 4
    · exact iff_of_true (bind_eq_panicked.mpr (.inl (panicIf_eq_panicked.mpr h4))) (.inl h4)
    · rw [bind_of_ok (panicIf_of_not h4 _), or_iff_right h4]
      by_cases hshort : inp.length < (len1 - 4).toNat
      · rw [bind_apply, refuse, if_pos hshort]
        refine iff_of_false ?_ fun h => h.1 hshort
        intro h
        cases h
      · rw [bind_of_ok (refuse_of_not hshort _), and_iff_right hshort]
        by_cases h8 : len1 < 8
        · exact iff_of_true (bind_eq_panicked.mpr (.inl (panicIf_eq_panicked.mpr h8))) (.inl h8)
        · rw [bind_of_ok (panicIf_of_not h8 _), or_iff_right h8, bind_eq_panicked, parseFields_eq_panicked]
          apply or_congr_right
          simp only [parseFields_eq_ok, bind_eq_panicked (p := get), get_ne_panicked, get_eq_ok, false_or,
            bind_eq_panicked (p := panicIf _), panicIf_eq_panicked, hset, and_false, exists_false, or_false]
          constructor
          · rintro ⟨d, _, ⟨hvalid, hfits, hinp⟩, _, _, ⟨rfl, rfl⟩, h⟩
            exact ⟨d, _, hvalid, hfits, hinp, h⟩
          · rintro ⟨d, rest, hvalid, hfits, hinp, h⟩
            exact ⟨d, rest, ⟨hvalid, hfits, hinp⟩, rest, rest, ⟨rfl, rfl⟩, h⟩

/-- Fields that are at the front of some bytes leave what is behind the given position, exactly if they end
there. -/
theorem length_drop_encode {len1 : ℤ} (h8 : 8 ≤ len1) (hlong : len1 - 4 ≤ (d.encode ++ rest).length) :
    rest.length = ((d.encode ++ rest).drop (len1 - 8).toNat).length ↔ d.encode.length = len1 - 8 := by
  rw [List.length_append] at hlong
  rw [List.length_drop, List.length_append]
  omega

/-- An entry is parsed without a panic exactly where it is sound. -/
theorem parseEntry_eq_panicked : parseEntry inp = .error .panicked ↔ ¬ EntrySound inp := by
  constructor
  · intro h hsound
    rw [parseEntry_eq, (exact_beI 4).bind_eq_panicked (total_beI 4)] at h
    obtain ⟨len1, tail, ⟨-, rfl⟩, h⟩ := h
    rcases bind_eq_panicked.mp h with h | ⟨u, mid, hrefuse, hrest⟩
    · exact refuse_ne_panicked h
    · obtain ⟨hrange, rfl⟩ := refuse_eq_ok.mp hrefuse
      obtain ⟨hne, hcases⟩ := parseRest_eq_panicked.mp hrest
      obtain ⟨h4, hlong⟩ := hsound len1 mid rfl (by omega) (by omega) hne
      rcases hcases with hlt | ⟨hshort, hcases⟩
      · omega
      · have hle : len1 - 4 ≤ mid.length := by omega
        obtain ⟨h8, hbs, hend⟩ := hlong hle
        rcases hcases with hlt | hover | ⟨d, rest, hvalid, -, rfl, hlen⟩
        · omega
        · exact hbs hover
        · exact hlen ((length_drop_encode h8 hle).mpr (hend d rest hvalid rfl))
  · intro h
    by_contra hpanic
    apply h
    rintro len1 tail rfl hge hle hne
    rw [parseEntry_append hge hle, parseRest_eq_panicked, and_iff_right hne, not_or] at hpanic
    obtain ⟨h4, hpanic⟩ := hpanic
    refine ⟨not_lt.mp h4, ?_⟩
    intro hlong
    rw [and_iff_right (by omega), not_or, not_or] at hpanic
    obtain ⟨h8, hbs, hend⟩ := hpanic
    refine ⟨not_lt.mp h8, hbs, ?_⟩
    rintro d rest hvalid rfl
    by_contra hlen
    apply hend
    refine ⟨d, rest, hvalid, (d.bsFits_iff rest).mpr hbs, rfl, ?_⟩
    intro heq
    exact hlen ((length_drop_encode (not_lt.mp h8) hlong).mp heq)

/-- An entry that is parsed has the encoding of its fields; or nothing follows its first length field. -/
theorem of_parseEntry {e : Option ConfigEntry} (h : parseEntry inp = .ok (e, rest)) :
    (e = none ∧ rest = []) ∨
      ∃ d : EntryFields, ValidEntry d ∧ d.fixed.BsFits ∧ inp = d.encodeEntry ++ rest ∧ e = some d.toConfigEntry := by
  rw [parseEntry_eq, (exact_beI 4).bind_eq_ok] at h
  obtain ⟨len1, tail, ⟨-, rfl⟩, h⟩ := h
  obtain ⟨u, mid, hrefuse, hrest⟩ := bind_eq_ok.mp h
  obtain ⟨hrange, rfl⟩ := refuse_eq_ok.mp hrefuse
  rcases (parseRest_eq_ok (by omega) (by omega)).mp hrest with ⟨-, rfl, rfl⟩ | ⟨d, hvalid, hfits, rfl, rfl, rfl⟩
  · exact .inl ⟨rfl, rfl⟩
  · refine .inr ⟨d, hvalid, hfits, ?_, rfl⟩
    simp only [EntryFields.encodeEntry, List.append_assoc]

/-- A whole entry is parsed back. -/
theorem parseEntry_encode (hvalid : ValidEntry d) (hfits : d.fixed.BsFits) (rest : List UInt8) :
    parseEntry (d.encodeEntry ++ rest) = .ok (some d.toConfigEntry, rest) := by
  have hle : (d.length : ℤ) ≤ 4000 := by exact_mod_cast hvalid.2
  have hrest : parseRest d.length (d.encode ++ beBytesI 4 d.length ++ rest) = .ok (some d.toConfigEntry, rest) :=
    (parseRest_eq_ok (Int.natCast_nonneg _) hle).mpr (.inr ⟨d, hvalid, hfits, rfl, rfl, rfl⟩)
  rw [← hrest, ← parseEntry_append (Int.natCast_nonneg _) hle]
  simp only [EntryFields.encodeEntry, List.append_assoc]

/-- An entry whose bin size overflows makes the parser panic. -/
theorem not_entrySound_encode (hvalid : ValidEntry d) (hfits : ¬ d.fixed.BsFits) (rest : List UInt8) :
    ¬ EntrySound (d.encodeEntry ++ rest) := by
  intro hsound
  have hle : (d.length : ℤ) ≤ 4000 := by exact_mod_cast hvalid.2
  have hlen : d.length = d.encode.length + 8 := rfl
  obtain ⟨-, hlong⟩ := hsound d.length (d.encode ++ (beBytesI 4 d.length ++ rest))
    (by simp only [EntryFields.encodeEntry, List.append_assoc]) (Int.natCast_nonneg _) hle (by
      intro hnil
      have hzero := congrArg List.length hnil
      simp only [List.length_append, length_beBytesI, List.length_nil] at hzero
      omega)
  obtain ⟨-, hbs, -⟩ := hlong (by
    simp only [List.length_append, length_beBytesI]
    omega)
  exact hfits ((d.bsFits_iff _).mpr hbs)

theorem length_encodeEntry (d : EntryFields) : d.encodeEntry.length = d.encode.length + 8 := by
  simp only [EntryFields.encodeEntry, List.length_append, length_beBytesI]
  omega

/-- An entry takes something off the input. -/
theorem length_lt_of_parseEntry {e : Option ConfigEntry} (hne : inp ≠ []) (h : parseEntry inp = .ok (e, rest)) :
    rest.length < inp.length := by
  rcases of_parseEntry h with ⟨-, rfl⟩ | ⟨d, -, -, rfl, -⟩
  · exact List.length_pos_of_ne_nil hne
  · rw [List.length_append, length_encodeEntry]
    omega

/-- The loop of {lit}`parse_config_inner` -/
def parseEntries (inp : List UInt8) : Except (Stop ConfigParseError) (List ConfigEntry) :=
  if _ : inp = [] then .ok []
  else
    match _ : parseEntry inp with
    | .error e => .error e
    | .ok (e, rest) => (parseEntries rest).map fun entries => e.toList ++ entries
termination_by inp.length
decreasing_by exact length_lt_of_parseEntry ‹_› ‹_›

theorem parseEntries_nil : parseEntries [] = .ok [] := by
  rw [parseEntries, dif_pos rfl]

theorem parseEntries_of_ok {e : Option ConfigEntry} (hne : inp ≠ []) (h : parseEntry inp = .ok (e, rest)) :
    parseEntries inp = (parseEntries rest).map fun entries => e.toList ++ entries := by
  rw [parseEntries, dif_neg hne]
  split
  · rename_i heq
    rw [h] at heq
    cases heq
  · rename_i heq
    rw [h] at heq
    cases heq
    rfl

theorem parseEntries_of_error {e : Stop ConfigParseError} (hne : inp ≠ []) (h : parseEntry inp = .error e) :
    parseEntries inp = .error e := by
  rw [parseEntries, dif_neg hne]
  split
  · rename_i heq
    rw [h] at heq
    cases heq
    rfl
  · rename_i heq
    rw [h] at heq
    cases heq

theorem encodeEntry_append_ne_nil (d : EntryFields) (rest : List UInt8) : d.encodeEntry ++ rest ≠ [] := by
  intro h
  have hlen := congrArg List.length h
  rw [List.length_append, length_encodeEntry, List.length_nil] at hlen
  omega

/-- Whole entries are parsed back, and the rest after them. -/
theorem parseEntries_flatMap {ds : List EntryFields} (hds : ∀ d ∈ ds, ValidEntry d ∧ d.fixed.BsFits)
    (rest : List UInt8) :
    parseEntries (ds.flatMap EntryFields.encodeEntry ++ rest) =
      (parseEntries rest).map fun entries => ds.map EntryFields.toConfigEntry ++ entries := by
  induction ds with
  | nil =>
      cases h : parseEntries rest with
      | error e => simp [h, Except.map]
      | ok entries => simp [h, Except.map]
  | cons d ds ih =>
      obtain ⟨hvalid, hfits⟩ := hds d List.mem_cons_self
      rw [List.flatMap_cons, List.append_assoc,
        parseEntries_of_ok (encodeEntry_append_ne_nil _ _) (parseEntry_encode hvalid hfits _),
        ih fun d hd => hds d (List.mem_cons_of_mem _ hd)]
      cases parseEntries rest with
      | error e => rfl
      | ok entries => rfl

/-- Entries make the parser panic exactly if, behind some whole entries, one is not sound. -/
theorem parseEntries_eq_panicked :
    parseEntries inp = .error .panicked ↔
      ∃ (ds : List EntryFields) (rest : List UInt8), (∀ d ∈ ds, ValidEntry d) ∧
        inp = ds.flatMap EntryFields.encodeEntry ++ rest ∧ ¬ EntrySound rest := by
  constructor
  · intro h
    induction hlen : inp.length using Nat.strong_induction_on generalizing inp with
    | _ n ih =>
        by_cases hne : inp = []
        · rw [hne, parseEntries_nil] at h
          cases h
        · cases hentry : parseEntry inp with
          | error e =>
              rw [parseEntries_of_error hne hentry, Except.error.injEq] at h
              subst h
              have hsound : ¬ EntrySound inp := parseEntry_eq_panicked.mp hentry
              exact ⟨[], inp, List.forall_mem_nil _, rfl, hsound⟩
          | ok x =>
              obtain ⟨e, rest⟩ := x
              rw [parseEntries_of_ok hne hentry] at h
              have hrest : parseEntries rest = .error .panicked := by
                cases hr : parseEntries rest with
                | error e' =>
                    rw [hr] at h
                    exact h
                | ok entries =>
                    rw [hr] at h
                    cases h
              have hshorter := length_lt_of_parseEntry hne hentry
              obtain ⟨ds, rest', hds, rfl, hsound⟩ := ih rest.length (hlen ▸ hshorter) hrest rfl
              rcases of_parseEntry hentry with ⟨-, hnil⟩ | ⟨d, hvalid, -, rfl, -⟩
              · rw [hnil, parseEntries_nil] at hrest
                cases hrest
              · refine ⟨d :: ds, rest', List.forall_mem_cons.mpr ⟨hvalid, hds⟩, ?_, hsound⟩
                rw [List.flatMap_cons, List.append_assoc]
  · rintro ⟨ds, rest, hds, rfl, hsound⟩
    induction ds with
    | nil =>
        have hpanic := parseEntry_eq_panicked.mpr hsound
        apply parseEntries_of_error _ hpanic
        rintro rfl
        cases hpanic
    | cons d ds ih =>
        obtain ⟨hvalid, hds⟩ := List.forall_mem_cons.mp hds
        rw [List.flatMap_cons, List.append_assoc]
        by_cases hfits : d.fixed.BsFits
        · rw [parseEntries_of_ok (encodeEntry_append_ne_nil _ _) (parseEntry_encode hvalid hfits _), ih hds]
          rfl
        · exact parseEntries_of_error (encodeEntry_append_ne_nil _ _)
            (parseEntry_eq_panicked.mpr (not_entrySound_encode hvalid hfits _))

end Entries

/-! ## Files -/

section Files

variable {inp rest : List UInt8}

/-- The part of {lit}`parse_config_inner` that reads the version and the name of the channel. -/
def parseHeader : NRes (ℤ × String) := do
  let ver ← beI 2
  let len1 ← beI 4
  refuse (len1 ≤ 8 ∨ 500 < len1) (mkerr (.noChannelName len1))
  let chn ← take (len1 - 8).toNat
  match fromUtf8 chn with
  | none => throwErr (mkerr .channelNameUtf8)
  | some channelName =>
      let len2 ← beI 4
      refuse (len1 ≠ len2) (mkerr (.mismatch len1 len2))
      return (ver, channelName)

/-- {lit}`parse_config_inner` and {lit}`parse_config`, which turns the error into a text. -/
def parseConfig (inp : List UInt8) : Except (Stop ConfigParseError) ChannelConfigs := do
  let ((ver, channelName), inp) ← parseHeader inp
  let entries ← parseEntries inp
  return ⟨ver, channelName, entries⟩

/-- The header is parsed exactly. -/
theorem exact_parseHeader :
    Exact parseHeader (fun h => ValidHeader h.1 h.2) (fun h => encodeHeader h.1 h.2) := by
  intro inp h rest
  unfold parseHeader
  simp only [(exact_beI 2).bind_eq_ok, (exact_beI 4).bind_eq_ok, bind_eq_ok, refuse_eq_ok]
  constructor
  · rintro ⟨ver, _, ⟨hver, rfl⟩, len1, _, ⟨hfits, rfl⟩, _, _, ⟨hlen1, rfl⟩, chn, rest₁, htake, hmatch⟩
    obtain ⟨hlen, rfl⟩ := (exact_take _ _ _ _).mp htake
    cases hname : fromUtf8 chn with
    | none =>
        rw [hname] at hmatch
        exact absurd hmatch throwErr_ne_ok
    | some name =>
        rw [hname] at hmatch
        simp only [(exact_beI 4).bind_eq_ok, bind_eq_ok, refuse_eq_ok, pure_eq_ok] at hmatch
        obtain ⟨len2, _, ⟨-, rfl⟩, _, _, ⟨heq, rfl⟩, rfl, rfl⟩ := hmatch
        obtain rfl := not_not.mp heq
        obtain rfl := fromUtf8_eq_some.mp hname
        have hpos : 0 < (utf8 name).length := by omega
        have hle : (utf8 name).length ≤ 492 := by omega
        have hlen1' : len1 = (utf8 name).length + 8 := by omega
        subst hlen1'
        refine ⟨⟨hver, hpos, hle⟩, ?_⟩
        simp only [encodeHeader, List.append_assoc, id]
  · obtain ⟨ver, name⟩ := h
    rintro ⟨⟨hver, hpos, hle⟩, rfl⟩
    dsimp only at hver hpos hle ⊢
    obtain ⟨len1, hlen1⟩ : ∃ len1 : ℤ, len1 = (utf8 name).length + 8 := ⟨_, rfl⟩
    have hfits : FitsSigned 4 len1 := fitsSigned_four (by omega) (by omega)
    have htoNat : (len1 - 8).toNat = (utf8 name).length := by omega
    have hname : take (len1 - 8).toNat (utf8 name ++ (beBytesI 4 len1 ++ rest)) =
        (.ok (utf8 name, beBytesI 4 len1 ++ rest) : Except (Stop ConfigParseError) _) := by
      rw [htoNat]
      exact take_append _ _
    refine ⟨ver, _, ⟨hver, ?_⟩, len1, _, ⟨hfits, rfl⟩, (), _, ⟨by omega, rfl⟩, utf8 name, _, hname, ?_⟩
    · simp only [encodeHeader, List.append_assoc, hlen1]
    · rw [fromUtf8_utf8]
      dsimp only
      rw [bind_of_ok ((exact_beI 4).parse hfits rest), bind_of_ok (refuse_of_not (not_not.mpr rfl) _)]
      rfl

theorem total_parseHeader : Total parseHeader := by
  apply (total_beI 2).bind
  intro
  apply (total_beI 4).bind
  intro
  apply Total.bind fun _ => refuse_ne_panicked
  intro
  apply (total_take _).bind
  intro chn
  cases fromUtf8 chn with
  | none => exact fun _ => nofun
  | some name =>
      apply (total_beI 4).bind
      intro
      apply Total.bind fun _ => refuse_ne_panicked
      exact fun _ _ => nofun

theorem parseConfig_header {ver : ℤ} {name : String} (h : ValidHeader ver name) (rest : List UInt8) :
    parseConfig (encodeHeader ver name ++ rest) =
      (parseEntries rest).map fun entries => ⟨ver, name, entries⟩ := by
  have hheader : parseHeader (encodeHeader ver name ++ rest) = .ok ((ver, name), rest) :=
    exact_parseHeader.parse (a := (ver, name)) h rest
  unfold parseConfig
  rw [hheader]
  cases h : parseEntries rest with
  | error e => simp [h, bind, Except.bind, Except.map]
  | ok entries => simp [h, bind, Except.bind, Except.map, pure, Except.pure]

/-- The parser panics exactly if, behind a header and some whole entries, an entry is not sound. -/
theorem parseConfig_eq_panicked :
    parseConfig inp = .error .panicked ↔
      ∃ (ver : ℤ) (name : String) (ds : List EntryFields) (rest : List UInt8), ValidHeader ver name ∧
        (∀ d ∈ ds, ValidEntry d) ∧ inp = encodeFile ver name ds ++ rest ∧ ¬ EntrySound rest := by
  have hmap : ∀ {ver : ℤ} {name : String} {rest : List UInt8},
      (parseEntries rest).map (fun entries => (⟨ver, name, entries⟩ : ChannelConfigs)) = .error .panicked ↔
        parseEntries rest = .error .panicked := by
    intro ver name rest
    cases parseEntries rest with
    | error e => simp [Except.map]
    | ok entries => simp [Except.map]
  constructor
  · intro h
    cases hheader : parseHeader inp with
    | error e =>
        unfold parseConfig at h
        rw [hheader] at h
        obtain rfl : e = .panicked := by simpa [bind, Except.bind] using h
        exact absurd hheader (total_parseHeader inp)
    | ok x =>
        obtain ⟨⟨ver, name⟩, rest⟩ := x
        obtain ⟨hvalid, rfl⟩ := (exact_parseHeader _ _ _).mp hheader
        rw [parseConfig_header hvalid, hmap, parseEntries_eq_panicked] at h
        obtain ⟨ds, rest', hds, rfl, hsound⟩ := h
        exact ⟨ver, name, ds, rest', hvalid, hds, (List.append_assoc _ _ _).symm, hsound⟩
  · rintro ⟨ver, name, ds, rest, hvalid, hds, rfl, hsound⟩
    rw [encodeFile, List.append_assoc, parseConfig_header hvalid, hmap]
    exact parseEntries_eq_panicked.mpr ⟨ds, rest, hds, rfl, hsound⟩

/-- What the parser should do with some bytes: not panic, and give what a file in the format holds. -/
structure ParsesWell (inp : List UInt8) : Prop where
  safe : parseConfig inp ≠ .error .panicked
  complete : ∀ (ver : ℤ) (name : String) (ds : List EntryFields), ValidHeader ver name → (∀ d ∈ ds, ValidEntry d) →
    inp = encodeFile ver name ds → parseConfig inp = .ok ⟨ver, name, ds.map EntryFields.toConfigEntry⟩

/-- Behind a header and any whole entries, what follows is sound. -/
def FileSound (inp : List UInt8) : Prop :=
  ∀ (ver : ℤ) (name : String) (ds : List EntryFields) (rest : List UInt8), ValidHeader ver name →
    (∀ d ∈ ds, ValidEntry d) → inp = encodeFile ver name ds ++ rest → EntrySound rest

/-- The entries of a sound file do not overflow. -/
theorem FileSound.bsFits {ver : ℤ} {name : String} {ds : List EntryFields} (h : FileSound inp)
    (hvalid : ValidHeader ver name) (hds : ∀ d ∈ ds, ValidEntry d) (heq : inp = encodeFile ver name ds) :
    ∀ d ∈ ds, d.fixed.BsFits := by
  intro d hd
  by_contra hfits
  obtain ⟨ds₁, ds₂, rfl⟩ := List.append_of_mem hd
  apply not_entrySound_encode (hds d hd) hfits (ds₂.flatMap EntryFields.encodeEntry)
  apply h ver name ds₁ _ hvalid fun e he => hds e (List.mem_append_left _ he)
  rw [heq, encodeFile, encodeFile, List.flatMap_append, List.flatMap_cons, List.append_assoc]

/-- For every byte sequence: the parser does not panic, and gives exactly the entries if the bytes are a file in
the format, exactly if the bytes are sound. -/
theorem parseConfig_iff (inp : List UInt8) : ParsesWell inp ↔ FileSound inp := by
  constructor
  · intro h ver name ds rest hvalid hds heq
    by_contra hsound
    exact h.safe (parseConfig_eq_panicked.mpr ⟨ver, name, ds, rest, hvalid, hds, heq, hsound⟩)
  · intro h
    constructor
    · intro hpanic
      obtain ⟨ver, name, ds, rest, hvalid, hds, heq, hsound⟩ := parseConfig_eq_panicked.mp hpanic
      exact hsound (h ver name ds rest hvalid hds heq)
    · intro ver name ds hvalid hds heq
      have hfits := h.bsFits hvalid hds heq
      have hentries := parseEntries_flatMap (fun d hd => ⟨hds d hd, hfits d hd⟩) []
      rw [List.append_nil, parseEntries_nil] at hentries
      rw [heq, encodeFile, parseConfig_header hvalid, hentries]
      simp [Except.map]

/-- Behind the name an entry of length five, with one more byte: the slice at the end of its fields would begin
three bytes before them. -/
theorem not_parsesWell :
    parseConfig [0, 0, 0, 0, 0, 11, 97, 98, 99, 0, 0, 0, 11, 0, 0, 0, 5, 0] = .error .panicked := by
  have hheader : ValidHeader 0 "abc" := ⟨by decide, by decide, by decide⟩
  have hentry : parseEntry [0, 0, 0, 5, 0] = .error .panicked := rfl
  have hbytes : [0, 0, 0, 0, 0, 11, 97, 98, 99, 0, 0, 0, 11, 0, 0, 0, 5, 0] =
      encodeHeader 0 "abc" ++ [0, 0, 0, 5, 0] := by decide
  rw [hbytes, parseConfig_header hheader, parseEntries_of_error (List.cons_ne_nil _ _) hentry]
  rfl

end Files

end Parse
end Daqbuf
