import Daqbuf.Items.EventFull
import Daqbuf.Items.Merge
import Daqbuf.Parse.Nom
import Daqbuf.Poll.Loop
/-!
# The Parser of Data Files

{lit}`EventChunker` parses the chunks in which a data file is read, behind a {lit}`NeedMinBuffer` which collects
them until there are as many bytes as the parser asks for.  All lengths are taken from the file.  The cursor of
the parser runs over the whole buffer, not only over the record, and reading beyond it panics, as a wrong
subtraction, a slice beyond its end and a product that overflows do.

Main results:

- Theorem {lit}`readFields_apply`: what the fields of a record behind its times are parsed to.
- Theorem {lit}`parseStep_eq_panicked`: one round of the parser panics exactly where the bytes are not sound.
- Theorem {lit}`EventChunker.not_panics_iff`: reading does not panic exactly if the parser visits sound bytes only.
-/

namespace Daqbuf
namespace Disk

open Bytes Items Netpod Nom Poll

/-! ## The buffer -/

/-- {lit}`NeedMinBuffer`; the polled input is the script of its answers. -/
structure NeedMinBuffer where
  inp : Script (Except SitemErr (List UInt8))
  needMin : ℕ := 1
  left : Option (List UInt8) := none
  errored : Bool := false
  completed : Bool := false
  deriving DecidableEq

namespace NeedMinBuffer

/-- {lit}`put_back`; the buffer holds nothing when this is used. -/
def putBack (b : NeedMinBuffer) (buf : List UInt8) : NeedMinBuffer := { b with left := some buf }

/-- {lit}`set_need_min` -/
def setNeedMin (b : NeedMinBuffer) (needMin : ℕ) : NeedMinBuffer := { b with needMin := needMin }

/-- One pass of {lit}`poll_next`.  The length of the bytes is cut to 32 bits. -/
def pollNext (b : NeedMinBuffer) : Pass NeedMinBuffer (Except SitemErr (List UInt8)) :=
  if b.completed then .panic
  else if b.errored then .done { b with completed := true }
  else
    match b.inp with
    | .ready (.ok fcr) :: rest =>
        let buf := b.left.getD [] ++ fcr
        if b.needMin ≤ buf.length % 2 ^ 32 then .item (.ok buf) { b with inp := rest, left := none }
        else .again { b with inp := rest, left := some buf }
    | .ready (.error e) :: rest => .item (.error e) { b with inp := rest, errored := true }
    | [] => .done b
    | .pending :: rest => .pending { b with inp := rest }

end NeedMinBuffer

/-! ## The records -/

/-- {lit}`DataParseError`, as far as it is used -/
inductive DataParseError where
  | dataFrameLengthMismatch
  | fileHeaderTooShort
  | badVersionTag
  | headerTooLarge
  | eventTooShort
  | eventTooLong (shape : DataShape) (len : ℕ)
  | tooManyBeforeRange
  | eventWithOptional
  | badTypeIndex
  | waveShapeWithoutEventArray
  | unknownCompression
  deriving DecidableEq, Repr

/-- The error as a stream item. -/
def DataParseError.toSitemErr : DataParseError → SitemErr
  | dataFrameLengthMismatch => .fromVariant "DatabufferDataParse" "DataFrameLengthMismatch"
  | fileHeaderTooShort => .fromVariant "DatabufferDataParse" "FileHeaderTooShort"
  | badVersionTag => .fromVariant "DatabufferDataParse" "BadVersionTag"
  | headerTooLarge => .fromVariant "DatabufferDataParse" "HeaderTooLarge"
  | eventTooShort => .fromVariant "DatabufferDataParse" "EventTooShort"
  | eventTooLong _ _ => .fromVariant "DatabufferDataParse" "EventTooLong"
  | tooManyBeforeRange => .fromVariant "DatabufferDataParse" "TooManyBeforeRange"
  | eventWithOptional => .fromVariant "DatabufferDataParse" "EventWithOptional"
  | badTypeIndex => .fromVariant "DatabufferDataParse" "BadTypeIndex"
  | waveShapeWithoutEventArray => .fromVariant "DatabufferDataParse" "WaveShapeWithoutEventArray"
  | unknownCompression => .fromVariant "DatabufferDataParse" "UnknownCompression"

/-- {lit}`COMPRESSION` -/
def compressionFlag : ℕ := 0x80

/-- {lit}`ARRAY` -/
def arrayFlag : ℕ := 0x40

/-- {lit}`BIG_ENDIAN` -/
def bigEndianFlag : ℕ := 0x20

/-- {lit}`SHAPE` -/
def shapeFlag : ℕ := 0x10

/-- Whether a flag is set. -/
def isSet (flags flag : ℕ) : Bool := flags &&& flag ≠ 0

/-- Whether a waveform is expected. -/
def isWave : DataShape → Bool
  | .wave _ => true
  | _ => false

/-- The longest event that is accepted for a shape. -/
def maxEventLen : DataShape → ℤ
  | .scalar => 1024 * 64
  | .wave _ => 1024 * 1024 * 32
  | .image _ _ => 1024 * 1024 * 200

/-- {lit}`need_min_max` -/
def needMinMax : DataShape → ℕ
  | .scalar => 1024 * 16
  | .wave _ => 1024 * 6000
  | .image _ _ => 1024 * 1024 * 80

/-- The fields of a record behind its times; {lit}`oddShape` says that its shape has no or too many dimensions. -/
structure RecordFields where
  scalarType : ScalarType
  be : Bool
  shape : DataShape
  oddShape : Bool
  comp : Option CompressionMethod
  deriving DecidableEq, Repr

/-- The lengths of the dimensions.  They are kept in an array of four. -/
def readDims (dim : ℕ) : Parser DataParseError (List ℕ) := do
  let lens ← times (readU 4) dim
  panicIf (4 < dim)
  return lens

/-- The shape that a record states, and whether it is an odd one. -/
def statedShape (isShaped : Bool) (lens : List ℕ) : DataShape × Bool :=
  match isShaped, lens with
  | true, [n] => (.wave n, false)
  | true, [n, m] => (.image n m, false)
  | true, _ => (.scalar, true)
  | false, _ => (.scalar, false)

/-- A byte that is there if a flag is set. -/
def readByteIf (flag : Bool) : Parser DataParseError ℕ := if flag then readU 1 else pure 0

/-- The end of the fields of a record: the method of compression, and the shape. -/
def readShape (scalarType : ScalarType) (typeFlags : ℕ) : Parser DataParseError RecordFields := do
  let compressionMethod ← readByteIf (isSet typeFlags compressionFlag)
  let shapeDim ← readByteIf (isSet typeFlags shapeFlag)
  let lens ← readDims shapeDim
  let stated := statedShape (isSet typeFlags shapeFlag) lens
  refuse (isSet typeFlags compressionFlag ∧ compressionMethod ≠ 0) (.failure .unknownCompression)
  return {
    scalarType := scalarType
    be := isSet typeFlags bigEndianFlag
    shape := stated.1
    oddShape := stated.2
    comp := if isSet typeFlags compressionFlag then some .bitshuffleLZ4 else none }

/-- The part of a record behind its times, up to the payload -/
def readFields (shape : DataShape) : Parser DataParseError RecordFields := do
  let _iocTs ← readI 8
  let _status ← readI 1
  let _severity ← readI 1
  let optional ← readI 4
  refuse (optional ≠ -1) (.failure .eventWithOptional)
  let typeFlags ← readU 1
  let typeIndex ← readU 1
  refuse (13 < typeIndex) (.failure .badTypeIndex)
  match ScalarType.fromDtypeIndex typeIndex with
  | none => throwErr (.failure .badTypeIndex)
  | some scalarType => do
      refuse (isWave shape ∧ ¬ isSet typeFlags arrayFlag) (.failure .waveShapeWithoutEventArray)
      readShape scalarType typeFlags

/-! ## The parser -/

/-- What is expected of a file: {lit}`fetch_info`, {lit}`range` and {lit}`stats_conf` -/
structure ChunkerConf where
  scalarType : ScalarType
  shape : DataShape
  range : NanoRange
  diskStatsEvery : ℕ
  deriving DecidableEq, Repr

/-- {lit}`DataFileState` -/
inductive DataFileState where
  | fileHeader
  | event
  deriving DecidableEq, Repr

/-- The fields of {lit}`EventChunker` that its parser works on. -/
structure ParserState where
  state : DataFileState
  needMin : ℕ
  lastTs : ℕ := 0
  seenBeforeRangeCount : ℕ := 0
  seenAfterRangeCount : ℕ := 0
  seenBeyondRange : Bool := false
  dataEmitComplete : Bool := false
  logItems : List LogItem := []
  deriving DecidableEq, Repr

/-- {lit}`LogItem::from_node`; of the text only what does not change. -/
def logItem (level : Level) (msg : String) : LogItem := ⟨"", level, msg⟩

/-- The outcome of one round of the parser.  A round that goes on takes bytes off the buffer; it may make an
event and log items. -/
inductive ParseStep where
  | brk (s : ParserState)
  | next (s : ParserState) (event : Option RawEvent) (logItems : List LogItem) (len : ℕ)
  | err (s : ParserState) (e : Err DataParseError)
  | panicked
  deriving DecidableEq, Repr

/-- The round of the parser at the header of a file -/
def headerStep (s : ParserState) (buf : List UInt8) : ParseStep :=
  if buf.length < 6 then .err s (.failure .fileHeaderTooShort)
  else if ofBe (slice buf 0 2) ≠ 0 then .err s (.failure .badVersionTag)
  else
    let len := signed 4 (ofBe (slice buf 2 6))
    if len ≤ 0 ∨ 512 ≤ len then .err s (.failure .headerTooLarge)
    else
      let totlen := len.toNat + 2
      if buf.length < totlen then .brk { s with needMin := totlen }
      -- the subtraction of 8
      else if len < 8 then .panicked
      else if len ≠ signed 4 (ofBe (slice buf (totlen - 4) totlen)) then .err s (.failure .dataFrameLengthMismatch)
      else .next { s with state := .event, needMin := 4 } none [] totlen

/-- What the parser notes of an event at or after the end of the range. -/
def noteAfter (range : NanoRange) (ts : ℕ) (s : ParserState) : ParserState :=
  if range.fin ≤ ts then
    { s with seenAfterRangeCount := s.seenAfterRangeCount + 1, seenBeyondRange := true }
  else s

/-- What the parser notes of an event before the range. -/
def noteBefore (range : NanoRange) (ts : ℕ) (s : ParserState) : ParserState :=
  if ts < range.beg then
    let items := if s.seenBeforeRangeCount + 1 < 20 then [logItem .info "seen before range"] else []
    { s with seenBeforeRangeCount := s.seenBeforeRangeCount + 1, logItems := s.logItems ++ items }
  else s

/-- The event that a record holds; its payload begins at {lit}`p1`. -/
def rawEvent (buf : List UInt8) (f : RecordFields) (p1 len : ℕ) : RawEvent where
  ts := UInt64.ofNat (ofBe (slice buf 12 20))
  pulse := UInt64.ofNat (ofBe (slice buf 20 28))
  blob := slice buf p1 (len - 4)
  scalarType := f.scalarType
  be := f.be
  shape := f.shape
  comp := f.comp

/-- The end of a round of the parser at a record: the event is kept, if it has the expected type and shape. -/
def pushEvent (c : ChunkerConf) (s : ParserState) (discard : Bool) (f : RecordFields) (ev : RawEvent) (len : ℕ) :
    ParseStep :=
  let items := if c.scalarType ≠ f.scalarType then [logItem .warn "scalar_type mismatch"] else []
  if discard ∨ f.oddShape ∨ c.scalarType ≠ f.scalarType then .next { s with needMin := 4 } none items len
  else
    match ev.shapeDerived c.scalarType c.shape with
    | .ok sh =>
        if sh ≠ c.shape then
          .next { s with needMin := 4 } none [logItem .warn "EventChunker  shape_derived mismatch"] len
        else .next { s with needMin := 4 } (some ev) [] len
    | .error .panicked => .panicked
    | .error _ => .next { s with needMin := 4 } none [logItem .warn "EventChunker  shape_derived error"] len

/-- The round of the parser at a record that the buffer holds -/
def recordStep (c : ChunkerConf) (s : ParserState) (buf : List UInt8) (len : ℕ) : ParseStep :=
  if buf.length < 28 then .panicked
  else
    let ts := ofBe (slice buf 12 20)
    let s1 := noteAfter c.range ts { s with lastTs := ts }
    if c.range.fin ≤ ts ∧ 2 ≤ s1.seenAfterRangeCount then .brk { s1 with dataEmitComplete := true }
    else
      let s2 := noteBefore c.range ts s1
      if ts < c.range.beg ∧ 100 < s2.seenBeforeRangeCount then .err s2 (.failure .tooManyBeforeRange)
      else
        match readFields c.shape (buf.drop 28) with
        | .error .panicked => .panicked
        | .error (.err e) => .err s2 e
        | .ok (f, rest) =>
            let p1 := buf.length - rest.length
            -- the length of the payload is found by a subtraction
            if len < p1 + 4 then .panicked
            else
              let discard := ts < s.lastTs || c.range.fin ≤ ts
              pushEvent c s2 discard f (rawEvent buf f p1 len) len

/-- The round of the parser at a record -/
def eventStep (c : ChunkerConf) (s : ParserState) (buf : List UInt8) : ParseStep :=
  if buf.length < 4 then .panicked
  else
    let len := signed 4 (ofBe (slice buf 0 4))
    if len < 20 then .err s (.failure .eventTooShort)
    else if maxEventLen c.shape < len then .err s (.failure (.eventTooLong c.shape len.toNat))
    else if buf.length % 2 ^ 32 < len.toNat then .brk { s with needMin := len.toNat }
    else recordStep c s buf len.toNat

/-- One round of {lit}`parse_buf_inner` -/
def parseStep (c : ChunkerConf) (s : ParserState) (buf : List UInt8) : ParseStep :=
  if buf.length % 2 ^ 32 < s.needMin then .brk s
  else
    match s.state with
    | .fileHeader => headerStep s buf
    | .event => eventStep c s buf

/-- {lit}`ParseResult`, with the log items -/
structure ParseResult where
  events : EventFull := []
  parsedBytes : ℕ := 0
  logItems : List LogItem := []
  deriving DecidableEq, Repr

/-- What {lit}`parse_buf_inner` ends with; the state comes with it, and what is left of the buffer. -/
inductive Parsed where
  | ok (s : ParserState) (ret : ParseResult) (buf : List UInt8)
  | err (s : ParserState) (e : Err DataParseError)
  | panicked
  deriving DecidableEq, Repr

/-- What a round adds to the result. -/
def ParseResult.add (ret : ParseResult) (event : Option RawEvent) (logItems : List LogItem) (len : ℕ) : ParseResult :=
  { events := ret.events ++ event.toList
    parsedBytes := ret.parsedBytes + len
    logItems := ret.logItems ++ logItems }

/-! ## One round -/

section Round

variable {c : ChunkerConf} {s s' : ParserState} {buf : List UInt8} {event : Option RawEvent} {items : List LogItem}
  {len : ℕ}

theorem headerStep_next (h : headerStep s buf = .next s' event items len) : 0 < len ∧ len ≤ buf.length := by
  unfold headerStep at h
  split at h
  · cases h
  split at h
  · cases h
  simp only at h
  split at h
  · cases h
  split at h
  · cases h
  rename_i hle
  split at h
  · cases h
  split at h
  · cases h
  cases h
  omega

theorem pushEvent_next {discard : Bool} {f : RecordFields} {ev : RawEvent} {n : ℕ}
    (h : pushEvent c s discard f ev n = .next s' event items len) :
    len = n ∧ s' = { s with needMin := 4 } ∧ (event = none ∨ event = some ev) := by
  unfold pushEvent at h
  simp only at h
  split at h
  · cases h
    exact ⟨rfl, rfl, .inl rfl⟩
  · cases hsh : ev.shapeDerived c.scalarType c.shape with
    | ok sh =>
        rw [hsh] at h
        simp only at h
        split at h
        · cases h
          exact ⟨rfl, rfl, .inl rfl⟩
        · cases h
          exact ⟨rfl, rfl, .inr rfl⟩
    | error e =>
        rw [hsh] at h
        cases e with
        | panicked => cases h
        | _ =>
            cases h
            exact ⟨rfl, rfl, .inl rfl⟩

theorem recordStep_next {n : ℕ} (h : recordStep c s buf n = .next s' event items len) : len = n := by
  unfold recordStep at h
  split at h
  · cases h
  simp only at h
  split at h
  · cases h
  split at h
  · cases h
  cases hf : readFields c.shape (buf.drop 28) with
  | error e =>
      rw [hf] at h
      cases e with
      | err e => cases h
      | panicked => cases h
  | ok x =>
      obtain ⟨f, rest⟩ := x
      rw [hf] at h
      simp only at h
      split at h
      · cases h
      · exact (pushEvent_next h).1

theorem eventStep_next (h : eventStep c s buf = .next s' event items len) : 0 < len ∧ len ≤ buf.length := by
  unfold eventStep at h
  split at h
  · cases h
  simp only at h
  split at h
  · cases h
  split at h
  · cases h
  split at h
  · cases h
  rename_i hlong _ hle
  have hlen := recordStep_next h
  have hmod := Nat.mod_le buf.length (2 ^ 32)
  omega

/-- A round that goes on takes bytes off the buffer. -/
theorem parseStep_next (h : parseStep c s buf = .next s' event items len) : 0 < len ∧ len ≤ buf.length := by
  unfold parseStep at h
  split at h
  · cases h
  cases hstate : s.state with
  | fileHeader =>
      rw [hstate] at h
      exact headerStep_next h
  | event =>
      rw [hstate] at h
      exact eventStep_next h

end Round

/-! ## The loop -/

/-- {lit}`parse_buf_inner`, with the result so far -/
def parseBufInner (c : ChunkerConf) (s : ParserState) (buf : List UInt8) (ret : ParseResult) : Parsed :=
  match _h : parseStep c s buf with
  | .brk s' => .ok s' ret buf
  | .err s' e => .err s' e
  | .panicked => .panicked
  | .next s' event items len => parseBufInner c s' (buf.drop len) (ret.add event items len)
termination_by buf.length
decreasing_by
  have hlen := parseStep_next _h
  rw [List.length_drop]
  omega

section Loop

variable {c : ChunkerConf} {s s' : ParserState} {buf buf' : List UInt8} {ret : ParseResult}

theorem parseBufInner_of_next {event : Option RawEvent} {items : List LogItem} {len : ℕ}
    (h : parseStep c s buf = .next s' event items len) :
    parseBufInner c s buf ret = parseBufInner c s' (buf.drop len) (ret.add event items len) := by
  rw [parseBufInner]
  split
  all_goals simp_all

theorem parseBufInner_of_brk (h : parseStep c s buf = .brk s') : parseBufInner c s buf ret = .ok s' ret buf := by
  rw [parseBufInner]
  split
  all_goals simp_all

theorem parseBufInner_of_panicked (h : parseStep c s buf = .panicked) : parseBufInner c s buf ret = .panicked := by
  rw [parseBufInner]
  split
  all_goals simp_all

/-- The states, with the bytes in front of them, that the loop comes to. -/
inductive Parses (c : ChunkerConf) : ParserState → List UInt8 → ParserState → List UInt8 → Prop
  | refl {s : ParserState} {buf : List UInt8} : Parses c s buf s buf
  | next {s s' t : ParserState} {buf buf' : List UInt8} {event : Option RawEvent} {items : List LogItem} {len : ℕ} :
      parseStep c s buf = .next s' event items len → Parses c s' (buf.drop len) t buf' → Parses c s buf t buf'

/-- The loop panics exactly where one of its rounds does. -/
theorem parseBufInner_eq_panicked :
    parseBufInner c s buf ret = .panicked ↔ ∃ t buf', Parses c s buf t buf' ∧ parseStep c t buf' = .panicked := by
  constructor
  · intro h
    fun_induction parseBufInner c s buf ret with
    | case1 s buf ret s' hstep => cases h
    | case2 s buf ret s' e hstep => cases h
    | case3 s buf ret hstep => exact ⟨s, buf, .refl, hstep⟩
    | case4 s buf ret s' event items len hstep ih =>
        obtain ⟨t, buf', hparses, ht⟩ := ih h
        exact ⟨t, buf', .next hstep hparses, ht⟩
  · rintro ⟨t, buf', hparses, ht⟩
    induction hparses generalizing ret with
    | refl => exact parseBufInner_of_panicked ht
    | next hstep _ ih => rw [parseBufInner_of_next hstep, ih ht]

end Loop

/-! ## The fields of a record -/

section Fields

/-- The number of bytes that tell the method of compression -/
def compLen (flags : ℕ) : ℕ := if isSet flags compressionFlag then 1 else 0

/-- The number of bytes that tell the number of dimensions -/
def dimLen (flags : ℕ) : ℕ := if isSet flags shapeFlag then 1 else 0

/-- The number of dimensions, which {lit}`bs` states behind the method of compression. -/
def dimCount (flags : ℕ) (bs : List UInt8) : ℕ :=
  if isSet flags shapeFlag then ofBe ((bs.drop (compLen flags)).take 1) else 0

/-- The number of bytes for compression and shape -/
def shapeEnd (flags : ℕ) (bs : List UInt8) : ℕ := compLen flags + dimLen flags + 4 * dimCount flags bs

/-- The method of compression that {lit}`bs` states. -/
def compMethod (flags : ℕ) (bs : List UInt8) : ℕ := if isSet flags compressionFlag then ofBe (bs.take 1) else 0

/-- The payload is compressed by a method that is not known. -/
def UnknownMethod (flags : ℕ) (bs : List UInt8) : Prop := isSet flags compressionFlag ∧ compMethod flags bs ≠ 0

instance (flags : ℕ) (bs : List UInt8) : Decidable (UnknownMethod flags bs) := inferInstanceAs (Decidable (_ ∧ _))

/-- What compression and shape are parsed to, from the lengths of the dimensions. -/
def shapeFields (scalarType : ScalarType) (flags : ℕ) (lens : List ℕ) : RecordFields where
  scalarType := scalarType
  be := isSet flags bigEndianFlag
  shape := (statedShape (isSet flags shapeFlag) lens).1
  oddShape := (statedShape (isSet flags shapeFlag) lens).2
  comp := if isSet flags compressionFlag then some .bitshuffleLZ4 else none

/-- The lengths of the dimensions that {lit}`bs` states. -/
def dimLens (flags : ℕ) (bs : List UInt8) : List ℕ :=
  fieldsAt 4 (dimCount flags bs) (bs.drop (compLen flags + dimLen flags))

theorem readDims_apply (dim : ℕ) (bs : List UInt8) :
    readDims dim bs =
      if bs.length < 4 * dim ∨ 4 < dim then .error .panicked else .ok (fieldsAt 4 dim bs, bs.drop (4 * dim)) := by
  rw [readDims, bind_apply, times_readU]
  by_cases hlt : bs.length < 4 * dim
  · rw [if_pos hlt, if_pos (.inl hlt)]
    rfl
  · rw [if_neg hlt, Except.bind, panicIf_bind]
    by_cases hdim : 4 < dim
    · rw [if_pos hdim, if_pos (.inr hdim)]
    · rw [if_neg hdim, if_neg (not_or.mpr ⟨hlt, hdim⟩)]
      rfl

theorem readByteIf_bind {α : Type} (flag : Bool) (f : ℕ → Parser DataParseError α) (bs : List UInt8) :
    (readByteIf flag >>= f) bs =
      if bs.length < (if flag then 1 else 0) then .error .panicked
      else f (if flag then ofBe (bs.take 1) else 0) (bs.drop (if flag then 1 else 0)) := by
  cases flag with
  | true => exact readU_bind 1 f
  | false => rfl

/-- What follows the flags, where the bytes of the method and of the number of dimensions are there. -/
theorem readShape_dims (t : ScalarType) (flags : ℕ) (bs : List UInt8)
    (hlen : compLen flags + dimLen flags ≤ bs.length) :
    readShape t flags bs =
      (readDims (dimCount flags bs) >>= fun lens =>
        refuse (UnknownMethod flags bs) (.failure .unknownCompression) >>= fun _ =>
          pure (shapeFields t flags lens)) (bs.drop (compLen flags + dimLen flags)) := by
  unfold compLen dimLen at hlen
  rw [readShape, readByteIf_bind, if_neg (by omega), readByteIf_bind, List.length_drop, if_neg (by omega),
    List.drop_drop]
  rfl

/-- Without the bytes of the method and of the number of dimensions, reading them panics. -/
theorem readShape_short (t : ScalarType) (flags : ℕ) (bs : List UInt8)
    (hlen : bs.length < compLen flags + dimLen flags) : readShape t flags bs = .error .panicked := by
  unfold compLen dimLen at hlen
  rw [readShape, readByteIf_bind]
  by_cases hone : bs.length < if isSet flags compressionFlag then 1 else 0
  · rw [if_pos hone]
  · rw [if_neg hone, readByteIf_bind, List.length_drop, if_pos (by omega)]

theorem readShape_apply (t : ScalarType) (flags : ℕ) (bs : List UInt8) :
    readShape t flags bs =
      if bs.length < shapeEnd flags bs ∨ 4 < dimCount flags bs then .error .panicked
      else if UnknownMethod flags bs then .error (.err (.failure .unknownCompression))
      else .ok (shapeFields t flags (dimLens flags bs), bs.drop (shapeEnd flags bs)) := by
  by_cases hlen : bs.length < compLen flags + dimLen flags
  · rw [readShape_short t flags bs hlen, if_pos (.inl (by unfold shapeEnd; omega))]
  · have hcond : ((bs.drop (compLen flags + dimLen flags)).length < 4 * dimCount flags bs ∨ 4 < dimCount flags bs) ↔
        (bs.length < shapeEnd flags bs ∨ 4 < dimCount flags bs) := by
      rw [List.length_drop]
      unfold shapeEnd
      omega
    rw [readShape_dims t flags bs (not_lt.mp hlen), bind_apply, readDims_apply]
    simp only [hcond]
    by_cases hbad : bs.length < shapeEnd flags bs ∨ 4 < dimCount flags bs
    · rw [if_pos hbad, if_pos hbad]
      rfl
    · rw [if_neg hbad, if_neg hbad, Except.bind, refuse_bind, List.drop_drop]
      rfl

/-- The flags of the type of a record; {lit}`bs` are the bytes behind its times. -/
def typeFlags (bs : List UInt8) : ℕ := ofBe ((bs.drop 14).take 1)

/-- The index of the type of a record -/
def typeIndex (bs : List UInt8) : ℕ := ofBe ((bs.drop 15).take 1)

/-- The field that is not supported -/
def optionalField (bs : List UInt8) : ℤ := signed 4 (ofBe ((bs.drop 10).take 4))

/-- The length of the fields of a record behind its times -/
def fieldsEnd (bs : List UInt8) : ℕ := 16 + shapeEnd (typeFlags bs) (bs.drop 16)

/-- What the fields of a record behind its times are parsed to. -/
theorem readFields_apply (shape : DataShape) (bs : List UInt8) :
    readFields shape bs =
      if bs.length < 14 then .error .panicked
      else if optionalField bs ≠ -1 then .error (.err (.failure .eventWithOptional))
      else if bs.length < 16 then .error .panicked
      else if 13 < typeIndex bs then .error (.err (.failure .badTypeIndex))
      else
        match ScalarType.fromDtypeIndex (typeIndex bs) with
        | none => .error (.err (.failure .badTypeIndex))
        | some t =>
            if isWave shape ∧ ¬ isSet (typeFlags bs) arrayFlag then
              .error (.err (.failure .waveShapeWithoutEventArray))
            else readShape t (typeFlags bs) (bs.drop 16) := by
  unfold readFields typeIndex typeFlags optionalField
  simp only [readI_bind, readU_bind, refuse_bind, List.length_drop, List.drop_drop]
  by_cases h14 : bs.length < 14
  · rw [if_pos h14]
    split_ifs
    all_goals first | rfl | omega
  · rw [if_neg (by omega), if_neg (by omega), if_neg (by omega), if_neg (by omega), if_neg h14]
    by_cases hoptional : signed 4 (ofBe ((bs.drop 10).take 4)) ≠ -1
    · rw [if_pos hoptional, if_pos hoptional]
    rw [if_neg hoptional, if_neg hoptional]
    by_cases h16 : bs.length < 16
    · rw [if_pos h16]
      split_ifs
      all_goals first | rfl | omega
    · rw [if_neg (by omega), if_neg (by omega), if_neg h16]
      by_cases hindex : 13 < ofBe ((bs.drop 15).take 1)
      · rw [if_pos hindex, if_pos hindex]
      · rw [if_neg hindex, if_neg hindex]
        cases ScalarType.fromDtypeIndex (ofBe ((bs.drop 15).take 1)) with
        | none => rfl
        | some t => exact refuse_bind (isWave shape ∧ ¬ isSet (ofBe ((bs.drop 14).take 1)) arrayFlag) _ _

/-- The fields of a record are ones that the parser accepts, apart from the method of compression. -/
def Accepted (shape : DataShape) (bs : List UInt8) : Prop :=
  optionalField bs = -1 ∧ typeIndex bs ≤ 13 ∧ (ScalarType.fromDtypeIndex (typeIndex bs)).isSome ∧
    (isWave shape → isSet (typeFlags bs) arrayFlag)

/-- The fields of a record can be read: there are bytes for those that the parser comes to, and there are at most
four dimensions. -/
def FieldsSound (shape : DataShape) (bs : List UInt8) : Prop :=
  14 ≤ bs.length ∧ (optionalField bs = -1 → 16 ≤ bs.length) ∧
    (Accepted shape bs → fieldsEnd bs ≤ bs.length ∧ dimCount (typeFlags bs) (bs.drop 16) ≤ 4)

/-- The fields of a record of which the type is known -/
def recordFields (t : ScalarType) (bs : List UInt8) : RecordFields :=
  shapeFields t (typeFlags bs) (dimLens (typeFlags bs) (bs.drop 16))

variable {shape : DataShape} {bs : List UInt8}

theorem readFields_eq_panicked : readFields shape bs = .error .panicked ↔ ¬ FieldsSound shape bs := by
  rw [readFields_apply]
  unfold FieldsSound Accepted
  by_cases h14 : bs.length < 14
  · rw [if_pos h14]
    exact iff_of_true rfl fun h => by omega
  rw [if_neg h14]
  by_cases hoptional : optionalField bs ≠ -1
  · rw [if_pos hoptional]
    exact iff_of_false nofun (not_not.mpr ⟨not_lt.mp h14, fun h => absurd h hoptional, fun h => absurd h.1 hoptional⟩)
  rw [if_neg hoptional]
  rw [not_not] at hoptional
  by_cases h16 : bs.length < 16
  · rw [if_pos h16]
    exact iff_of_true rfl fun h => by have := h.2.1 hoptional; omega
  rw [if_neg h16]
  by_cases hindex : 13 < typeIndex bs
  · rw [if_pos hindex]
    exact iff_of_false nofun (not_not.mpr ⟨not_lt.mp h14, fun _ => not_lt.mp h16, fun h => by have := h.2.1; omega⟩)
  rw [if_neg hindex]
  cases ht : ScalarType.fromDtypeIndex (typeIndex bs) with
  | none =>
      exact iff_of_false nofun
        (not_not.mpr ⟨not_lt.mp h14, fun _ => not_lt.mp h16, fun h => absurd h.2.2.1 nofun⟩)
  | some t =>
      simp only
      by_cases hwave : isWave shape ∧ ¬ isSet (typeFlags bs) arrayFlag
      · rw [if_pos hwave]
        exact iff_of_false nofun
          (not_not.mpr ⟨not_lt.mp h14, fun _ => not_lt.mp h16, fun h => absurd (h.2.2.2 hwave.1) hwave.2⟩)
      · rw [if_neg hwave, readShape_apply, List.length_drop]
        have haccepted : optionalField bs = -1 ∧ typeIndex bs ≤ 13 ∧ (some t).isSome ∧
            (isWave shape → isSet (typeFlags bs) arrayFlag) :=
          ⟨hoptional, not_lt.mp hindex, rfl, fun h => not_not.mp fun hnot => hwave ⟨h, hnot⟩⟩
        by_cases hbad : bs.length - 16 < shapeEnd (typeFlags bs) (bs.drop 16) ∨
            4 < dimCount (typeFlags bs) (bs.drop 16)
        · rw [if_pos hbad]
          refine iff_of_true rfl fun h => ?_
          have hsound := h.2.2 haccepted
          unfold fieldsEnd at hsound
          omega
        · rw [if_neg hbad]
          apply iff_of_false
          · split_ifs
            · nofun
            · nofun
          · rw [not_not]
            refine ⟨not_lt.mp h14, fun _ => not_lt.mp h16, fun _ => ?_⟩
            unfold fieldsEnd
            omega

/-- What is parsed from fields that can be read. -/
theorem readFields_eq_ok (hsound : FieldsSound shape bs) {f : RecordFields} {rest : List UInt8} :
    readFields shape bs = .ok (f, rest) ↔
      Accepted shape bs ∧ ¬ UnknownMethod (typeFlags bs) (bs.drop 16) ∧ rest = bs.drop (fieldsEnd bs) ∧
        ∃ t, ScalarType.fromDtypeIndex (typeIndex bs) = some t ∧ f = recordFields t bs := by
  obtain ⟨h14, h16, hend⟩ := hsound
  rw [readFields_apply, if_neg (not_lt.mpr h14)]
  constructor
  · intro h
    cases ht : ScalarType.fromDtypeIndex (typeIndex bs) with
    | none =>
        rw [ht] at h
        split_ifs at h
    | some t =>
        rw [ht] at h
        simp only at h
        split_ifs at h with hoptional hlt hindex hwave
        have haccepted : Accepted shape bs :=
          ⟨not_not.mp hoptional, not_lt.mp hindex, ht ▸ rfl, fun hw => not_not.mp fun hnot => hwave ⟨hw, hnot⟩⟩
        rw [readShape_apply] at h
        split_ifs at h with hbad hmethod
        cases h
        exact ⟨haccepted, hmethod, List.drop_drop.trans rfl, t, rfl, rfl⟩
  · rintro ⟨haccepted, hmethod, rfl, t, ht, rfl⟩
    obtain ⟨hle, hdim⟩ := hend haccepted
    obtain ⟨hoptional, hindex, -, hwave⟩ := haccepted
    have hfits : ¬ ((bs.drop 16).length < shapeEnd (typeFlags bs) (bs.drop 16) ∨
        4 < dimCount (typeFlags bs) (bs.drop 16)) := by
      rw [List.length_drop]
      unfold fieldsEnd at hle
      omega
    rw [if_neg (not_not.mpr hoptional), if_neg (not_lt.mpr (h16 hoptional)), if_neg (not_lt.mpr hindex), ht]
    simp only
    rw [if_neg (fun h => h.2 (hwave h.1)), readShape_apply, if_neg hfits, if_neg hmethod, List.drop_drop]
    rfl

end Fields

/-! ## Sound bytes -/

/-- The parser leaves a record at its timestamp: at the second event after the range, or after too many events
before the range. -/
def LeavesAt (range : NanoRange) (s : ParserState) (ts : ℕ) : Prop :=
  (range.fin ≤ ts ∧ 1 ≤ s.seenAfterRangeCount) ∨ (ts < range.beg ∧ 100 ≤ s.seenBeforeRangeCount)

/-- The event of a record is not kept: it is out of order or after the range, or it has an odd shape or another
type. -/
def Discarded (c : ChunkerConf) (s : ParserState) (ts : ℕ) (f : RecordFields) : Prop :=
  ts < s.lastTs ∨ c.range.fin ≤ ts ∨ f.oddShape ∨ c.scalarType ≠ f.scalarType

/-- A record is sound: the buffer reaches as far as the parser reads, there are at most four dimensions, what is
read lies in the record, and the shape can be derived where it is. -/
def RecordSound (c : ChunkerConf) (s : ParserState) (buf : List UInt8) (len : ℕ) : Prop :=
  28 ≤ buf.length ∧ (¬ LeavesAt c.range s (ofBe (slice buf 12 20)) →
    FieldsSound c.shape (buf.drop 28) ∧
      ∀ t, ScalarType.fromDtypeIndex (typeIndex (buf.drop 28)) = some t →
        Accepted c.shape (buf.drop 28) → ¬ UnknownMethod (typeFlags (buf.drop 28)) (buf.drop (28 + 16)) →
          28 + fieldsEnd (buf.drop 28) + 4 ≤ len ∧
            (¬ Discarded c s (ofBe (slice buf 12 20)) (recordFields t (buf.drop 28)) →
              (rawEvent buf (recordFields t (buf.drop 28)) (28 + fieldsEnd (buf.drop 28)) len).PayloadSound c.shape))

/-- The length that a record states -/
def statedLen (buf : List UInt8) : ℤ := signed 4 (ofBe (slice buf 0 4))

/-- The length that the header of a file states -/
def headerLen (buf : List UInt8) : ℤ := signed 4 (ofBe (slice buf 2 6))

/-- The bytes are sound where the parser works on them: a header of a file that the buffer holds has a length of at
least 8, and a record that the buffer holds and that has an accepted length is sound. -/
def Sound (c : ChunkerConf) (s : ParserState) (buf : List UInt8) : Prop :=
  s.needMin ≤ buf.length % 2 ^ 32 →
    match s.state with
    | .fileHeader =>
        6 ≤ buf.length → ofBe (slice buf 0 2) = 0 → 0 < headerLen buf → headerLen buf < 512 →
          (headerLen buf).toNat + 2 ≤ buf.length → 8 ≤ headerLen buf
    | .event =>
        4 ≤ buf.length ∧ (20 ≤ statedLen buf → statedLen buf ≤ maxEventLen c.shape →
          (statedLen buf).toNat ≤ buf.length % 2 ^ 32 → RecordSound c s buf (statedLen buf).toNat)

section Sound

variable {c : ChunkerConf} {s : ParserState} {buf : List UInt8} {len : ℕ}

theorem noteAfter_seenAfter {range : NanoRange} {ts : ℕ} (hafter : range.fin ≤ ts) :
    (noteAfter range ts s).seenAfterRangeCount = s.seenAfterRangeCount + 1 := by
  rw [noteAfter, if_pos hafter]

theorem noteAfter_seenBefore (range : NanoRange) (ts : ℕ) :
    (noteAfter range ts s).seenBeforeRangeCount = s.seenBeforeRangeCount := by
  unfold noteAfter
  split
  · rfl
  · rfl

theorem noteBefore_seenBefore {range : NanoRange} {ts : ℕ} (hbefore : ts < range.beg) :
    (noteBefore range ts s).seenBeforeRangeCount = s.seenBeforeRangeCount + 1 := by
  rw [noteBefore, if_pos hbefore]

theorem pushEvent_eq_panicked {s' : ParserState} {discard : Bool} {f : RecordFields} {ev : RawEvent} :
    pushEvent c s' discard f ev len = .panicked ↔
      ¬ (discard ∨ f.oddShape ∨ c.scalarType ≠ f.scalarType) ∧ ¬ ev.PayloadSound c.shape := by
  rw [← RawEvent.shapeDerived_eq_panicked (t := c.scalarType)]
  unfold pushEvent
  simp only
  split
  · rename_i hdiscard
    exact iff_of_false nofun fun h => h.1 hdiscard
  · rename_i hkeep
    rw [and_iff_right hkeep]
    cases hsh : ev.shapeDerived c.scalarType c.shape with
    | ok sh =>
        apply iff_of_false _ nofun
        simp only
        split_ifs
        · nofun
        · nofun
    | error e =>
        cases e with
        | panicked => exact iff_of_true rfl rfl
        | _ => exact iff_of_false nofun nofun

theorem leavesAt_iff {range : NanoRange} {ts : ℕ} {s1 : ParserState}
    (hs1 : s1 = noteAfter range ts { s with lastTs := ts }) :
    LeavesAt range s ts ↔ (range.fin ≤ ts ∧ 2 ≤ s1.seenAfterRangeCount) ∨
      (ts < range.beg ∧ 100 < (noteBefore range ts s1).seenBeforeRangeCount) := by
  subst hs1
  apply or_congr
  · apply and_congr_right
    intro hafter
    rw [noteAfter_seenAfter hafter]
    exact Nat.succ_le_succ_iff.symm
  · apply and_congr_right
    intro hbefore
    rw [noteBefore_seenBefore hbefore, noteAfter_seenBefore]
    exact Nat.lt_succ_iff.symm

theorem length_sub_drop {n : ℕ} (hle : n ≤ buf.length) : buf.length - (buf.drop n).length = n := by
  rw [List.length_drop]
  omega

/-- The round at a record that the buffer holds panics exactly if the record is not sound. -/
theorem recordStep_eq_panicked : recordStep c s buf len = .panicked ↔ ¬ RecordSound c s buf len := by
  unfold recordStep RecordSound
  by_cases h28 : buf.length < 28
  · rw [if_pos h28]
    exact iff_of_true rfl fun h => absurd h.1 (not_le.mpr h28)
  rw [if_neg h28, and_iff_right (not_lt.mp h28)]
  simp only
  generalize hs1 : noteAfter c.range (ofBe (slice buf 12 20)) { s with lastTs := ofBe (slice buf 12 20) } = s1
  have hleaves := leavesAt_iff hs1.symm
  by_cases hafter : c.range.fin ≤ ofBe (slice buf 12 20) ∧ 2 ≤ s1.seenAfterRangeCount
  · rw [if_pos hafter]
    exact iff_of_false nofun (not_not.mpr fun h => absurd (hleaves.mpr (.inl hafter)) h)
  rw [if_neg hafter]
  by_cases hbefore : ofBe (slice buf 12 20) < c.range.beg ∧
      100 < (noteBefore c.range (ofBe (slice buf 12 20)) s1).seenBeforeRangeCount
  · rw [if_pos hbefore]
    exact iff_of_false nofun (not_not.mpr fun h => absurd (hleaves.mpr (.inr hbefore)) h)
  rw [if_neg hbefore]
  have hstays : ¬ LeavesAt c.range s (ofBe (slice buf 12 20)) :=
    fun h => (hleaves.mp h).elim hafter hbefore
  rw [forall_prop_of_true hstays]
  by_cases hsound : FieldsSound c.shape (buf.drop 28)
  · rw [and_iff_right hsound]
    cases hf : readFields c.shape (buf.drop 28) with
    | error e =>
        cases e with
        | panicked => exact absurd hsound (readFields_eq_panicked.mp hf)
        | err e =>
            apply iff_of_false nofun
            rw [not_not]
            intro t ht haccepted hmethod
            rw [← List.drop_drop] at hmethod
            have hok := (readFields_eq_ok hsound).mpr ⟨haccepted, hmethod, rfl, t, ht, rfl⟩
            rw [hf] at hok
            cases hok
    | ok x =>
        obtain ⟨f, rest⟩ := x
        obtain ⟨haccepted, hmethod, rfl, t, ht, rfl⟩ := (readFields_eq_ok hsound).mp hf
        have hend : fieldsEnd (buf.drop 28) ≤ buf.length - 28 := by
          have hle := (hsound.2.2 haccepted).1
          rwa [List.length_drop] at hle
        rw [List.drop_drop] at hmethod
        simp only
        rw [List.drop_drop, length_sub_drop (by omega)]
        by_cases hlen : len < 28 + fieldsEnd (buf.drop 28) + 4
        · rw [if_pos hlen]
          exact iff_of_true rfl fun h => absurd (h t ht haccepted hmethod).1 (not_le.mpr hlen)
        · rw [if_neg hlen, pushEvent_eq_panicked]
          constructor
          · rintro ⟨hkeep, hpayload⟩ h
            refine hpayload ((h t ht haccepted hmethod).2 fun hd => hkeep ?_)
            rcases hd with hd | hd | hd
            · exact .inl (by simp [hd])
            · exact .inl (by simp [hd])
            · exact .inr hd
          · intro h
            by_contra hnot
            refine h fun t' ht' _ _ => ⟨not_lt.mp hlen, fun hd => ?_⟩
            rw [ht] at ht'
            cases ht'
            by_contra hpayload
            refine hnot ⟨fun hdiscard => hd ?_, hpayload⟩
            rcases hdiscard with hdiscard | hdiscard
            · rw [Bool.or_eq_true, decide_eq_true_iff, decide_eq_true_iff] at hdiscard
              exact hdiscard.elim .inl fun h => .inr (.inl h)
            · exact .inr (.inr hdiscard)
  · rw [readFields_eq_panicked.mpr hsound]
    exact iff_of_true rfl fun h => hsound h.1

theorem headerStep_eq_panicked :
    headerStep s buf = .panicked ↔
      ¬ (6 ≤ buf.length → ofBe (slice buf 0 2) = 0 → 0 < headerLen buf → headerLen buf < 512 →
          (headerLen buf).toNat + 2 ≤ buf.length → 8 ≤ headerLen buf) := by
  unfold headerStep headerLen
  simp only
  generalize signed 4 (ofBe (slice buf 2 6)) = len1
  split_ifs with h6 hver hlen htot h8 hmismatch
  · exact iff_of_false nofun (not_not.mpr fun h => absurd h (not_le.mpr h6))
  · exact iff_of_false nofun (not_not.mpr fun _ h => absurd h hver)
  · exact iff_of_false nofun (not_not.mpr fun _ _ _ _ => by omega)
  · exact iff_of_false nofun (not_not.mpr fun _ _ _ _ h => absurd htot (not_lt.mpr h))
  · exact iff_of_true rfl fun h =>
      absurd (h (by omega) (not_not.mp hver) (by omega) (by omega) (not_lt.mp htot)) (not_le.mpr h8)
  · exact iff_of_false nofun (not_not.mpr fun _ _ _ _ _ => not_lt.mp h8)
  · exact iff_of_false nofun (not_not.mpr fun _ _ _ _ _ => not_lt.mp h8)

theorem eventStep_eq_panicked :
    eventStep c s buf = .panicked ↔
      ¬ (4 ≤ buf.length ∧ (20 ≤ statedLen buf → statedLen buf ≤ maxEventLen c.shape →
          (statedLen buf).toNat ≤ buf.length % 2 ^ 32 → RecordSound c s buf (statedLen buf).toNat)) := by
  unfold eventStep statedLen
  simp only
  generalize signed 4 (ofBe (slice buf 0 4)) = len1
  split_ifs with h4 hshort hlong hpart
  · exact iff_of_true rfl fun h => absurd h.1 (not_le.mpr h4)
  · exact iff_of_false nofun (not_not.mpr ⟨not_lt.mp h4, fun h => absurd hshort (not_lt.mpr h)⟩)
  · exact iff_of_false nofun (not_not.mpr ⟨not_lt.mp h4, fun _ h => absurd hlong (not_lt.mpr h)⟩)
  · exact iff_of_false nofun (not_not.mpr ⟨not_lt.mp h4, fun _ _ h => absurd hpart (not_lt.mpr h)⟩)
  · rw [recordStep_eq_panicked, and_iff_right (not_lt.mp h4), forall_prop_of_true (not_lt.mp hshort),
      forall_prop_of_true (not_lt.mp hlong), forall_prop_of_true (not_lt.mp hpart)]

/-- A round of the parser panics exactly if the bytes are not sound. -/
theorem parseStep_eq_panicked : parseStep c s buf = .panicked ↔ ¬ Sound c s buf := by
  unfold parseStep Sound
  by_cases hwait : buf.length % 2 ^ 32 < s.needMin
  · rw [if_pos hwait]
    exact iff_of_false nofun (not_not.mpr fun h => absurd hwait (not_lt.mpr h))
  · rw [if_neg hwait, forall_prop_of_true (not_lt.mp hwait)]
    cases s.state with
    | fileHeader => exact headerStep_eq_panicked
    | event => exact eventStep_eq_panicked

end Sound

/-! ## The stream -/

/-- {lit}`EventChunker`; its parser's fields are kept together. -/
structure EventChunker where
  inp : NeedMinBuffer
  conf : ChunkerConf
  parser : ParserState
  errored : Bool := false
  completed : Bool := false
  sentBeyondRange : Bool := false
  finalStatsSent : Bool := false
  parsedBytes : ℕ := 0
  deriving DecidableEq

namespace EventChunker

/-- {lit}`from_start` -/
def fromStart (inp : Script (Except SitemErr (List UInt8))) (conf : ChunkerConf) : EventChunker where
  inp := { inp := inp, needMin := 6 }
  conf := conf
  parser := { state := .fileHeader, needMin := 6 }

/-- {lit}`from_event_boundary` -/
def fromEventBoundary (inp : Script (Except SitemErr (List UInt8))) (conf : ChunkerConf) : EventChunker where
  inp := { inp := inp, needMin := 4 }
  conf := conf
  parser := { state := .event, needMin := 4 }

/-- The text of the error of {lit}`parse_buf` -/
def parseErr : Err DataParseError → SitemErr
  | .failure e | .error e => e.toSitemErr
  | .incomplete _ => .fromString ""

/-- The branch of {lit}`poll_next` that parses a chunk -/
def handleChunk (c : EventChunker) (buf : List UInt8) : Pass EventChunker (Sitemty EventFull) :=
  match parseBufInner c.conf c.parser buf {} with
  | .ok s ret rest =>
      let s := { s with logItems := s.logItems ++ ret.logItems }
      let inp := if rest ≠ [] then c.inp.putBack rest else c.inp
      let parsedBytes := c.parsedBytes + ret.parsedBytes
      if needMinMax c.conf.shape < s.needMin then
        .item (sitemErrFromString
            s!"spurious EventChunker asks for need_min {s.needMin}  max {needMinMax c.conf.shape}")
          { c with inp := inp, parser := s, parsedBytes := parsedBytes, errored := true }
      else
        .item (sitemData ret.events)
          { c with inp := inp.setNeedMin s.needMin, parser := s, parsedBytes := parsedBytes }
  | .err s e => .item (.error (parseErr e)) { c with parser := s, errored := true }
  | .panicked => .panic

/-- The branch of {lit}`poll_next` that polls the input.  Where the loop of the buffer goes round, that of the
chunker does, which finds nothing else to do in between. -/
def pollInp (c : EventChunker) : Pass EventChunker (Sitemty EventFull) :=
  match c.inp.pollNext with
  | .item (.ok buf) inp => { c with inp := inp }.handleChunk buf
  | .item (.error e) inp => .item (.error e) { c with inp := inp, errored := true }
  | .done inp => .again { c with inp := inp, parser := { c.parser with dataEmitComplete := true } }
  | .pending inp => .pending { c with inp := inp }
  | .again inp => .again { c with inp := inp }
  | .panic => .panic

/-- One pass of {lit}`poll_next`. -/
def pollNext (c : EventChunker) : Pass EventChunker (Sitemty EventFull) :=
  if c.completed then .panic
  else
    match c.parser.logItems with
    | item :: rest => .item (.ok (.log item)) { c with parser := { c.parser with logItems := rest } }
    | [] =>
      if c.errored then .done { c with completed := true }
      else if c.conf.diskStatsEvery ≤ c.parsedBytes then
        .item (.ok (.stats (.eventDataReadStats c.parsedBytes))) { c with parsedBytes := 0 }
      else if c.sentBeyondRange then .done { c with completed := true }
      else if c.finalStatsSent then
        if c.parser.seenBeyondRange then .item sitemRangeComplete { c with sentBeyondRange := true }
        else .again { c with sentBeyondRange := true }
      else if c.parser.dataEmitComplete then
        .item (.ok (.stats (.eventDataReadStats c.parsedBytes))) { c with parsedBytes := 0, finalStatsSent := true }
      else c.pollInp

/-! ## Runs -/

/-- The start at the beginning of a file or at the boundary of an event. -/
def start (state : DataFileState) (inp : Script (Except SitemErr (List UInt8))) (conf : ChunkerConf) : EventChunker :=
  match state with
  | .fileHeader => fromStart inp conf
  | .event => fromEventBoundary inp conf

/-- The next pass polls the input. -/
def Polls (c : EventChunker) : Prop :=
  c.completed = false ∧ c.parser.logItems = [] ∧ c.errored = false ∧ c.parsedBytes < c.conf.diskStatsEvery ∧
    c.sentBeyondRange = false ∧ c.finalStatsSent = false ∧ c.parser.dataEmitComplete = false

/-- The next pass parses these bytes. -/
def Takes (c : EventChunker) (buf : List UInt8) : Prop := c.Polls ∧ ∃ inp, c.inp.pollNext = .item (.ok buf) inp

/-- The parser comes, in some run, to these bytes in this state. -/
def Visits (c : EventChunker) (s : ParserState) (buf : List UInt8) : Prop :=
  ∃ xs t chunk, Reaches pollNext c xs t ∧ t.Takes chunk ∧ Parses c.conf t.parser chunk s buf

/-- What keeps the stream from polling behind its end, or that of the buffer. -/
structure Alive (conf : ChunkerConf) (c : EventChunker) : Prop where
  running : c.completed = false
  inpRunning : c.inp.completed = false
  inpErrored : c.inp.errored → c.errored
  conf : c.conf = conf

variable {c : EventChunker} {conf : ChunkerConf}

theorem pollNext_of_polls (h : c.Polls) : c.pollNext = c.pollInp := by
  obtain ⟨h1, h2, h3, h4, h5, h6, h7⟩ := h
  rw [pollNext, h1, h2, h3, h5, h6, h7, if_neg nofun]
  simp only
  rw [if_neg nofun, if_neg (not_le.mpr h4), if_neg nofun, if_neg nofun, if_neg nofun]

variable {ys : List (Sitemty EventFull)}

/-- Parsing a chunk panics exactly where the loop of the parser does. -/
theorem handleChunk_eq_panic {buf : List UInt8} :
    c.handleChunk buf = .panic ↔ parseBufInner c.conf c.parser buf {} = .panicked := by
  unfold handleChunk
  cases parseBufInner c.conf c.parser buf {} with
  | ok s ret rest =>
      apply iff_of_false _ nofun
      simp only
      split_ifs
      all_goals nofun
  | err s e => exact iff_of_false nofun nofun
  | panicked => exact iff_of_true rfl rfl

theorem alive_handleChunk (halive : Alive conf c) (herrored : c.inp.errored = false) (buf : List UInt8) :
    c.handleChunk buf = .panic ∨ (c.handleChunk buf).Ensures ys fun _ t => Alive conf t := by
  obtain ⟨hrunning, hinp, -, hconf⟩ := halive
  unfold handleChunk
  cases parseBufInner c.conf c.parser buf {} with
  | ok s ret rest =>
      have hput : ∀ b : NeedMinBuffer, b = (if rest ≠ [] then c.inp.putBack rest else c.inp) →
          b.completed = false ∧ b.errored = false := by
        rintro b rfl
        split_ifs
        · exact ⟨hinp, herrored⟩
        · exact ⟨hinp, herrored⟩
      obtain ⟨hcompleted, herr⟩ := hput _ rfl
      right
      simp only
      split
      · exact ⟨hrunning, hcompleted, fun _ => rfl, hconf⟩
      · exact ⟨hrunning, hcompleted, fun h => absurd (herr.symm.trans h) nofun, hconf⟩
  | err s e => exact .inr ⟨hrunning, hinp, fun _ => rfl, hconf⟩
  | panicked => exact .inl rfl

/-- What polling the buffer leaves of it. -/
theorem inp_pollNext {b : NeedMinBuffer} (hcompleted : b.completed = false) (herrored : b.errored = false) :
    match b.pollNext with
    | .item (.ok _) t | .again t | .pending t | .done t => t.completed = false ∧ t.errored = false
    | .item (.error _) t => t.completed = false
    | .panic => False := by
  unfold NeedMinBuffer.pollNext
  rw [if_neg (Bool.eq_false_iff.mp hcompleted), if_neg (Bool.eq_false_iff.mp herrored)]
  cases b.inp with
  | nil => exact ⟨hcompleted, herrored⟩
  | cons a rest =>
      cases a with
      | pending => exact ⟨hcompleted, herrored⟩
      | ready x =>
          cases x with
          | error e => exact hcompleted
          | ok fcr =>
              simp only
              split_ifs
              · exact ⟨hcompleted, herrored⟩
              · exact ⟨hcompleted, herrored⟩

/-- Polling the input leaves the stream alive, or a chunk makes the parser panic. -/
theorem alive_pollInp (halive : Alive conf c) (herrored : c.errored = false) :
    (c.pollInp = .panic ∧ ∃ buf inp, c.inp.pollNext = .item (.ok buf) inp ∧
        parseBufInner c.conf c.parser buf {} = .panicked) ∨
      c.pollInp.Ensures ys fun _ t => Alive conf t := by
  have hinperr : c.inp.errored = false := by
    cases h : c.inp.errored with
    | false => rfl
    | true => exact absurd (herrored.symm.trans (halive.inpErrored h)) nofun
  have hinp := inp_pollNext halive.inpRunning hinperr
  unfold pollInp
  cases hpoll : c.inp.pollNext with
  | item x inp =>
      rw [hpoll] at hinp
      cases x with
      | ok buf =>
          have halive' : Alive conf { c with inp := inp } :=
            ⟨halive.running, hinp.1, fun h => absurd (hinp.2.symm.trans h) nofun, halive.conf⟩
          rcases alive_handleChunk halive' hinp.2 buf with h | h
          · have hparse := handleChunk_eq_panic.mp h
            exact .inl ⟨h, buf, inp, rfl, hparse⟩
          · exact .inr h
      | error e => exact .inr ⟨halive.running, hinp, fun _ => rfl, halive.conf⟩
  | done inp =>
      rw [hpoll] at hinp
      exact .inr ⟨halive.running, hinp.1, fun h => absurd (hinp.2.symm.trans h) nofun, halive.conf⟩
  | pending inp =>
      rw [hpoll] at hinp
      exact .inr ⟨halive.running, hinp.1, fun h => absurd (hinp.2.symm.trans h) nofun, halive.conf⟩
  | again inp =>
      rw [hpoll] at hinp
      exact .inr ⟨halive.running, hinp.1, fun h => absurd (hinp.2.symm.trans h) nofun, halive.conf⟩
  | panic =>
      rw [hpoll] at hinp
      exact hinp.elim

/-- A pass leaves the stream alive, or it is one in which a chunk makes the parser panic. -/
theorem alive_pollNext (halive : Alive conf c) :
    (c.pollNext = .panic ∧ ∃ buf, c.Takes buf ∧ parseBufInner c.conf c.parser buf {} = .panicked) ∨
      c.pollNext.Ensures ys fun _ t => Alive conf t := by
  obtain ⟨hrunning, hinp, hinperr, hconf⟩ := halive
  by_cases hpolls : c.Polls
  · rw [pollNext_of_polls hpolls]
    rcases alive_pollInp ⟨hrunning, hinp, hinperr, hconf⟩ hpolls.2.2.1 with ⟨hpanic, buf, inp, hpoll, hparse⟩ | h
    · exact .inl ⟨hpanic, buf, ⟨hpolls, inp, hpoll⟩, hparse⟩
    · exact .inr h
  · right
    unfold pollNext
    rw [if_neg (Bool.eq_false_iff.mp hrunning)]
    cases hitems : c.parser.logItems with
    | cons item rest => exact ⟨hrunning, hinp, hinperr, hconf⟩
    | nil =>
        simp only
        split_ifs with herrored hstats hsent hfinal hbeyond hcomplete
        · trivial
        · exact ⟨hrunning, hinp, hinperr, hconf⟩
        · trivial
        · exact ⟨hrunning, hinp, hinperr, hconf⟩
        · exact ⟨hrunning, hinp, hinperr, hconf⟩
        · exact ⟨hrunning, hinp, hinperr, hconf⟩
        · refine absurd ⟨hrunning, hitems, ?_, not_le.mp hstats, ?_, ?_, ?_⟩ hpolls
          · simpa using herrored
          · simpa using hsent
          · simpa using hfinal
          · simpa using hcomplete

theorem alive_start (state : DataFileState) (inp : Script (Except SitemErr (List UInt8))) :
    Alive conf (start state inp conf) := by
  cases state with
  | fileHeader => exact ⟨rfl, rfl, nofun, rfl⟩
  | event => exact ⟨rfl, rfl, nofun, rfl⟩

/-- A stream stays alive as long as it runs. -/
theorem alive_of_reaches {t : EventChunker} (halive : Alive conf c) (hrun : Reaches pollNext c ys t) :
    Alive conf t := by
  apply hrun.inv (I := fun _ t => Alive conf t) halive
  intro zs v _ hv
  rcases alive_pollNext hv with ⟨hpanic, -⟩ | h
  · exact .inl hpanic
  · exact .inr h

/-- Reading a file does not panic, whatever the bytes, their chunks, the expected type, shape and range are, exactly
if the parser visits sound bytes only. -/
theorem not_panics_iff (state : DataFileState) (inp : Script (Except SitemErr (List UInt8))) (conf : ChunkerConf) :
    ¬ Panics pollNext (start state inp conf) ↔
      ∀ s buf, Visits (start state inp conf) s buf → Sound conf s buf := by
  have halive : Alive conf (start state inp conf) := alive_start state inp
  constructor
  · rintro hsafe s buf ⟨xs, t, chunk, hrun, ⟨hpolls, inp', hpoll⟩, hparses⟩
    by_contra hsound
    have hconf : t.conf = conf := (alive_of_reaches halive hrun).conf
    rw [halive.conf] at hparses
    have hpanic : parseBufInner t.conf t.parser chunk {} = .panicked := by
      rw [hconf]
      exact parseBufInner_eq_panicked.mpr ⟨s, buf, hparses, parseStep_eq_panicked.mpr hsound⟩
    refine hsafe ⟨xs, t, hrun, ?_⟩
    rw [pollNext_of_polls hpolls, pollInp, hpoll]
    exact handleChunk_eq_panic.mpr hpanic
  · rintro hsound ⟨xs, t, hrun, hpanic⟩
    have ht := alive_of_reaches halive hrun
    rcases @alive_pollNext t conf xs ht with ⟨-, buf, htakes, hparse⟩ | h
    · obtain ⟨s, buf', hparses, hstep⟩ := parseBufInner_eq_panicked.mp hparse
      rw [ht.conf] at hparses hstep
      refine absurd (hsound s buf' ⟨xs, t, buf, hrun, htakes, ?_⟩) (parseStep_eq_panicked.mp hstep)
      rwa [halive.conf]
    · rw [hpanic] at h
      exact h

/-- A record of 20 bytes, at the end of a file -/
def shortRecord : List UInt8 := [0, 0, 0, 20] ++ List.replicate 16 0

/-- What is expected in the example -/
def scalarConf : ChunkerConf := ⟨.f64, .scalar, ⟨0, 1000⟩, 1024⟩

/-- A record of 20 bytes at the end of a file makes the reader panic: it reads on behind the timestamp. -/
theorem not_forall_not_panics : ¬ ∀ state inp conf, ¬ Panics pollNext (start state inp conf) := by
  intro h
  have hparse : parseBufInner scalarConf (fromEventBoundary [] scalarConf).parser shortRecord {} = .panicked :=
    parseBufInner_of_panicked (by decide)
  have hpanic : pollNext (start .event [.ready (.ok shortRecord)] scalarConf) = .panic := handleChunk_eq_panic.mpr hparse
  exact h .event _ scalarConf ⟨[], _, .refl, hpanic⟩

end EventChunker

end Disk
end Daqbuf
