import Daqbuf.Disk.EventChunker
/-!
# The Order of the Events of a Data File

{lit}`EventChunker` drops a record with a timestamp below the last one, but takes its timestamp for the last one.  The
records behind it are then compared to a timestamp that is too low.

The records of a file are stated apart from the parser: where each begins, its timestamp, and whether an event can be
made of it.

Main results:

- Theorem {lit}`nextRecord_eventStep`: what a round of the parser does with a record, whatever follows the buffer.
- Theorem {lit}`events_ordered`: the events of every run are in order, if in the file each record that is not below its
  predecessor is not below any earlier event.
-/

namespace Daqbuf
namespace Disk

open Bytes Items Netpod Nom Poll

/-! ## The records of a file -/

/-- The length of the record in front -/
def recordLen (bs : List UInt8) : ℕ := (statedLen bs).toNat

/-- The timestamp of the record in front -/
def recordTs (bs : List UInt8) : ℕ := ofBe (slice bs 12 20)

/-- An event can be made of the record in front: it is from before the end of the range, and has the expected type and
shape. -/
def isExpected (c : ChunkerConf) (bs : List UInt8) : Bool :=
  match readFields c.shape (bs.drop 28) with
  | .ok (f, rest) =>
      match (rawEvent bs f (bs.length - rest.length) (recordLen bs)).shapeDerived c.scalarType c.shape with
      | .ok sh => decide (recordTs bs < c.range.fin ∧ f.oddShape = false ∧ c.scalarType = f.scalarType ∧ sh = c.shape)
      | .error _ => false
  | .error _ => false

/-- How many records are at or after the end of the range, with the one in front -/
def countAfter (c : ChunkerConf) (after : ℕ) (bs : List UInt8) : ℕ :=
  if c.range.fin ≤ recordTs bs then after + 1 else after

/-- The timestamps of the records, and of which of them events can be made, up to the second one at or after the end of
the range; {lit}`after` of these are in front. -/
def recordsOf (c : ChunkerConf) (after : ℕ) (bs : List UInt8) : List (ℕ × Bool) :=
  if _h : 28 ≤ recordLen bs ∧ recordLen bs ≤ bs.length ∧ (c.range.fin ≤ recordTs bs → countAfter c after bs < 2) then
    (recordTs bs, isExpected c bs) :: recordsOf c (countAfter c after bs) (bs.drop (recordLen bs))
  else []
termination_by bs.length
decreasing_by
  rw [List.length_drop]
  omega

/-- The records of a file, behind its header if it is read from there -/
def fileRecords (c : ChunkerConf) (after : ℕ) : DataFileState → List UInt8 → List (ℕ × Bool)
  | .fileHeader, bs => recordsOf c after (bs.drop ((headerLen bs).toNat + 2))
  | .event, bs => recordsOf c after bs

/-- Each record of which an event can be made, and which is not below its predecessor, is not below an earlier one of
these; {lit}`last` is the timestamp before the first one, and {lit}`top` that of the events so far. -/
def Recovers : ℕ → ℕ → List (ℕ × Bool) → Prop
  | _, _, [] => True
  | last, top, (ts, expected) :: rest =>
      (expected = true → last ≤ ts → top ≤ ts) ∧ Recovers ts (if expected = true ∧ last ≤ ts then ts else top) rest

/-- The bytes that are read up to an error -/
def content : List (Except SitemErr (List UInt8)) → List UInt8
  | [] => []
  | .ok bs :: rest => bs ++ content rest
  | .error _ :: _ => []

/-! ## One round -/

section Round

variable {c : ChunkerConf} {s s' : ParserState} {buf : List UInt8} {event : Option RawEvent}
  {items : List LogItem} {len : ℕ}

theorem local_readFields (shape : DataShape) : Local (readFields shape) := by
  have hdims : ∀ n, Local (readDims n) := fun n =>
    ((local_readU 4).times n).bind fun lens => (local_panicIf (4 < n)).bind fun _ => local_pure lens
  have hbyte : ∀ flag, Local (readByteIf flag) := by
    intro flag
    cases flag with
    | true => exact local_readU 1
    | false => exact local_pure 0
  have hshape : ∀ t flags, Local (readShape t flags) := fun t flags =>
    (hbyte _).bind fun _ => (hbyte _).bind fun dim => (hdims dim).bind fun _ => (local_refuse _ _).bind fun _ =>
      local_pure _
  refine (local_readI 8).bind fun _ => (local_readI 1).bind fun _ => (local_readI 1).bind fun _ =>
    (local_readI 4).bind fun _ => (local_refuse _ _).bind fun _ => (local_readU 1).bind fun flags =>
      (local_readU 1).bind fun index => (local_refuse _ _).bind fun _ => ?_
  cases ScalarType.fromDtypeIndex index with
  | none => exact local_throwErr _
  | some t => exact (local_refuse _ _).bind fun _ => hshape t flags

/-- The fields of a record are taken off the front. -/
theorem length_rest_le {shape : DataShape} {bs rest : List UInt8} {f : RecordFields}
    (h : readFields shape bs = .ok (f, rest)) : rest.length ≤ bs.length := by
  have hsound : FieldsSound shape bs := by
    by_contra hnot
    rw [readFields_eq_panicked.mpr hnot] at h
    cases h
  obtain ⟨-, -, rfl, -⟩ := (readFields_eq_ok hsound).mp h
  rw [List.length_drop]
  exact Nat.sub_le _ _

/-- A round at a record, of bytes {lit}`bs` from its begin on -/
structure NextRecord (c : ChunkerConf) (s : ParserState) (bs : List UInt8) (s' : ParserState)
    (event : Option RawEvent) (len : ℕ) : Prop where
  stated : recordLen bs = len
  le : 28 ≤ len
  lastTs : s'.lastTs = recordTs bs
  state : s'.state = s.state
  count : s'.seenAfterRangeCount = countAfter c s.seenAfterRangeCount bs
  stays : c.range.fin ≤ recordTs bs → countAfter c s.seenAfterRangeCount bs < 2
  event : ∀ ev ∈ event, ev.ts.toNat = recordTs bs ∧ isExpected c bs = true ∧ s.lastTs ≤ recordTs bs

theorem noteAfter_frame (range : NanoRange) (ts : ℕ) (s : ParserState) :
    (noteAfter range ts s).lastTs = s.lastTs ∧ (noteAfter range ts s).state = s.state ∧
      (noteAfter range ts s).seenAfterRangeCount =
        if range.fin ≤ ts then s.seenAfterRangeCount + 1 else s.seenAfterRangeCount := by
  unfold noteAfter
  split
  · exact ⟨rfl, rfl, rfl⟩
  · exact ⟨rfl, rfl, rfl⟩

theorem noteBefore_frame (range : NanoRange) (ts : ℕ) (s : ParserState) :
    (noteBefore range ts s).lastTs = s.lastTs ∧ (noteBefore range ts s).state = s.state ∧
      (noteBefore range ts s).seenAfterRangeCount = s.seenAfterRangeCount := by
  unfold noteBefore
  split
  · exact ⟨rfl, rfl, rfl⟩
  · exact ⟨rfl, rfl, rfl⟩

/-- An event is made only of a record that is not discarded, with the expected type and shape. -/
theorem pushEvent_some {discard : Bool} {f : RecordFields} {ev ev' : RawEvent} {n : ℕ}
    (h : pushEvent c s discard f ev n = .next s' (some ev') items len) :
    discard = false ∧ f.oddShape = false ∧ c.scalarType = f.scalarType ∧
      ev.shapeDerived c.scalarType c.shape = .ok c.shape := by
  unfold pushEvent at h
  simp only at h
  split at h
  · cases h
  rename_i hkeep
  simp only [not_or, Bool.not_eq_true, ne_eq, not_not] at hkeep
  cases hsh : ev.shapeDerived c.scalarType c.shape with
  | ok sh =>
      rw [hsh] at h
      simp only at h
      split at h
      · cases h
      · rename_i heq
        exact ⟨hkeep.1, hkeep.2.1, hkeep.2.2, by rw [not_not.mp heq]⟩
  | error e =>
      rw [hsh] at h
      cases e <;> cases h

theorem rawEvent_append (more : List UInt8) {f : RecordFields} {p1 : ℕ} (hbuf : 28 ≤ buf.length)
    (hlen : len ≤ buf.length) : rawEvent (buf ++ more) f p1 len = rawEvent buf f p1 len := by
  unfold rawEvent
  rw [slice_append (by omega), slice_append hbuf, slice_append (by omega)]

theorem toNat_ts (buf : List UInt8) : (UInt64.ofNat (ofBe (slice buf 12 20))).toNat = recordTs buf := by
  have hlen : (slice buf 12 20).length ≤ 8 := by
    rw [slice, List.length_drop, List.length_take]
    omega
  have hlt : ofBe (slice buf 12 20) < 2 ^ 64 := by
    refine (ofBe_lt _).trans_le ?_
    calc 256 ^ (slice buf 12 20).length
      _ ≤ 256 ^ 8 := Nat.pow_le_pow_right (by norm_num) hlen
      _ = 2 ^ 64 := by norm_num
  rw [UInt64.toNat_ofNat', Nat.mod_eq_of_lt hlt, recordTs]

/-- What a round does with a record that the buffer holds, whatever follows the buffer. -/
theorem nextRecord_recordStep (more : List UInt8) (hlen : recordLen buf = len) (hle : len ≤ buf.length) {n : ℕ}
    (h : recordStep c s buf len = .next s' event items n) : NextRecord c s (buf ++ more) s' event len := by
  unfold recordStep at h
  split at h
  · cases h
  rename_i hbuf
  rw [not_lt] at hbuf
  simp only at h
  split at h
  · cases h
  rename_i hstay
  split at h
  · cases h
  cases hf : readFields c.shape (buf.drop 28) with
  | error e =>
      rw [hf] at h
      cases e <;> cases h
  | ok x =>
      obtain ⟨f, rest⟩ := x
      rw [hf] at h
      simp only at h
      split at h
      · cases h
      rename_i hpayload
      have hrest := length_rest_le hf
      rw [List.length_drop] at hrest
      have hts : recordTs (buf ++ more) = recordTs buf := by
        rw [recordTs, slice_append (by omega), recordTs]
      have hlen' : recordLen (buf ++ more) = len := by
        rw [recordLen, statedLen, slice_append (by omega), ← statedLen, ← recordLen, hlen]
      obtain ⟨-, hs', hevent⟩ := pushEvent_next h
      have hafter := noteAfter_frame c.range (ofBe (slice buf 12 20)) { s with lastTs := ofBe (slice buf 12 20) }
      have hcount : countAfter c s.seenAfterRangeCount (buf ++ more) =
          (noteAfter c.range (ofBe (slice buf 12 20))
            { s with lastTs := ofBe (slice buf 12 20) }).seenAfterRangeCount := by
        rw [countAfter, hts, hafter.2.2]
        rfl
      refine ⟨hlen', by omega, ?_, ?_, ?_, ?_, ?_⟩
      · rw [hs', hts]
        exact (noteBefore_frame _ _ _).1.trans hafter.1
      · rw [hs']
        exact (noteBefore_frame _ _ _).2.1.trans hafter.2.1
      · rw [hs', hcount]
        exact (noteBefore_frame _ _ _).2.2
      · rw [hts, hcount]
        intro hfin
        by_contra hle2
        exact hstay ⟨hfin, not_lt.mp hle2⟩
      · rintro ev rfl
        obtain ⟨hdiscard, hodd, htype, hshape⟩ := pushEvent_some h
        simp only [Bool.or_eq_false_iff, decide_eq_false_iff_not, not_lt, not_le] at hdiscard
        have hev : ev = rawEvent buf f (buf.length - rest.length) len := by
          obtain hnone | hsome := hevent
          · cases hnone
          · exact Option.some.inj hsome
        rw [hts]
        refine ⟨?_, ?_, hdiscard.1⟩
        · rw [hev]
          exact toNat_ts buf
        · have hfields : readFields c.shape ((buf ++ more).drop 28) = .ok (f, rest ++ more) := by
            rw [List.drop_append_of_le_length hbuf]
            exact local_readFields c.shape _ _ _ more hf
          have hp1 : (buf ++ more).length - (rest ++ more).length = buf.length - rest.length := by
            rw [List.length_append, List.length_append, Nat.add_sub_add_right]
          simp only [isExpected, hfields, hp1, hlen', rawEvent_append more hbuf hle, hshape, hts]
          exact decide_eq_true ⟨hdiscard.2, hodd, htype, trivial⟩

/-- A round at a record, whatever follows the buffer. -/
theorem nextRecord_eventStep (more : List UInt8) (h : eventStep c s buf = .next s' event items len) :
    NextRecord c s (buf ++ more) s' event len := by
  have hle := (eventStep_next h).2
  unfold eventStep at h
  split at h
  · cases h
  simp only at h
  split at h
  · cases h
  split at h
  · cases h
  split at h
  · cases h
  have hlen := recordStep_next h
  have hstated : recordLen buf = len := hlen.symm
  rw [← hlen] at h
  exact nextRecord_recordStep more hstated hle h

/-- The round at the header comes to the records behind it. -/
theorem fileRecords_headerStep (c : ChunkerConf) (more : List UInt8) (hstate : s.state = .fileHeader)
    (h : headerStep s buf = .next s' event items len) :
    event = none ∧ s'.lastTs = s.lastTs ∧ fileRecords c s'.seenAfterRangeCount s'.state (buf.drop len ++ more) =
      fileRecords c s.seenAfterRangeCount s.state (buf ++ more) := by
  have hle := (headerStep_next h).2
  unfold headerStep at h
  split at h
  · cases h
  rename_i hsix
  split at h
  · cases h
  simp only at h
  split at h
  · cases h
  split at h
  · cases h
  split at h
  · cases h
  split at h
  · cases h
  cases h
  have hheader : headerLen (buf ++ more) = signed 4 (ofBe (slice buf 2 6)) := by
    rw [headerLen, slice_append (not_lt.mp hsix)]
  refine ⟨rfl, rfl, ?_⟩
  rw [hstate, fileRecords, fileRecords, hheader, List.drop_append_of_le_length hle]

/-- A break of the loop leaves the place in the file, or nothing more is read. -/
theorem parseStep_brk (h : parseStep c s buf = .brk s') :
    s'.dataEmitComplete = true ∨
      s'.lastTs = s.lastTs ∧ s'.state = s.state ∧ s'.seenAfterRangeCount = s.seenAfterRangeCount := by
  unfold parseStep at h
  split at h
  · cases h
    exact .inr ⟨rfl, rfl, rfl⟩
  cases hstate : s.state with
  | fileHeader =>
      rw [hstate] at h
      simp only [headerStep] at h
      split_ifs at h
      cases h
      exact .inr ⟨rfl, hstate, rfl⟩
  | event =>
      rw [hstate] at h
      simp only [eventStep] at h
      split_ifs at h
      · cases h
        exact .inr ⟨rfl, hstate, rfl⟩
      · simp only [recordStep] at h
        split at h
        · cases h
        split at h
        · cases h
          exact .inl rfl
        split at h
        · cases h
        cases hf : readFields c.shape (buf.drop 28) with
        | error e =>
            rw [hf] at h
            cases e <;> cases h
        | ok x =>
            rw [hf] at h
            simp only [pushEvent] at h
            split at h
            · cases h
            split at h
            · cases h
            split at h <;> first | split at h <;> cases h | cases h

end Round

/-! ## The events of a run -/

/-- Events in order, up to a timestamp -/
def OrderedTo (top : ℕ) (evs : EventFull) : Prop :=
  evs.Pairwise (fun a b => a.ts ≤ b.ts) ∧ ∀ ev ∈ evs, ev.ts.toNat ≤ top

theorem OrderedTo.mono {top top' : ℕ} {evs : EventFull} (h : OrderedTo top evs) (hle : top ≤ top') :
    OrderedTo top' evs :=
  ⟨h.1, fun ev hev => (h.2 ev hev).trans hle⟩

theorem OrderedTo.snoc {top : ℕ} {evs : EventFull} {ev : RawEvent} (h : OrderedTo top evs)
    (hle : top ≤ ev.ts.toNat) : OrderedTo ev.ts.toNat (evs ++ [ev]) := by
  constructor
  · rw [List.pairwise_append]
    refine ⟨h.1, List.pairwise_singleton _ _, ?_⟩
    intro a ha b hb
    rw [List.mem_singleton.mp hb]
    exact UInt64.le_iff_toNat_le.mpr ((h.2 a ha).trans hle)
  · intro a ha
    rw [List.mem_append, List.mem_singleton] at ha
    obtain ha | rfl := ha
    · exact (h.2 a ha).trans hle
    · exact le_rfl

section Loop

variable {c : ChunkerConf} {s s' : ParserState} {buf more rest : List UInt8} {top : ℕ} {prior : EventFull}

/-- A round keeps the events in order, if the records that are left recover. -/
theorem orderedTo_parseStep {event : Option RawEvent} {items : List LogItem} {len : ℕ}
    (h : parseStep c s buf = .next s' event items len) (hordered : OrderedTo top prior)
    (hrec : Recovers s.lastTs top (fileRecords c s.seenAfterRangeCount s.state (buf ++ more))) :
    ∃ top', OrderedTo top' (prior ++ event.toList) ∧
      Recovers s'.lastTs top' (fileRecords c s'.seenAfterRangeCount s'.state (buf.drop len ++ more)) := by
  have hle := (parseStep_next h).2
  unfold parseStep at h
  split at h
  · cases h
  cases hstate : s.state with
  | fileHeader =>
      rw [hstate] at h
      obtain ⟨rfl, hlast, hrecords⟩ := fileRecords_headerStep c more hstate h
      refine ⟨top, ?_, ?_⟩
      · rwa [Option.toList_none, List.append_nil]
      · rwa [hlast, hrecords]
  | event =>
      rw [hstate] at h
      have hnext := nextRecord_eventStep more h
      have hlen : 28 ≤ recordLen (buf ++ more) ∧ recordLen (buf ++ more) ≤ (buf ++ more).length ∧
          (c.range.fin ≤ recordTs (buf ++ more) → countAfter c s.seenAfterRangeCount (buf ++ more) < 2) := by
        rw [hnext.stated, List.length_append]
        exact ⟨hnext.le, by omega, hnext.stays⟩
      rw [hstate, fileRecords, recordsOf, dif_pos hlen, hnext.stated, List.drop_append_of_le_length hle] at hrec
      obtain ⟨hback, hrec⟩ := hrec
      rw [hnext.lastTs, hnext.state, hstate, hnext.count, fileRecords]
      refine ⟨_, ?_, hrec⟩
      cases event with
      | none =>
          rw [Option.toList_none, List.append_nil]
          apply hordered.mono
          split
          · rename_i hkept
            exact hback hkept.1 hkept.2
          · exact le_rfl
      | some ev =>
          obtain ⟨hts, hexpected, hlast⟩ := hnext.event ev rfl
          rw [if_pos ⟨hexpected, hlast⟩, ← hts, Option.toList_some]
          apply hordered.snoc
          rw [hts]
          exact hback hexpected hlast

/-- The loop keeps the events in order. -/
theorem orderedTo_parseBufInner (prior : EventFull) (more : List UInt8) {ret ret' : ParseResult}
    (h : parseBufInner c s buf ret = .ok s' ret' rest) (hordered : OrderedTo top (prior ++ ret.events))
    (hrec : Recovers s.lastTs top (fileRecords c s.seenAfterRangeCount s.state (buf ++ more))) :
    ∃ top', OrderedTo top' (prior ++ ret'.events) ∧ (s'.dataEmitComplete = true ∨
      Recovers s'.lastTs top' (fileRecords c s'.seenAfterRangeCount s'.state (rest ++ more))) := by
  fun_induction parseBufInner c s buf ret generalizing top with
  | case1 s buf ret s1 hstep =>
      cases h
      refine ⟨top, hordered, ?_⟩
      obtain hdone | ⟨hlast, hstate, hcount⟩ := parseStep_brk hstep
      · exact .inl hdone
      · right
        rwa [hlast, hstate, hcount]
  | case2 s buf ret s1 e hstep => cases h
  | case3 s buf ret hstep => cases h
  | case4 s buf ret s1 event items len hstep ih =>
      obtain ⟨top1, hordered1, hrec1⟩ := orderedTo_parseStep hstep hordered hrec
      apply ih h _ hrec1
      rwa [ParseResult.add, ← List.append_assoc]

end Loop

namespace EventChunker

/-- The bytes up to an error that the parser has not taken -/
def held (b : NeedMinBuffer) : List UInt8 := b.left.getD [] ++ content b.inp.items

/-- The events so far are in order, and as long as the file is read the records that are left recover. -/
def InOrder (xs : List (Sitemty EventFull)) (c : EventChunker) : Prop :=
  ∃ top, OrderedTo top (datas xs).flatten ∧
    (c.errored = true ∨ c.parser.dataEmitComplete = true ∨
      Recovers c.parser.lastTs top (fileRecords c.conf c.parser.seenAfterRangeCount c.parser.state (held c.inp)))

variable {c : EventChunker} {conf : ChunkerConf} {xs : List (Sitemty EventFull)}

/-- The buffer keeps all bytes, up to the chunk that it hands out. -/
theorem held_pollNext {b : NeedMinBuffer} (hcompleted : b.completed = false) (herrored : b.errored = false) :
    match b.pollNext with
    | .item (.ok buf) t => t.left = none ∧ held b = buf ++ held t
    | .again t | .pending t => held t = held b
    | _ => True := by
  unfold NeedMinBuffer.pollNext held
  rw [if_neg (Bool.eq_false_iff.mp hcompleted), if_neg (Bool.eq_false_iff.mp herrored)]
  cases b.inp with
  | nil => trivial
  | cons a rest =>
      cases a with
      | pending => rfl
      | ready x =>
          cases x with
          | error e => trivial
          | ok fcr =>
              simp only
              split_ifs
              · exact ⟨rfl, (List.append_assoc _ _ _).symm⟩
              · exact List.append_assoc _ _ _

/-- A part of the state that the order does not depend on -/
theorem InOrder.frame {c' : EventChunker} {ys : List (Sitemty EventFull)} (h : InOrder xs c)
    (hdatas : datas ys = datas xs) (herrored : c.errored = true → c'.errored = true) (hconf : c'.conf = c.conf)
    (hcomplete : c'.parser.dataEmitComplete = c.parser.dataEmitComplete) (hlast : c'.parser.lastTs = c.parser.lastTs)
    (hcount : c'.parser.seenAfterRangeCount = c.parser.seenAfterRangeCount)
    (hstate : c'.parser.state = c.parser.state) (hinp : held c'.inp = held c.inp) : InOrder ys c' := by
  obtain ⟨top, hordered, hlive⟩ := h
  rw [InOrder, hdatas, hconf, hcomplete, hlast, hcount, hstate, hinp]
  exact ⟨top, hordered, hlive.imp_left herrored⟩

/-- What a chunk is parsed to continues the events in order. -/
theorem inOrder_handleChunk {top : ℕ} {buf : List UInt8} (hordered : OrderedTo top (datas xs).flatten)
    (hleft : c.inp.left = none)
    (hrec : Recovers c.parser.lastTs top
      (fileRecords c.conf c.parser.seenAfterRangeCount c.parser.state (buf ++ held c.inp))) :
    c.handleChunk buf = .panic ∨ (c.handleChunk buf).Ensures xs InOrder := by
  unfold handleChunk
  cases hparse : parseBufInner c.conf c.parser buf {} with
  | panicked => exact .inl rfl
  | err s e =>
      right
      refine ⟨top, ?_, .inl rfl⟩
      rwa [datas_append, datas_cons, data?_error, datas_nil, Option.toList_none, List.append_nil, List.append_nil]
  | ok s ret rest =>
      right
      obtain ⟨top', hordered', hlive⟩ := orderedTo_parseBufInner (datas xs).flatten (held c.inp) hparse
        (by rwa [List.append_nil]) hrec
      have hput : held (if rest ≠ [] then c.inp.putBack rest else c.inp) = rest ++ held c.inp := by
        unfold held
        rw [hleft]
        split_ifs with hrest
        · rfl
        · rw [not_not.mp hrest, hleft, List.nil_append]
      simp only
      split
      · refine ⟨top, ?_, .inl rfl⟩
        rwa [datas_append, datas_cons, sitemErrFromString, data?_error, datas_nil, Option.toList_none,
          List.append_nil, List.append_nil]
      · refine ⟨top', ?_, .inr ?_⟩
        · rwa [datas_append, datas_cons, data?_data, datas_nil, Option.toList_some, List.append_nil,
            List.flatten_append, List.flatten_singleton]
        · obtain hdone | hrec' := hlive
          · exact .inl hdone
          · right
            rwa [← hput] at hrec'

/-- A pass keeps the events in order. -/
theorem inOrder_pollNext (halive : Alive conf c) (h : InOrder xs c) :
    c.pollNext = .panic ∨ c.pollNext.Ensures xs InOrder := by
  obtain ⟨hrunning, hinp, hinperr, hconf⟩ := halive
  by_cases hpolls : c.Polls
  · have hinperrored : c.inp.errored = false := by
      rw [← Bool.not_eq_true]
      intro herr
      exact absurd (hpolls.2.2.1.symm.trans (hinperr herr)) nofun
    have hheld := held_pollNext hinp hinperrored
    rw [pollNext_of_polls hpolls, pollInp]
    cases hpoll : c.inp.pollNext with
    | item x inp =>
        rw [hpoll] at hheld
        cases x with
        | ok buf =>
            obtain ⟨top, hordered, hlive⟩ := h
            obtain ⟨-, -, herrored, -, -, -, hcomplete⟩ := hpolls
            rw [herrored, hcomplete, hheld.2] at hlive
            apply inOrder_handleChunk hordered hheld.1
            simpa using hlive
        | error e =>
            right
            obtain ⟨top, hordered, -⟩ := h
            refine ⟨top, ?_, .inl rfl⟩
            rwa [datas_append, datas_cons, data?_error, datas_nil, Option.toList_none, List.append_nil, List.append_nil]
    | done inp =>
        obtain ⟨top, hordered, -⟩ := h
        exact .inr ⟨top, hordered, .inr (.inl rfl)⟩
    | pending inp =>
        rw [hpoll] at hheld
        exact .inr (h.frame rfl id rfl rfl rfl rfl rfl hheld)
    | again inp =>
        rw [hpoll] at hheld
        exact .inr (h.frame rfl id rfl rfl rfl rfl rfl hheld)
    | panic => exact .inl rfl
  · unfold pollNext
    rw [if_neg (Bool.eq_false_iff.mp hrunning)]
    cases hitems : c.parser.logItems with
    | cons item rest => exact .inr (h.frame (by simp) id rfl rfl rfl rfl rfl rfl)
    | nil =>
        right
        simp only
        split_ifs with herrored hstats hsent hfinal hbeyond hcomplete
        · trivial
        · exact h.frame (by simp) id rfl rfl rfl rfl rfl rfl
        · trivial
        · exact h.frame (by simp) id rfl rfl rfl rfl rfl rfl
        · exact h.frame rfl id rfl rfl rfl rfl rfl rfl
        · exact h.frame (by simp) id rfl rfl rfl rfl rfl rfl
        · refine absurd ⟨hrunning, hitems, ?_, not_le.mp hstats, ?_, ?_, ?_⟩ hpolls
          · simpa using herrored
          · simpa using hsent
          · simpa using hfinal
          · simpa using hcomplete

/-- Whatever is in the file and however it is cut into chunks, the events of the whole run are in order, if each
record of which an event can be made and which is not below its predecessor is not below an earlier one of these. -/
theorem events_ordered (state : DataFileState) (inp : Script (Except SitemErr (List UInt8))) (conf : ChunkerConf)
    {t : EventChunker} (hrec : Recovers 0 0 (fileRecords conf 0 state (content inp.items)))
    (hrun : Reaches pollNext (start state inp conf) xs t) :
    ((datas xs).flatten).Pairwise fun a b => a.ts ≤ b.ts := by
  have hstart : InOrder [] (start state inp conf) := by
    refine ⟨0, ⟨.nil, nofun⟩, .inr (.inr ?_)⟩
    cases state with
    | fileHeader => exact hrec
    | event => exact hrec
  have hinv : InOrder xs t :=
    hrun.inv hstart fun ys v hreach hv => inOrder_pollNext (alive_of_reaches (alive_start state inp) hreach) hv
  obtain ⟨top, hordered, -⟩ := hinv
  exact hordered.1

/-! ## Records out of order -/

/-- A record of 56 bytes with a number -/
def numberRecord (ts : UInt8) : List UInt8 :=
  [0, 0, 0, 56] ++ List.replicate 15 0 ++ [ts] ++ List.replicate 18 0 ++ [255, 255, 255, 255, 0, 12] ++
    List.replicate 8 0 ++ [0, 0, 0, 56]

/-- The event of such a record -/
def numberEvent (ts : UInt64) : RawEvent := ⟨ts, 0, List.replicate 8 0, .f64, false, .scalar, none⟩

/-- The parser behind a record -/
def behind (ts : ℕ) : ParserState := { state := .event, needMin := 4, lastTs := ts }

/-- Three records -/
def threeRecords (ts1 ts2 ts3 : UInt8) : List UInt8 := numberRecord ts1 ++ (numberRecord ts2 ++ numberRecord ts3)

theorem drop_numberRecord (ts : UInt8) (bs : List UInt8) : (numberRecord ts ++ bs).drop 56 = bs :=
  List.drop_left' rfl

theorem recordTs_numberRecord (ts : UInt8) (bs : List UInt8) : recordTs (numberRecord ts ++ bs) = ts.toNat := by
  simp [recordTs, slice, numberRecord, ofBe, ofLe]

theorem recordsOf_numberRecord (ts : UInt8) (bs : List UInt8) :
    recordsOf scalarConf 0 (numberRecord ts ++ bs) =
      (recordTs (numberRecord ts ++ bs), isExpected scalarConf (numberRecord ts ++ bs)) ::
        recordsOf scalarConf 0 bs := by
  have hlen : recordLen (numberRecord ts ++ bs) = 56 := rfl
  have hlength : (numberRecord ts ++ bs).length = 56 + bs.length := List.length_append
  have hbefore : ¬ scalarConf.range.fin ≤ recordTs (numberRecord ts ++ bs) := by
    have hlt := ts.toNat_lt
    rw [recordTs_numberRecord]
    change ¬ 1000 ≤ ts.toNat
    omega
  have hcount : countAfter scalarConf 0 (numberRecord ts ++ bs) = 0 := if_neg hbefore
  rw [recordsOf, dif_pos ⟨by omega, by omega, fun hfin => absurd hfin hbefore⟩, hcount, hlen, drop_numberRecord]

/-- Three records in one chunk are handed out at once. -/
theorem reaches_threeRecords (ts1 ts2 ts3 : UInt8) (x1 x2 x3 : Option RawEvent)
    (h1 : parseStep scalarConf (behind 0) (threeRecords ts1 ts2 ts3) = .next (behind ts1.toNat) x1 [] 56)
    (h2 : parseStep scalarConf (behind ts1.toNat) (numberRecord ts2 ++ numberRecord ts3) =
      .next (behind ts2.toNat) x2 [] 56)
    (h3 : parseStep scalarConf (behind ts2.toNat) (numberRecord ts3) = .next (behind ts3.toNat) x3 [] 56) :
    ∃ t, Reaches pollNext (start .event [.ready (.ok (threeRecords ts1 ts2 ts3))] scalarConf)
      [sitemData (x1.toList ++ x2.toList ++ x3.toList)] t := by
  have hend : (numberRecord ts3).drop 56 = [] := rfl
  have hparse : parseBufInner scalarConf (behind 0) (threeRecords ts1 ts2 ts3) {} =
      .ok (behind ts3.toNat) ⟨x1.toList ++ x2.toList ++ x3.toList, 168, []⟩ [] := by
    rw [parseBufInner_of_next h1, threeRecords, drop_numberRecord, parseBufInner_of_next h2, drop_numberRecord,
      parseBufInner_of_next h3, hend]
    exact parseBufInner_of_brk rfl
  have hpass : pollNext (start .event [.ready (.ok (threeRecords ts1 ts2 ts3))] scalarConf) =
      .item (sitemData (x1.toList ++ x2.toList ++ x3.toList))
        { inp := { inp := [], needMin := 4 }, conf := scalarConf, parser := behind ts3.toNat, parsedBytes := 168 } := by
    change handleChunk { inp := { inp := [], needMin := 4 }, conf := scalarConf, parser := behind 0 }
      (threeRecords ts1 ts2 ts3) = _
    simp only [handleChunk, hparse]
    rfl
  exact ⟨_, .item .refl hpass⟩

/-- The timestamps 10, 5 and 12: the record out of order is dropped, and the others are in order. -/
theorem events_ordered_threeRecords :
    (datas [sitemData [numberEvent 10, numberEvent 12]]).flatten.Pairwise fun a b => a.ts ≤ b.ts := by
  obtain ⟨t, hrun⟩ := reaches_threeRecords 10 5 12 (some (numberEvent 10)) none (some (numberEvent 12))
    (by decide +kernel) (by decide +kernel) (by decide +kernel)
  have hrecords : fileRecords scalarConf 0 .event (threeRecords 10 5 12) = [(10, true), (5, true), (12, true)] := by
    rw [fileRecords, threeRecords, recordsOf_numberRecord, recordsOf_numberRecord,
      ← List.append_nil (numberRecord 12), recordsOf_numberRecord, recordsOf]
    decide +kernel
  refine events_ordered .event _ scalarConf ?_ hrun
  have hcontent : content (Script.items [.ready (.ok (threeRecords 10 5 12))]) = threeRecords 10 5 12 :=
    List.append_nil _
  rw [hcontent, hrecords]
  simp [Recovers]

/-- The timestamps 10, 5 and 7: the record out of order is dropped, and the next one is handed out although it is out of
order as well. -/
theorem not_events_ordered :
    ¬ ∀ state inp conf xs t, Reaches pollNext (start state inp conf) xs t →
      ((datas xs).flatten).Pairwise fun a b => a.ts ≤ b.ts := by
  intro h
  obtain ⟨t, hrun⟩ := reaches_threeRecords 10 5 7 (some (numberEvent 10)) none (some (numberEvent 7))
    (by decide +kernel) (by decide +kernel) (by decide +kernel)
  have hordered := h _ _ _ _ _ hrun
  revert hordered
  decide

end EventChunker

end Disk
end Daqbuf
