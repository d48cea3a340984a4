import Daqbuf.Items.Frame
import Daqbuf.Items.Merge
import Daqbuf.Poll.Loop
import Daqbuf.Streams.SlideBuf
/-!
# The Stream of In-Memory Frames

{lit}`InMemoryFrameStream` cuts a stream of byte chunks into frames.  It collects chunks until it holds
as many bytes as it needs: first those of the head of a frame, and then, when the head has told the
length of the frame, those of the whole frame.

Main results:

- Theorem {lit}`pollUpstream_chunk`: a chunk for which there is room goes behind the bytes that are held.
- Theorem {lit}`parse_part`, {lit}`parse_whole`: what one attempt to parse does to the bytes of a frame.
- Theorem {lit}`drains_frames`: the stream yields the frames that were encoded, up to the first
  terminating one, however their bytes are cut into chunks.
-/

namespace Daqbuf
namespace Streams

open Bytes Items Poll

/-- {lit}`InMemoryFrameStream`; the polled input is the script of its answers. -/
structure InMemoryFrameStream (E : Type*) where
  inp : Script (Except E (List UInt8))
  buf : SlideBuf
  needMin : ℕ := inmemFrameHead
  done : Bool := false
  complete : Bool := false
  inpBytesConsumed : ℕ := 0

namespace InMemoryFrameStream

/-- {lit}`Error` -/
inductive Error where
  | input
  | slidebuf (e : SlideBuf.Error)
  | lessThanNeedMin
  | enoughInputNothingParsed
  | inMemParse (e : InMemoryFrame.Error)
  deriving DecidableEq, Repr

/-- The error of the slide buffer, by its text. -/
def slidebufErr : SlideBuf.Error → SitemErr
  | .notEnoughBytes => .fromVariant "SlideBuf" "NotEnoughBytes"
  | .notEnoughSpace _ _ _ => .fromVariant "SlideBuf" "NotEnoughSpace"

/-- The error of the frame parser, by its text. -/
def inMemParseErr : InMemoryFrame.Error → SitemErr
  | .lessThanHeader => .fromVariant "InMemoryFrameError" "LessThanHeader"
  | .badMagic _ => .fromVariant "InMemoryFrameError" "BadMagic"
  | .hugeFrame _ => .fromVariant "InMemoryFrameError" "HugeFrame"
  | .badCrc => .fromVariant "InMemoryFrameError" "BadCrc"

/-- The error as a stream item, by {lit}`sitem_err2_from_string`. -/
def Error.toSitemErr : Error → SitemErr
  | .input => .fromVariant "InMem" "Input"
  | .slidebuf e => .fromNested "InMem" "Slidebuf" (slidebufErr e)
  | .lessThanNeedMin => .fromVariant "InMem" "LessThanNeedMin"
  | .enoughInputNothingParsed => .fromVariant "InMem" "EnoughInputNothingParsed"
  | .inMemParse e => .fromNested "InMem" "InMemParse" (inMemParseErr e)

section Stream

variable {E : Type*} (crc : List UInt8 → UInt32)

/-- {lit}`new` -/
def new (inp : Script (Except E (List UInt8))) (bufcap : ℕ) : InMemoryFrameStream E :=
  { inp := inp, buf := SlideBuf.new bufcap }

/-- {lit}`poll_upstream`; {lit}`none` when the writable area is too short for the chunk, where copying
panics. -/
def pollUpstream (s : InMemoryFrameStream E) :
    Option (Answer (Except Error ℕ) × InMemoryFrameStream E) :=
  match s.inp with
  | .ready (.ok x) :: rest =>
      match s.buf.availableWritableArea x.length with
      | (.ok (), buf) =>
          match buf.copyFromSlice x with
          | none => none
          | some buf =>
              match buf.wadv x.length with
              | (.ok (), buf) => some (.ready (.ok x.length), { s with inp := rest, buf := buf })
              | (.error e, buf) => some (.ready (.error (.slidebuf e)), { s with inp := rest, buf := buf })
      | (.error e, buf) => some (.ready (.error (.slidebuf e)), { s with inp := rest, buf := buf })
  | .ready (.error _) :: rest => some (.ready (.error .input), { s with inp := rest })
  | [] => some (.ready (.ok 0), s)
  | .pending :: rest => some (.pending, { s with inp := rest })

/-- {lit}`parse` -/
def parse (s : InMemoryFrameStream E) :
    Except Error (Option InMemoryFrame) × InMemoryFrameStream E :=
  if s.buf.data.length < s.needMin then
    (.error .lessThanNeedMin, s)
  else
    match InMemoryFrame.parse crc s.buf.data with
    | .ok (.notEnoughData n) => (.ok none, { s with needMin := n })
    | .ok (.parsed lentot val) =>
        match s.buf.adv lentot with
        | (.ok (), buf) =>
            (.ok (some val), { s with
              buf := buf
              needMin := inmemFrameHead
              inpBytesConsumed := s.inpBytesConsumed + lentot })
        | (.error e, buf) => (.error (.slidebuf e), { s with buf := buf })
    | .error e => (.error (.inMemParse e), s)

/-- One pass of {lit}`poll_next`. -/
def pollNext (s : InMemoryFrameStream E) : Pass (InMemoryFrameStream E) (Sitemty InMemoryFrame) :=
  if s.complete then
    .panic
  else if s.done then
    .done { s with complete := true }
  else if s.needMin ≤ s.buf.len then
    match s.parse crc with
    | (.ok none, s) =>
        if s.needMin ≤ s.buf.len then
          .item (.error Error.enoughInputNothingParsed.toSitemErr) { s with done := true }
        else
          .again s
    | (.ok (some item), s) =>
        if item.tyid = termFrameTypeId then .again { s with done := true }
        else .item (sitemData item) s
    | (.error e, s) => .item (.error e.toSitemErr) { s with done := true }
  else
    match s.pollUpstream with
    | some (.ready (.ok n1), s) => if n1 = 0 then .again { s with done := true } else .again s
    | some (.ready (.error e), s) => .item (.error e.toSitemErr) { s with done := true }
    | some (.pending, s) => .pending s
    | none => .panic

end Stream

/-! ## Runs over encoded frames -/

section Run

variable {E : Type*} {crc : List UInt8 → UInt32} {s : InMemoryFrameStream E}
  {rest : Script (Except E (List UInt8))}

/-- A chunk for which there is room goes behind the bytes that are held. -/
theorem pollUpstream_chunk {x : List UInt8} (hinp : s.inp = .ready (.ok x) :: rest)
    (hroom : s.buf.len + x.length ≤ s.buf.cap) :
    ∃ buf, s.pollUpstream = some (.ready (.ok x.length), { s with inp := rest, buf := buf }) ∧
      buf.data = s.buf.data ++ x ∧ buf.cap = s.buf.cap := by
  rcases SlideBuf.availableWritableArea_ok hroom with ⟨t, harea, htdata, htcap, htroom⟩
  rcases SlideBuf.copyFromSlice_wadv htroom with ⟨u, v, hcopy, hwadv, hvdata, hvcap⟩
  refine ⟨v, ?_, htdata ▸ hvdata, hvcap.trans htcap⟩
  simp only [pollUpstream, hinp, harea, hcopy, hwadv]

/-- The bytes of encoded frames. -/
def frameBytes (frames : List (EncodedFrame crc)) : List UInt8 := frames.flatMap fun f => f.bytes

/-- The frames in front of the first terminating one. -/
def yielded (frames : List (EncodedFrame crc)) : List (Sitemty InMemoryFrame) :=
  (frames.takeWhile fun f => f.tyid ≠ termFrameTypeId).map fun f => sitemData f.frame

/-- What holds of the stream while the bytes of {lit}`frames` have not been parsed: they are held or to
be delivered, and at most the current frame is waited for. -/
structure Awaits (s : InMemoryFrameStream E) (frames : List (EncodedFrame crc)) : Prop where
  running : s.done = false ∧ s.complete = false
  delivers : ∃ chunks : List (List UInt8), s.inp.items = chunks.map .ok ∧ (∀ x ∈ chunks, x ≠ []) ∧
    s.buf.data ++ chunks.flatten = frameBytes frames ∧
    ∀ f ∈ frames, ∀ x ∈ chunks, f.bytes.length + x.length ≤ s.buf.cap
  needs : s.needMin = inmemFrameHead ∨
    ∃ f fs, frames = f :: fs ∧ s.needMin = f.bytes.length ∧ inmemFrameHead ≤ s.buf.len

/-- The bytes that are held, at a frame of which a part is missing. -/
theorem Awaits.data_take {f : EncodedFrame crc} {fs : List (EncodedFrame crc)}
    (hawaits : Awaits s (f :: fs)) (hpart : s.buf.len < f.bytes.length) :
    s.buf.data = f.bytes.take s.buf.len := by
  rcases hawaits.delivers with ⟨chunks, _, _, hbytes, _⟩
  have hprefix := congrArg (List.take s.buf.len) hbytes
  rw [frameBytes, List.flatMap_cons, List.take_left' (SlideBuf.length_data _),
    List.take_append_of_le_length (by omega)] at hprefix
  exact hprefix

/-- The bytes that are held, at a frame that is held as a whole. -/
theorem Awaits.data_append {f : EncodedFrame crc} {fs : List (EncodedFrame crc)}
    (hawaits : Awaits s (f :: fs)) (hwhole : f.bytes.length ≤ s.buf.len) :
    s.buf.data = f.bytes ++ s.buf.data.drop f.bytes.length := by
  rcases hawaits.delivers with ⟨chunks, _, _, hbytes, _⟩
  have hprefix := congrArg (List.take f.bytes.length) hbytes
  rw [frameBytes, List.flatMap_cons, List.take_left,
    List.take_append_of_le_length (by rw [SlideBuf.length_data]; exact hwhole)] at hprefix
  rw [← hprefix, List.length_take, SlideBuf.length_data, Nat.min_eq_left hwhole,
    List.take_append_drop]

/-- At a frame of which a part is missing, an attempt to parse learns the length of the frame. -/
theorem parse_part {f : EncodedFrame crc} {fs : List (EncodedFrame crc)}
    (hawaits : Awaits s (f :: fs)) (henough : s.needMin ≤ s.buf.len)
    (hpart : s.buf.len < f.bytes.length) :
    s.needMin = inmemFrameHead ∧
      s.parse crc = (.ok none, { s with needMin := f.bytes.length }) := by
  have hneed : s.needMin = inmemFrameHead := by
    rcases hawaits.needs with hneed | ⟨g, gs, hframes, hneed, _⟩
    · exact hneed
    · rw [List.cons.injEq] at hframes
      rw [hneed, ← hframes.1] at henough
      omega
  refine ⟨hneed, ?_⟩
  rw [parse, SlideBuf.length_data, if_neg (by omega), hawaits.data_take hpart,
    f.parse_take (by omega) hpart]

/-- At a frame that is held as a whole, an attempt to parse takes the frame. -/
theorem parse_whole {f : EncodedFrame crc} {fs : List (EncodedFrame crc)}
    (hawaits : Awaits s (f :: fs)) (henough : s.needMin ≤ s.buf.len)
    (hwhole : f.bytes.length ≤ s.buf.len) :
    ∃ buf, s.parse crc = (.ok (some f.frame), { s with
        buf := buf
        needMin := inmemFrameHead
        inpBytesConsumed := s.inpBytesConsumed + f.bytes.length }) ∧
      buf.cap = s.buf.cap ∧ s.buf.data = f.bytes ++ buf.data := by
  rcases SlideBuf.adv_ok hwhole with ⟨buf, hadv, hdata, hcap⟩
  refine ⟨buf, ?_, hcap, hdata ▸ hawaits.data_append hwhole⟩
  rw [parse, SlideBuf.length_data, if_neg (by omega), hawaits.data_append hwhole, f.parse_append]
  simp only [hadv]

/-- Behind a frame that is taken, the stream awaits the next ones. -/
theorem Awaits.take {f : EncodedFrame crc} {fs : List (EncodedFrame crc)} {buf : SlideBuf} {n : ℕ}
    (hawaits : Awaits s (f :: fs)) (hcap : buf.cap = s.buf.cap)
    (hdata : s.buf.data = f.bytes ++ buf.data) :
    Awaits { s with buf := buf, needMin := inmemFrameHead, inpBytesConsumed := n } fs := by
  rcases hawaits.delivers with ⟨chunks, hinp, hne, hbytes, hroom⟩
  refine ⟨hawaits.running, ⟨chunks, hinp, hne, ?_, fun g hg x hx => ?_⟩, .inl rfl⟩
  · rw [hdata, frameBytes, List.flatMap_cons, List.append_assoc] at hbytes
    exact List.append_cancel_left hbytes
  · rw [hcap]
    exact hroom g (List.mem_cons_of_mem f hg) x hx

/-- While bytes are waited for, there is room for the next chunk. -/
theorem Awaits.room {frames : List (EncodedFrame crc)} {x : List UInt8} (hawaits : Awaits s frames)
    (hinp : s.inp = .ready (.ok x) :: rest) (hwait : s.buf.len < s.needMin) :
    x ≠ [] ∧ s.buf.len + x.length ≤ s.buf.cap := by
  rcases hawaits.delivers with ⟨chunks, hitems, hne, hbytes, hroom⟩
  rw [hinp, Script.items_ready, eq_comm, List.map_eq_cons_iff] at hitems
  rcases hitems with ⟨y, chunks, rfl, hxy, _⟩
  obtain rfl : y = x := Except.ok.inj hxy
  have hx : y ≠ [] := hne y List.mem_cons_self
  refine ⟨hx, ?_⟩
  cases frames with
  | nil =>
      rw [frameBytes, List.flatMap_nil, List.append_eq_nil_iff, List.flatten_cons,
        List.append_eq_nil_iff] at hbytes
      exact absurd hbytes.2.1 hx
  | cons f fs =>
      have hle : s.needMin ≤ f.bytes.length := by
        rcases hawaits.needs with hneed | ⟨g, gs, hframes, hneed, _⟩
        · rw [hneed, f.length_bytes]
          omega
        · rw [List.cons.injEq] at hframes
          rw [hneed, hframes.1]
      have hfits := hroom f List.mem_cons_self y List.mem_cons_self
      omega

/-- A chunk that is taken leaves what is awaited as it is. -/
theorem Awaits.chunk {frames : List (EncodedFrame crc)} {x : List UInt8} {buf : SlideBuf}
    (hawaits : Awaits s frames) (hinp : s.inp = .ready (.ok x) :: rest)
    (hdata : buf.data = s.buf.data ++ x) (hcap : buf.cap = s.buf.cap) :
    Awaits { s with inp := rest, buf := buf } frames := by
  rcases hawaits.delivers with ⟨chunks, hitems, hne, hbytes, hroom⟩
  rw [hinp, Script.items_ready, eq_comm, List.map_eq_cons_iff] at hitems
  rcases hitems with ⟨y, chunks, rfl, hxy, hrest⟩
  obtain rfl : y = x := Except.ok.inj hxy
  refine ⟨hawaits.running, ⟨chunks, hrest.symm, ?_, ?_, ?_⟩, ?_⟩
  · exact fun z hz => hne z (List.mem_cons_of_mem y hz)
  · rw [hdata, List.append_assoc]
    exact hbytes
  · intro f hf z hz
    rw [hcap]
    exact hroom f hf z (List.mem_cons_of_mem y hz)
  · rcases hawaits.needs with hneed | ⟨f, fs, hframes, hneed, hhead⟩
    · exact .inl hneed
    · refine .inr ⟨f, fs, hframes, hneed, ?_⟩
      have hlen : buf.len = s.buf.len + y.length := by
        rw [← SlideBuf.length_data, hdata, List.length_append, SlideBuf.length_data]
      simp only [hlen]
      omega

/-- At the end of the input no frame is awaited any more. -/
theorem Awaits.eq_nil {frames : List (EncodedFrame crc)} (hawaits : Awaits s frames)
    (hinp : s.inp = []) (hwait : s.buf.len < s.needMin) : frames = [] := by
  rcases hawaits.delivers with ⟨chunks, hitems, _, hbytes, _⟩
  obtain rfl : chunks = [] := by simpa [hinp, eq_comm] using hitems
  cases frames with
  | nil => rfl
  | cons f fs =>
      have hlen := congrArg List.length hbytes
      rw [List.flatten_nil, List.append_nil, SlideBuf.length_data, frameBytes, List.flatMap_cons,
        List.length_append, f.length_bytes] at hlen
      rcases hawaits.needs with hneed | ⟨g, gs, hframes, hneed, _⟩
      · omega
      · rw [List.cons.injEq] at hframes
        rw [hneed, ← hframes.1, f.length_bytes] at hwait
        omega

/-- A stream that is done reports its end. -/
theorem drains_ending (hdone : s.done = true) (hcomplete : s.complete = false) :
    Drains (pollNext crc) s [] := by
  refine .of_done (t := { s with complete := true }) ?_
  simp [pollNext, hdone, hcomplete]

/-- The steps that are left: every answer of the input, and for every frame an attempt that learns its
length and one that takes it. -/
def weight (s : InMemoryFrameStream E) (frames : List (EncodedFrame crc)) : ℕ :=
  s.inp.length + 2 * frames.length + if s.needMin = inmemFrameHead then 1 else 0

/-- Where enough bytes are held, some frame is awaited. -/
theorem Awaits.ne_nil {frames : List (EncodedFrame crc)} (hawaits : Awaits s frames)
    (henough : s.needMin ≤ s.buf.len) : frames ≠ [] := by
  rintro rfl
  rcases hawaits.delivers with ⟨chunks, _, _, hbytes, _⟩
  rw [frameBytes, List.flatMap_nil, List.append_eq_nil_iff] at hbytes
  have hlen : s.buf.len = 0 := by rw [← SlideBuf.length_data, hbytes.1, List.length_nil]
  rcases hawaits.needs with hneed | ⟨g, gs, hframes, _, _⟩
  · rw [hneed, hlen] at henough
    exact absurd henough (by decide)
  · simp at hframes

/-- From any state that awaits frames, the stream yields these. -/
theorem Awaits.drains {frames : List (EncodedFrame crc)} (hawaits : Awaits s frames) :
    Drains (pollNext crc) s (yielded frames) := by
  -- induction on the steps that are left
  induction hweight : weight s frames using Nat.strong_induction_on generalizing s frames with
  | h n ih =>
      subst hweight
      rcases hawaits.running with ⟨hdone, hcomplete⟩
      by_cases henough : s.needMin ≤ s.buf.len
      · cases frames with
        | nil => exact absurd rfl (hawaits.ne_nil henough)
        | cons f fs =>
            by_cases hpart : s.buf.len < f.bytes.length
            · rcases parse_part hawaits henough hpart with ⟨hneed, hparse⟩
              have hlong : f.bytes.length ≠ inmemFrameHead := by
                rw [f.length_bytes]
                simp only [inmemFrameHead, inmemFrameFoot]
                omega
              refine .of_again (t := { s with needMin := f.bytes.length }) ?_
                (ih _ ?_ ⟨hawaits.running, hawaits.delivers, .inr ⟨f, fs, rfl, rfl, ?_⟩⟩ rfl)
              · simp [pollNext, hdone, hcomplete, henough, hparse, hpart]
              · simp [weight, hneed, hlong]
              · simpa only [hneed] using henough
            · rcases parse_whole hawaits henough (by omega) with ⟨buf, hparse, hcap, hdata⟩
              have hnext := hawaits.take (n := s.inpBytesConsumed + f.bytes.length) hcap hdata
              by_cases hterm : f.tyid = termFrameTypeId
              · have hnone : yielded (f :: fs) = [] := by simp [yielded, hterm]
                rw [hnone]
                refine .of_again (t := { s with
                  buf := buf
                  needMin := inmemFrameHead
                  inpBytesConsumed := s.inpBytesConsumed + f.bytes.length
                  done := true }) ?_ (drains_ending rfl hcomplete)
                simp [pollNext, hdone, hcomplete, henough, hparse, EncodedFrame.frame,
                  InMemoryFrame.ofPayload, hterm]
              · have hcons : yielded (f :: fs) = sitemData f.frame :: yielded fs := by
                  simp [yielded, hterm]
                rw [hcons]
                refine .of_item ?_ (ih _ ?_ hnext rfl)
                · simp [pollNext, hdone, hcomplete, henough, hparse, EncodedFrame.frame,
                    InMemoryFrame.ofPayload, hterm]
                · simp only [weight, List.length_cons, if_true]
                  split <;> omega
      · have hwait : s.buf.len < s.needMin := by omega
        rcases hinp : s.inp with _ | ⟨_ | ⟨e | x⟩, rest⟩
        · obtain rfl := hawaits.eq_nil hinp hwait
          refine .of_again (t := { s with done := true }) ?_ (drains_ending rfl hcomplete)
          simp [pollNext, hdone, hcomplete, henough, pollUpstream, hinp]
        · refine .of_pending (t := { s with inp := rest }) ?_
            (ih _ ?_ ⟨hawaits.running, ?_, hawaits.needs⟩ rfl)
          · simp [pollNext, hdone, hcomplete, henough, pollUpstream, hinp]
          · simp [weight, hinp]
          · simpa [hinp] using hawaits.delivers
        · rcases hawaits.delivers with ⟨chunks, hitems, _⟩
          rw [hinp, Script.items_ready, eq_comm, List.map_eq_cons_iff] at hitems
          rcases hitems with ⟨_, _, _, hok, _⟩
          simp at hok
        · rcases hawaits.room hinp hwait with ⟨hne, hroom⟩
          rcases pollUpstream_chunk hinp hroom with ⟨buf, hpoll, hdata, hcap⟩
          refine .of_again (t := { s with inp := rest, buf := buf }) ?_
            (ih _ ?_ (hawaits.chunk hinp hdata hcap) rfl)
          · simp [pollNext, hdone, hcomplete, henough, hpoll, hne]
          · simp [weight, hinp]

/-- The stream yields the frames that were encoded, up to the first terminating one, however their
bytes are cut into chunks. -/
theorem drains_frames (frames : List (EncodedFrame crc)) (chunks : List (List UInt8))
    (script : Script (Except E (List UInt8))) (cap : ℕ) (hinp : script.items = chunks.map .ok)
    (hne : ∀ x ∈ chunks, x ≠ []) (hcut : chunks.flatten = frameBytes frames)
    (hcap : ∀ f ∈ frames, ∀ x ∈ chunks, f.bytes.length + x.length ≤ cap) :
    Drains (pollNext crc) (new script cap) (yielded frames) := by
  refine Awaits.drains ⟨⟨rfl, rfl⟩, ⟨chunks, hinp, hne, ?_, ?_⟩, .inl rfl⟩
  · simpa [new] using hcut
  · simpa [new] using hcap

/-- A frame and a terminating one, whose bytes are cut inside the head and delivered with a pause. -/
theorem drains_frames_cut :
    Drains (pollNext (E := Unit) fun _ => 7)
      (new [.ready (.ok ((Frame.makeFrame (fun _ => 7) 5 [1, 2]).take 3)), .pending,
        .ready (.ok ((Frame.makeFrame (fun _ => 7) 5 [1, 2]).drop 3 ++
          Frame.makeFrame (fun _ => 7) termFrameTypeId []))] 80)
      [sitemData ⟨inmemFrameEncid, 5, 2, [1, 2]⟩] :=
  drains_frames
    [(⟨5, [1, 2], _, @InMemoryFrame.Built.frame2 _ (List UInt8) .ok [1, 2] 5 _ _ rfl rfl,
        by decide⟩ : EncodedFrame fun _ => 7), ⟨termFrameTypeId, [], _, .term rfl, by decide⟩]
    [(Frame.makeFrame (fun _ => 7) 5 [1, 2]).take 3, (Frame.makeFrame (fun _ => 7) 5 [1, 2]).drop 3 ++
      Frame.makeFrame (fun _ => 7) termFrameTypeId []] _ 80 rfl (by decide) (by decide) (by decide)

end Run

end InMemoryFrameStream

end Streams
end Daqbuf
