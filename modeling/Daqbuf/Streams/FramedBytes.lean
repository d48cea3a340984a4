import Daqbuf.Arith.Checked
import Daqbuf.Bytes.Endian
import Daqbuf.Bytes.Growable
import Daqbuf.Poll.Loop
/-!
# Length-Framed Bytes

{lit}`bytes_chunks_to_framed` puts a head with the length in front of each chunk and pads it to 8 bytes.
{lit}`FramedBytesStream` takes such frames apart, from bytes that are cut anywhere.  It collects them in a growable
buffer, and makes room in it for a frame whose head it has seen.

The number of bytes to make room for is a difference of unsigned numbers.  It is checked, and a difference below zero
is a panic.

Main results:

- Theorem {lit}`drains_of_not_strained`: every growable buffer yields the payloads, if no frame is strained.
- Theorem {lit}`panics_of_strained`: a tight buffer panics at a strained frame.
- Theorem {lit}`roundTrips_iff`: when every growable buffer yields the payloads.
-/

namespace Daqbuf
namespace Streams

open Arith Bytes GrowableFifo Poll

/-! ## Encoding -/

namespace Lenframe

/-- What {lit}`bytes_chunks_to_framed` makes of one item, before it drops the empty chunks. -/
def framedItem {E : Type*} : Except E (List UInt8) → List (List UInt8)
  | .ok buf =>
      let n := buf.length
      if n = 0 then [[], [], []]
      else
        let adv := (n + 7) / 8 * 8
        let pad := adv - n
        [leBytes 4 (n % 2 ^ 32) ++ List.replicate 12 0, buf, List.replicate pad 0]
  | .error _ => [[], [], []]

/-- {lit}`bytes_chunks_to_framed` -/
def bytesChunksToFramed {E : Type*} (items : List (Except E (List UInt8))) : List (List UInt8) :=
  (items.flatMap framedItem).filter fun x => x.length > 0

end Lenframe

/-! ## Decoding -/

/-- {lit}`FRAME_HEAD_LEN` -/
def frameHeadLen : ℕ := 16

/-- {lit}`FRAME_PAYLOAD_MAX` -/
def framePayloadMax : ℕ := 1024 * 1024 * 8

/-- {lit}`BUF_MAX` -/
def bufMax : ℕ := (frameHeadLen + framePayloadMax) * 2

namespace FramedBytesStream

/-- {lit}`Error` -/
inductive Error where
  | dataInput
  | frameTooLarge
  deriving DecidableEq, Repr

/-- {lit}`State` -/
inductive State where
  | reading
  | done
  deriving DecidableEq, Repr

end FramedBytesStream

open FramedBytesStream in
/-- {lit}`FramedBytesStream`; the polled input is the script of its answers. -/
structure FramedBytesStream (B : Type) where
  inp : Script (Except Error (List UInt8))
  buf : B
  state : State

namespace FramedBytesStream

variable {B : Type} [GrowableFifo B]

/-- {lit}`new` -/
def new (inp : Script (Except Error (List UInt8))) : FramedBytesStream B :=
  { inp := inp, buf := withCapacity (1024 * 256), state := .reading }

/-- The part of {lit}`try_parse` that makes room for a frame; {lit}`none` where it subtracts more than there is. -/
def reserveFor (buf : B) (frameLen : ℕ) : Option B :=
  if capacity buf < frameLen then
    (checkedSub bufMax (min (capacity buf) bufMax)).bind fun addMax =>
      (checkedSub (min frameLen framePayloadMax) (len buf)).map fun missing =>
        reserve buf (min (missing * 2) addMax)
  else
    some buf

/-- {lit}`try_parse`; {lit}`none` where it panics. -/
def tryParse (buf : B) : Option (Except Error (Option (List UInt8)) × B) :=
  if len buf < frameHeadLen then
    some (.ok none, buf)
  else
    let n := ofLe (slice (data buf) 0 4)
    if framePayloadMax < n then
      some (.error .frameTooLarge, buf)
    else
      let frameLen := frameHeadLen + n
      if capacity buf < len buf then
        none
      else
        (reserveFor buf frameLen).map fun buf =>
          let adv := (frameLen + 7) / 8 * 8
          if len buf < adv then
            (.ok none, buf)
          else
            let buf := advance buf frameHeadLen
            let (payload, buf) := splitTo buf n
            let buf := advance buf (adv - frameLen)
            (.ok (some payload), buf)

/-- One pass of {lit}`poll_next`. -/
def pollNext (s : FramedBytesStream B) : Pass (FramedBytesStream B) (Except Error (List UInt8)) :=
  match s.state with
  | .reading =>
      match tryParse s.buf with
      | none => .panic
      | some (.ok (some x), buf) => .item (.ok x) { s with buf := buf }
      | some (.ok none, buf) =>
          match s.inp with
          | .ready (.ok x) :: rest => .again { s with inp := rest, buf := putSlice buf x }
          | .ready (.error e) :: rest => .item (.error e) { s with inp := rest, buf := buf, state := .done }
          | [] => .done { s with buf := buf, state := .done }
          | .pending :: rest => .pending { s with inp := rest, buf := buf }
      | some (.error e, buf) => .item (.error e) { s with buf := buf, state := .done }
  | .done => .done s

end FramedBytesStream

/-! ## Frames -/

/-- The bytes of a frame -/
def frameOf (payload : List UInt8) : List UInt8 :=
  leBytes 4 payload.length ++ List.replicate 12 0 ++ payload ++
    List.replicate ((payload.length + 7) / 8 * 8 - payload.length) 0

/-- The length of a frame without its padding -/
def unpaddedLen (payload : List UInt8) : ℕ := frameHeadLen + payload.length

section Frames

variable {payload rest : List UInt8} {payloads : List (List UInt8)}

theorem length_frameOf : (frameOf payload).length = (unpaddedLen payload + 7) / 8 * 8 := by
  unfold frameOf unpaddedLen frameHeadLen
  rw [List.length_append, List.length_append, List.length_append, length_leBytes, List.length_replicate,
    List.length_replicate]
  omega

theorem unpaddedLen_le_length : unpaddedLen payload ≤ (frameOf payload).length := by
  rw [length_frameOf]
  omega

/-- The encoder lays out the frames one behind the other. -/
theorem flatten_bytesChunksToFramed {E : Type*}
    (hpayloads : ∀ p ∈ payloads, 0 < p.length ∧ p.length ≤ framePayloadMax) :
    (Lenframe.bytesChunksToFramed (payloads.map (.ok : _ → Except E (List UInt8)))).flatten =
      payloads.flatMap frameOf := by
  have hflat : ∀ xss : List (List UInt8), (xss.filter fun x => x.length > 0).flatten = xss.flatten := by
    intro xss
    induction xss with
    | nil => rfl
    | cons x xss ih =>
        cases x with
        | nil => simpa using ih
        | cons b x => simpa using ih
  rw [Lenframe.bytesChunksToFramed, hflat]
  induction payloads with
  | nil => rfl
  | cons p ps ih =>
      obtain ⟨hpos, hmax⟩ := hpayloads p List.mem_cons_self
      have hitem : (Lenframe.framedItem (.ok p : Except E (List UInt8))).flatten = frameOf p := by
        have hlt : p.length < 2 ^ 32 := by
          unfold framePayloadMax at hmax
          omega
        rw [Lenframe.framedItem, if_neg hpos.ne', Nat.mod_eq_of_lt hlt]
        simp [frameOf]
      rw [List.map_cons, List.flatMap_cons, List.flatten_append, hitem, List.flatMap_cons,
        ih fun q hq => hpayloads q (List.mem_cons_of_mem _ hq)]

/-- The head of a frame tells the length of the payload. -/
theorem ofLe_slice_frameOf {held : List UInt8} (hmax : payload.length ≤ framePayloadMax)
    (hheld : held <+: frameOf payload ++ rest) (hhead : frameHeadLen ≤ held.length) : ofLe (slice held 0 4) = payload.length := by
  have h4 : 4 ≤ held.length := by
    unfold frameHeadLen at hhead
    omega
  obtain ⟨more, hmore⟩ := hheld
  have hslice : slice held 0 4 = leBytes 4 payload.length := by
    rw [← @slice_append held more 0 4 h4, hmore]
    simp only [slice, frameOf, List.append_assoc, List.drop_zero]
    exact List.take_left' (length_leBytes 4 payload.length)
  have hlt : payload.length < 256 ^ 4 := by
    unfold framePayloadMax at hmax
    omega
  rw [hslice, ofLe_leBytes_of_lt hlt]

end Frames

namespace FramedBytesStream

/-! ## Passes -/

section Passes

variable {B : Type} [GrowableFifo B]

/-- The length of the first of the frames that are to come, without its padding -/
def wanted : List (List UInt8) → ℕ
  | [] => 0
  | p :: _ => unpaddedLen p

theorem wanted_cons (p : List UInt8) (rest : List (List UInt8)) : wanted (p :: rest) = frameHeadLen + p.length := rfl

/-- So many bytes do not make up the first of the frames. -/
def Lacks (n : ℕ) : List (List UInt8) → Prop
  | [] => True
  | p :: _ => n < (frameOf p).length

/-- More bytes than a payload may have are held, and still less than the frame, for which there is no room. -/
def Strains (buf : B) (frameLen : ℕ) : Prop :=
  frameHeadLen ≤ len buf ∧ capacity buf < frameLen ∧ framePayloadMax < len buf

/-- The buffer with room for the frame whose head it holds. -/
def prepared (buf : B) (frameLen : ℕ) : B :=
  if frameHeadLen ≤ len buf ∧ capacity buf < frameLen then
    reserve buf (min ((min frameLen framePayloadMax - len buf) * 2) (bufMax - min (capacity buf) bufMax))
  else
    buf

/-- The buffer behind a frame. -/
def taken (buf : B) (payload : List UInt8) : B :=
  advance (splitTo (advance buf frameHeadLen) payload.length).2 ((frameOf payload).length - unpaddedLen payload)

variable [LawfulGrowableFifo B] {buf : B} {payload more : List UInt8} {frameLen : ℕ}

theorem data_prepared : data (prepared buf frameLen) = data buf := by
  unfold prepared
  split_ifs
  · exact LawfulGrowableFifo.data_reserve _ _
  · rfl

theorem capacity_le_prepared : capacity buf ≤ capacity (prepared buf frameLen) := by
  unfold prepared
  split_ifs
  · exact (LawfulGrowableFifo.capacity_reserve _ _).1
  · exact le_rfl

/-- Making room subtracts more than there is exactly if the buffer is strained. -/
theorem reserveFor_eq (hhead : frameHeadLen ≤ len buf) :
    (Strains buf frameLen → reserveFor buf frameLen = none) ∧
      (¬ Strains buf frameLen → reserveFor buf frameLen = some (prepared buf frameLen)) := by
  have hcap := LawfulGrowableFifo.len_le_capacity buf
  have hmax : min (capacity buf) bufMax ≤ bufMax := min_le_right _ _
  unfold reserveFor prepared Strains
  rw [checkedSub_of_le hmax, Option.bind_some]
  constructor
  · rintro ⟨-, hsmall, hlarge⟩
    rw [if_pos hsmall, checkedSub_of_lt (min_lt_of_right_lt hlarge), Option.map_none]
  · intro hnot
    by_cases hsmall : capacity buf < frameLen
    · have hle : len buf ≤ min frameLen framePayloadMax := by
        refine le_min (hcap.trans hsmall.le) ?_
        by_contra hlarge
        exact hnot ⟨hhead, hsmall, not_le.mp hlarge⟩
      rw [if_pos hsmall, if_pos ⟨hhead, hsmall⟩, checkedSub_of_le hle, Option.map_some]
    · rw [if_neg hsmall, if_neg fun h => hsmall h.2]

theorem data_taken (hdata : data buf = frameOf payload ++ more) : data (taken buf payload) = more := by
  have hlen : len buf = (frameOf payload).length + more.length := by rw [len, hdata, List.length_append]
  have hle : unpaddedLen payload ≤ (frameOf payload).length := unpaddedLen_le_length
  have h1 : data (advance buf frameHeadLen) = (data buf).drop frameHeadLen := by
    refine LawfulGrowableFifo.data_advance _ _ ?_
    unfold unpaddedLen at hle
    omega
  have hlen1 : len (advance buf frameHeadLen) = len buf - frameHeadLen := by rw [len, h1, List.length_drop, len]
  have h2 := (LawfulGrowableFifo.splitTo_spec (advance buf frameHeadLen) payload.length (by
    unfold unpaddedLen at hle
    omega)).2
  have hlen2 : len (splitTo (advance buf frameHeadLen) payload.length).2 = len buf - unpaddedLen payload := by
    rw [len, h2, List.length_drop, ← len, hlen1, unpaddedLen]
    omega
  rw [taken, LawfulGrowableFifo.data_advance _ _ (by omega), h2, h1, List.drop_drop, List.drop_drop, hdata]
  refine List.drop_left' ?_
  unfold unpaddedLen at hle ⊢
  omega

/-- A frame that is held as a whole is taken. -/
theorem tryParse_whole (hmax : payload.length ≤ framePayloadMax) (hdata : data buf = frameOf payload ++ more) :
    tryParse buf = some (.ok (some payload), taken buf payload) := by
  have hlen : len buf = (frameOf payload).length + more.length := by rw [len, hdata, List.length_append]
  have hle : unpaddedLen payload ≤ (frameOf payload).length := unpaddedLen_le_length
  have hround : (frameHeadLen + payload.length + 7) / 8 * 8 = (frameOf payload).length := length_frameOf.symm
  have hcap := LawfulGrowableFifo.len_le_capacity buf
  have hhead : frameHeadLen ≤ len buf := by
    unfold unpaddedLen at hle
    omega
  have hn : ofLe (slice (data buf) 0 4) = payload.length :=
    ofLe_slice_frameOf hmax (by rw [hdata]) hhead
  -- the frame has room, so no more is made
  have hreserve : reserveFor buf (frameHeadLen + payload.length) = some buf := by
    unfold unpaddedLen at hle
    exact if_neg (by omega)
  have hpayload : (splitTo (advance buf frameHeadLen) payload.length).1 = payload := by
    have hadv : data (advance buf frameHeadLen) = (data buf).drop frameHeadLen :=
      LawfulGrowableFifo.data_advance _ _ hhead
    have hleft : payload.length ≤ len (advance buf frameHeadLen) := by
      rw [len, hadv, List.length_drop, ← len]
      unfold unpaddedLen at hle
      omega
    have hhead16 : (leBytes 4 payload.length ++ List.replicate 12 (0 : UInt8)).length = frameHeadLen := by
      rw [List.length_append, length_leBytes, List.length_replicate, frameHeadLen]
    rw [(LawfulGrowableFifo.splitTo_spec _ _ hleft).1, hadv, hdata, frameOf, List.append_assoc, List.append_assoc,
      List.drop_left' hhead16]
    exact List.take_left' rfl
  rw [tryParse, if_neg (not_lt.mpr hhead), hn, if_neg (not_lt.mpr hmax), if_neg (not_lt.mpr hcap), hreserve,
    Option.map_some, hround, if_neg (by omega)]
  simp only [hpayload, taken, unpaddedLen]

variable {ps : List (List UInt8)}

/-- While the next frame is not held as a whole, room is made for it. -/
theorem tryParse_lacks (hmax : ∀ p ∈ ps, p.length ≤ framePayloadMax) (hdata : data buf <+: ps.flatMap frameOf)
    (hlacks : Lacks (len buf) ps) :
    (Strains buf (wanted ps) → tryParse buf = none) ∧
      (¬ Strains buf (wanted ps) → tryParse buf = some (.ok none, prepared buf (wanted ps))) := by
  by_cases hhead : len buf < frameHeadLen
  · have hprepared : prepared buf (wanted ps) = buf := if_neg fun h => absurd h.1 (not_le.mpr hhead)
    rw [tryParse, if_pos hhead, hprepared]
    exact ⟨fun hstrains => absurd hstrains.1 (not_le.mpr hhead), fun _ => rfl⟩
  · rw [not_lt] at hhead
    cases ps with
    | nil =>
        have hempty : data buf = [] := List.prefix_nil.mp hdata
        rw [len, hempty] at hhead
        exact absurd hhead (by decide)
    | cons p rest =>
        rw [List.flatMap_cons] at hdata
        have hcap := LawfulGrowableFifo.len_le_capacity buf
        have hn : ofLe (slice (data buf) 0 4) = p.length := ofLe_slice_frameOf (hmax p List.mem_cons_self) hdata hhead
        have hround : (frameHeadLen + p.length + 7) / 8 * 8 = (frameOf p).length := length_frameOf.symm
        have hreserve := @reserveFor_eq B _ _ buf (wanted (p :: rest)) hhead
        rw [tryParse, if_neg (not_lt.mpr hhead), hn, if_neg (not_lt.mpr (hmax p List.mem_cons_self)),
          if_neg (not_lt.mpr hcap), hround]
        constructor
        · intro hstrains
          rw [← wanted_cons p rest, hreserve.1 hstrains, Option.map_none]
        · intro hnot
          have hlen : len (prepared buf (wanted (p :: rest))) < (frameOf p).length := by
            rw [len, data_prepared]
            exact hlacks
          rw [← wanted_cons p rest, hreserve.2 hnot, Option.map_some, if_pos hlen]

end Passes

/-! ## Runs -/

/-- Some frame, behind the bytes of those before it, is cut where more bytes than a payload may have are held and
the frame is not yet; and no earlier cut behind its head has made room for it.  At a cut the room is doubled up to
twice the largest payload. -/
def Strained (payloads whole : List (List UInt8)) : Prop :=
  ∃ (done : List (List UInt8)) (p : List UInt8) (rest cs : List (List UInt8)),
    payloads = done ++ p :: rest ∧ cs <+: whole ∧
    (done.flatMap frameOf).length + framePayloadMax < cs.flatten.length ∧
    cs.flatten.length < (done.flatMap frameOf).length + unpaddedLen p ∧
    ∀ cs', cs' <+: whole → (done.flatMap frameOf).length + frameHeadLen ≤ cs'.flatten.length →
      (done.flatMap frameOf).length + 2 * framePayloadMax < cs'.flatten.length + unpaddedLen p

/-- The stream has yielded the first payloads and read the first chunks. -/
structure At {B : Type} [GrowableFifo B] (done ps cs ds : List (List UInt8)) (s : FramedBytesStream B) : Prop where
  reading : s.state = .reading
  items : s.inp.items = ds.map .ok
  held : done.flatMap frameOf ++ data s.buf = cs.flatten
  ahead : data s.buf ++ ds.flatten = ps.flatMap frameOf

section Runs

variable {B : Type} [GrowableFifo B] {done ps cs ds : List (List UInt8)} {p x : List UInt8} {s : FramedBytesStream B}

theorem At.length_eq (hs : At done ps cs ds s) :
    (done.flatMap frameOf).length + len s.buf = cs.flatten.length := by
  rw [← hs.held, List.length_append, len]

theorem At.prefix_ahead (hs : At done ps cs ds s) : data s.buf <+: ps.flatMap frameOf := ⟨_, hs.ahead⟩

variable [LawfulGrowableFifo B]

/-- A frame that is held as a whole is yielded. -/
theorem At.pollNext_frame (hs : At done (p :: ps) cs ds s) (hmax : p.length ≤ framePayloadMax)
    (hwhole : (frameOf p).length ≤ len s.buf) :
    pollNext s = .item (.ok p) { s with buf := taken s.buf p } ∧
      At (done ++ [p]) ps cs ds { s with buf := taken s.buf p } := by
  have hprefix : frameOf p <+: data s.buf := by
    refine List.prefix_of_prefix_length_le ?_ hs.prefix_ahead hwhole
    rw [List.flatMap_cons]
    exact List.prefix_append _ _
  obtain ⟨more, hmore⟩ := hprefix
  have hdata : data (taken s.buf p) = more := data_taken hmore.symm
  refine ⟨?_, hs.reading, hs.items, ?_, ?_⟩
  · simp only [pollNext, hs.reading, tryParse_whole hmax hmore.symm]
  · change (done ++ [p]).flatMap frameOf ++ data (taken s.buf p) = cs.flatten
    rw [hdata, ← hs.held, ← hmore, List.flatMap_append, List.flatMap_singleton, List.append_assoc]
  · have hahead := hs.ahead
    rw [← hmore, List.flatMap_cons, List.append_assoc] at hahead
    change data (taken s.buf p) ++ ds.flatten = ps.flatMap frameOf
    rw [hdata]
    exact List.append_cancel_left hahead

/-- A strained buffer is a panic. -/
theorem At.pollNext_strains (hs : At done ps cs ds s) (hmax : ∀ p ∈ ps, p.length ≤ framePayloadMax)
    (hlacks : Lacks (len s.buf) ps) (hstrains : Strains s.buf (wanted ps)) : pollNext s = .panic := by
  simp only [pollNext, hs.reading, (tryParse_lacks hmax hs.prefix_ahead hlacks).1 hstrains]

/-- What a pass that needs input can do: it reads a chunk, it waits, or it ends where nothing is left. -/
inductive Outcome (done ps cs ds : List (List UInt8)) (s : FramedBytesStream B) :
    Pass (FramedBytesStream B) (Except Error (List UInt8)) → Prop
  | chunk {t x rest} (hds : ds = x :: rest) (hbuf : t.buf = putSlice (prepared s.buf (wanted ps)) x)
      (ht : At done ps (cs ++ [x]) rest t) (hlt : t.inp.length < s.inp.length) : Outcome done ps cs ds s (.again t)
  | pending {t} (hbuf : t.buf = prepared s.buf (wanted ps)) (ht : At done ps cs ds t)
      (hlt : t.inp.length < s.inp.length) : Outcome done ps cs ds s (.pending t)
  | finish {t} (hps : ps = []) (hds : ds = []) : Outcome done ps cs ds s (.done t)

/-- What a pass that needs input does. -/
theorem At.outcome (hs : At done ps cs ds s) (hmax : ∀ p ∈ ps, p.length ≤ framePayloadMax)
    (hlacks : Lacks (len s.buf) ps) (hstrains : ¬ Strains s.buf (wanted ps)) :
    Outcome done ps cs ds s (pollNext s) := by
  have hparse := (tryParse_lacks hmax hs.prefix_ahead hlacks).2 hstrains
  have hdata : data (prepared s.buf (wanted ps)) = data s.buf := data_prepared
  have hitems := hs.items
  cases hinp : s.inp with
  | nil =>
      have hpass : pollNext s = .done { s with buf := prepared s.buf (wanted ps), state := .done } := by
        simp only [pollNext, hs.reading, hparse, hinp]
      obtain rfl : ds = [] := by simpa [hinp] using hitems
      have hps : ps = [] := by
        cases ps with
        | nil => rfl
        | cons p ps =>
            have hahead := hs.ahead
            rw [List.flatten_nil, List.append_nil, List.flatMap_cons] at hahead
            rw [Lacks, len, hahead, List.length_append] at hlacks
            omega
      rw [hpass]
      exact .finish hps rfl
  | cons answer rest =>
      rcases answer with _ | ⟨e | x⟩
      · have hpass : pollNext s = .pending { s with inp := rest, buf := prepared s.buf (wanted ps) } := by
          simp only [pollNext, hs.reading, hparse, hinp]
        rw [hpass]
        refine .pending rfl ⟨hs.reading, ?_, ?_, ?_⟩ (by rw [hinp]; exact Nat.lt_succ_self _)
        · simpa [hinp] using hitems
        · simpa [hdata] using hs.held
        · simpa [hdata] using hs.ahead
      · rw [hinp, Script.items_ready] at hitems
        cases ds with
        | nil => cases hitems
        | cons d ds => cases (List.cons.inj hitems).1
      · rw [hinp, Script.items_ready] at hitems
        cases ds with
        | nil => cases hitems
        | cons d ds =>
            obtain ⟨hxd, hrest⟩ := List.cons.inj hitems
            obtain rfl := Except.ok.inj hxd
            have hpass : pollNext s =
                .again { s with inp := rest, buf := putSlice (prepared s.buf (wanted ps)) x } := by
              simp only [pollNext, hs.reading, hparse, hinp]
            have hput : data (putSlice (prepared s.buf (wanted ps)) x) = data s.buf ++ x := by
              rw [LawfulGrowableFifo.data_putSlice, hdata]
            rw [hpass]
            refine .chunk rfl rfl ⟨hs.reading, hrest, ?_, ?_⟩ (by rw [hinp]; exact Nat.lt_succ_self _)
            · change done.flatMap frameOf ++ data (putSlice (prepared s.buf (wanted ps)) x) = (cs ++ [x]).flatten
              rw [hput, ← List.append_assoc, hs.held, List.flatten_append, List.flatten_singleton]
            · change data (putSlice (prepared s.buf (wanted ps)) x) ++ ds.flatten = ps.flatMap frameOf
              rw [hput, List.append_assoc, ← List.flatten_cons, hs.ahead]

/-- At every earlier cut the next frame was not yet held, and it has room or there was no cut that makes room. -/
def Roomed (before : ℕ) (cs : List (List UInt8)) (cap : ℕ) (p : List UInt8) : Prop :=
  ∀ cs', cs' <+: cs → cs' ≠ cs → cs'.flatten.length < before + (frameOf p).length ∧
    (unpaddedLen p ≤ cap ∨ (before + frameHeadLen ≤ cs'.flatten.length →
      before + 2 * framePayloadMax < cs'.flatten.length + unpaddedLen p))

/-- The stream is on its way, and has made room where it could. -/
structure Ready (payloads whole done ps cs ds : List (List UInt8)) (s : FramedBytesStream B) : Prop
    extends At done ps cs ds s where
  payloads_eq : payloads = done ++ ps
  whole_eq : whole = cs ++ ds
  roomed : ∀ p ∈ ps.head?, Roomed (done.flatMap frameOf).length cs (capacity s.buf) p

variable {payloads whole : List (List UInt8)}

/-- A cut behind the head makes room, unless more than the frames before and twice the largest payload is asked for. -/
theorem capacity_prepared {buf : B} {frameLen : ℕ} (hhead : frameHeadLen ≤ len buf) (hnot : ¬ Strains buf frameLen)
    (hmax : frameLen ≤ frameHeadLen + framePayloadMax) (hsmall : len buf + frameLen ≤ 2 * framePayloadMax) :
    frameLen ≤ capacity (prepared buf frameLen) := by
  have hcap := LawfulGrowableFifo.len_le_capacity buf
  unfold prepared
  split_ifs with hroom
  · have hlen : len buf ≤ framePayloadMax := by
      by_contra hlarge
      exact hnot ⟨hhead, hroom.2, not_le.mp hlarge⟩
    refine le_trans ?_ (LawfulGrowableFifo.capacity_reserve _ _).2
    unfold bufMax
    omega
  · exact not_lt.mp fun h => hroom ⟨hhead, h⟩

/-- A buffer that is strained on the way is one at a strained frame. -/
theorem Ready.not_strains (hs : Ready payloads whole done ps cs ds s) (hnot : ¬ Strained payloads whole) :
    ¬ Strains s.buf (wanted ps) := by
  rintro ⟨hhead, hsmall, hlarge⟩
  have hcap := LawfulGrowableFifo.len_le_capacity s.buf
  have hlen := hs.length_eq
  cases ps with
  | nil => exact absurd hsmall (Nat.not_lt_zero _)
  | cons p rest =>
      have hunpadded : wanted (p :: rest) = unpaddedLen p := rfl
      refine hnot ⟨done, p, rest, cs, hs.payloads_eq, ⟨ds, hs.whole_eq.symm⟩, by omega, by omega, ?_⟩
      intro cs' hcs' hcut
      -- a cut is an earlier one, or one at which still more is held
      rcases List.prefix_or_prefix_of_prefix hcs' ⟨ds, hs.whole_eq.symm⟩ with hearlier | hlater
      · by_cases heq : cs' = cs
        · subst heq
          omega
        · rcases (hs.roomed p rfl cs' hearlier heq).2 with hroom | hearly
          · omega
          · exact hearly hcut
      · have hle := hlater.flatten.length_le
        omega

/-- Behind a chunk there is room, if there could be made some. -/
theorem Roomed.concat {before : ℕ} {buf : B} (hroomed : Roomed before cs (capacity buf) p)
    (hlen : before + len buf = cs.flatten.length) (hmax : p.length ≤ framePayloadMax)
    (hlacks : len buf < (frameOf p).length) (hnot : ¬ Strains buf (unpaddedLen p)) {cap : ℕ}
    (hcap : capacity (prepared buf (unpaddedLen p)) ≤ cap) : Roomed before (cs ++ [x]) cap p := by
  intro cs' hprefix hne
  have hgrown := @capacity_le_prepared B _ _ buf (unpaddedLen p)
  have hcs' : cs' <+: cs := (List.prefix_concat_iff.mp hprefix).resolve_left hne
  by_cases heq : cs' = cs
  · subst heq
    refine ⟨by omega, ?_⟩
    by_cases hsmall : len buf + unpaddedLen p ≤ 2 * framePayloadMax
    · by_cases hhead : frameHeadLen ≤ len buf
      · left
        refine le_trans (capacity_prepared hhead hnot ?_ hsmall) hcap
        unfold unpaddedLen
        omega
      · exact Or.inr fun hcut => by omega
    · exact Or.inr fun _ => by omega
  · obtain ⟨hcut, hroom⟩ := hroomed cs' hcs' heq
    exact ⟨hcut, hroom.imp_left fun h => by omega⟩

/-- Behind a frame there is no cut yet that makes room for the next one. -/
theorem Roomed.next {before cap : ℕ} {q : List UInt8} (hroomed : Roomed before cs cap p) {cap' : ℕ} :
    Roomed (before + (frameOf p).length) cs cap' q := by
  intro cs' hprefix hne
  have hcut := (hroomed cs' hprefix hne).1
  exact ⟨by omega, Or.inr fun h => by omega⟩

/-- If no frame is strained, the stream yields the payloads that are left, and ends. -/
theorem Ready.drains (hs : Ready payloads whole done ps cs ds s)
    (hsizes : ∀ p ∈ payloads, p.length ≤ framePayloadMax) (hnot : ¬ Strained payloads whole) :
    Drains pollNext s (ps.map .ok) := by
  -- induction on the answers and the payloads that are left
  induction hn : s.inp.length + ps.length using Nat.strong_induction_on generalizing done ps cs ds s with
  | h n ih =>
      have hmax : ∀ p ∈ ps, p.length ≤ framePayloadMax := by
        intro p hp
        exact hsizes p (by rw [hs.payloads_eq]; exact List.mem_append_right _ hp)
      by_cases hlacks : Lacks (len s.buf) ps
      · have hstrains := hs.not_strains hnot
        have houtcome := hs.toAt.outcome hmax hlacks hstrains
        generalize hpass : pollNext s = pass at houtcome
        cases houtcome with
        | @chunk t x rest hds hbuf ht hlt =>
            refine .of_again hpass (ih _ (by omega) ⟨ht, hs.payloads_eq, ?_, ?_⟩ rfl)
            · rw [hs.whole_eq, hds, List.append_assoc, List.singleton_append]
            · intro p hp
              obtain ⟨rest, rfl⟩ := List.head?_eq_some_iff.mp hp
              refine (hs.roomed p hp).concat hs.length_eq (hmax p List.mem_cons_self) hlacks hstrains ?_
              rw [hbuf]
              exact LawfulGrowableFifo.capacity_putSlice _ _
        | @pending t hbuf ht hlt =>
            refine .of_pending hpass (ih _ (by omega) ⟨ht, hs.payloads_eq, hs.whole_eq, ?_⟩ rfl)
            intro p hp cs' hprefix hne
            obtain ⟨hcut, hroom⟩ := hs.roomed p hp cs' hprefix hne
            refine ⟨hcut, hroom.imp_left fun h => h.trans ?_⟩
            rw [hbuf]
            exact capacity_le_prepared
        | finish hps hds =>
            subst hps
            exact .of_done hpass
      · cases ps with
        | nil => exact absurd trivial hlacks
        | cons p ps =>
            obtain ⟨hpass, hat⟩ := hs.toAt.pollNext_frame (hmax p List.mem_cons_self) (not_lt.mp hlacks)
            refine .of_item hpass (ih _ ?_ ⟨hat, ?_, hs.whole_eq, ?_⟩ rfl)
            · rw [← hn, List.length_cons]
              exact Nat.lt_succ_self _
            · rw [hs.payloads_eq, List.append_assoc, List.singleton_append]
            · intro q hq
              rw [List.flatMap_append, List.flatMap_singleton, List.length_append]
              exact (hs.roomed p rfl).next

end Runs

/-! ## The tight buffer -/

/-- The strained frame is still ahead, and so is the cut at which it is. -/
structure Doomed (whole mid : List (List UInt8)) (p₀ : List UInt8) (rest₀ c₀ done cs ds : List (List UInt8))
    (s : FramedBytesStream TightFifo) : Prop extends At done (mid ++ p₀ :: rest₀) cs ds s where
  whole_eq : whole = cs ++ ds
  cut : cs <+: c₀
  cut_whole : c₀ <+: whole
  held_lt : c₀.flatten.length < ((done ++ mid).flatMap frameOf).length + unpaddedLen p₀
  lt_held : ((done ++ mid).flatMap frameOf).length + framePayloadMax < c₀.flatten.length
  early : ∀ cs', cs' <+: whole → ((done ++ mid).flatMap frameOf).length + frameHeadLen ≤ cs'.flatten.length →
    ((done ++ mid).flatMap frameOf).length + 2 * framePayloadMax < cs'.flatten.length + unpaddedLen p₀
  small : mid = [] → capacity s.buf < unpaddedLen p₀

section Tight

variable {whole mid rest₀ c₀ done cs ds : List (List UInt8)} {p₀ q x : List UInt8} {s t : FramedBytesStream TightFifo}

theorem Doomed.length_cut (hs : Doomed whole mid p₀ rest₀ c₀ done cs ds s) : cs.flatten.length ≤ c₀.flatten.length :=
  hs.cut.flatten.length_le

/-- Before the cut there is a chunk that is still to be read. -/
theorem Doomed.cut_concat (hs : Doomed whole mid p₀ rest₀ c₀ done cs (x :: ds) s) (hne : cs ≠ c₀) : cs ++ [x] <+: c₀ := by
  obtain ⟨more, rfl⟩ := hs.cut
  have hmore : more <+: x :: ds := by
    refine (List.prefix_append_right_inj cs).mp ?_
    rw [← hs.whole_eq]
    exact hs.cut_whole
  cases more with
  | nil => exact absurd (List.append_nil cs).symm hne
  | cons y more =>
      obtain rfl := (List.cons_prefix_cons.mp hmore).1
      exact ⟨more, by rw [List.append_assoc, List.singleton_append]⟩

/-- While frames before the strained one are not yielded, its cut is still ahead. -/
theorem Doomed.cut_ne (hs : Doomed whole (q :: mid) p₀ rest₀ c₀ done cs ds s)
    (hlacks : len s.buf < (frameOf q).length) : cs ≠ c₀ := by
  rintro rfl
  have hlt := hs.lt_held
  rw [List.flatMap_append, List.flatMap_cons, List.length_append, List.length_append] at hlt
  have hlen := hs.length_eq
  omega

/-- No room is made for the strained frame before its cut. -/
theorem Doomed.capacity_prepared (hs : Doomed whole [] p₀ rest₀ c₀ done cs ds s)
    (hnot : ¬ Strains s.buf (unpaddedLen p₀)) : capacity (prepared s.buf (unpaddedLen p₀)) < unpaddedLen p₀ := by
  have hlen := hs.length_eq
  have hsmall := hs.small rfl
  have hlt := hs.lt_held
  have hheld := hs.held_lt
  rw [List.append_nil] at hlt hheld
  unfold prepared
  split_ifs with hroom
  · have hle : len s.buf ≤ framePayloadMax := by
      by_contra hlarge
      exact hnot ⟨hroom.1, hroom.2, not_le.mp hlarge⟩
    have hearly := hs.early cs (hs.cut.trans hs.cut_whole)
    rw [List.append_nil] at hearly
    have hfar := hearly (by omega)
    rw [TightFifo.capacity_reserve_eq]
    omega
  · exact hsmall

/-- It is still ahead behind a chunk. -/
theorem Doomed.chunk (hs : Doomed whole mid p₀ rest₀ c₀ done cs (x :: ds) s) (hcut : cs ≠ c₀)
    (hnot : ¬ Strains s.buf (wanted (mid ++ p₀ :: rest₀)))
    (hbuf : t.buf = putSlice (prepared s.buf (wanted (mid ++ p₀ :: rest₀))) x)
    (ht : At done (mid ++ p₀ :: rest₀) (cs ++ [x]) ds t) : Doomed whole mid p₀ rest₀ c₀ done (cs ++ [x]) ds t := by
  have hconcat := hs.cut_concat hcut
  refine { hs with toAt := ht, whole_eq := ?_, cut := hconcat, small := ?_ }
  · rw [hs.whole_eq, List.append_assoc, List.singleton_append]
  · intro hmid
    subst hmid
    have hroom := hs.capacity_prepared hnot
    have hheld := hs.held_lt
    have hnew := ht.length_eq
    have hle := hconcat.flatten.length_le
    have hput : len t.buf = len s.buf + x.length := by
      rw [len, hbuf, LawfulGrowableFifo.data_putSlice, data_prepared, List.length_append, len]
    have hprepared : len (prepared s.buf (unpaddedLen p₀)) = len s.buf := by rw [len, data_prepared, len]
    rw [List.append_nil] at hheld
    change t.buf = putSlice (prepared s.buf (unpaddedLen p₀)) x at hbuf
    rw [hbuf, TightFifo.capacity_putSlice_eq, hprepared]
    omega

/-- It is still ahead behind a pending answer. -/
theorem Doomed.pending (hs : Doomed whole mid p₀ rest₀ c₀ done cs ds s)
    (hnot : ¬ Strains s.buf (wanted (mid ++ p₀ :: rest₀))) (hbuf : t.buf = prepared s.buf (wanted (mid ++ p₀ :: rest₀)))
    (ht : At done (mid ++ p₀ :: rest₀) cs ds t) : Doomed whole mid p₀ rest₀ c₀ done cs ds t := by
  refine { hs with toAt := ht, small := ?_ }
  intro hmid
  subst hmid
  rw [hbuf]
  exact hs.capacity_prepared hnot

/-- It is still ahead behind an earlier frame. -/
theorem Doomed.frame (hs : Doomed whole (q :: mid) p₀ rest₀ c₀ done cs ds s)
    (hat : At (done ++ [q]) (mid ++ p₀ :: rest₀) cs ds { s with buf := taken s.buf q }) :
    Doomed whole mid p₀ rest₀ c₀ (done ++ [q]) cs ds { s with buf := taken s.buf q } := by
  have hdone : done ++ q :: mid = (done ++ [q]) ++ mid := by rw [List.append_assoc, List.singleton_append]
  refine ⟨hat, hs.whole_eq, hs.cut, hs.cut_whole, hdone ▸ hs.held_lt, hdone ▸ hs.lt_held, hdone ▸ hs.early, ?_⟩
  intro hmid
  subst hmid
  have hheld := hs.held_lt
  have hlen := hat.length_eq
  have hle := hs.length_cut
  change len (taken s.buf q) < unpaddedLen p₀
  change ((done ++ [q]).flatMap frameOf).length + len (taken s.buf q) = _ at hlen
  omega

/-- The cut is not passed, since the frame is strained there. -/
theorem Doomed.cut_ahead (hs : Doomed whole mid p₀ rest₀ c₀ done cs ds s) (hlacks : Lacks (len s.buf) (mid ++ p₀ :: rest₀))
    (hnot : ¬ Strains s.buf (wanted (mid ++ p₀ :: rest₀))) : cs ≠ c₀ := by
  cases mid with
  | cons q mid => exact hs.cut_ne hlacks
  | nil =>
      rintro rfl
      have hlen := hs.length_eq
      have hlt := hs.lt_held
      rw [List.append_nil] at hlt
      refine hnot ⟨?_, hs.small rfl, by omega⟩
      unfold framePayloadMax at hlt
      unfold frameHeadLen
      omega

/-- The strained frame is never held as a whole. -/
theorem Doomed.lacks (hs : Doomed whole [] p₀ rest₀ c₀ done cs ds s) : len s.buf < (frameOf p₀).length := by
  have hheld := hs.held_lt
  have hlen := hs.length_eq
  have hle := hs.length_cut
  have hframe : unpaddedLen p₀ ≤ (frameOf p₀).length := unpaddedLen_le_length
  rw [List.append_nil] at hheld
  omega

/-- A strained frame that is still ahead makes the stream with the tight buffer panic. -/
theorem Doomed.panics (hs : Doomed whole mid p₀ rest₀ c₀ done cs ds s)
    (hmax : ∀ p ∈ mid ++ p₀ :: rest₀, p.length ≤ framePayloadMax) : Panics pollNext s := by
  -- induction on the answers and the payloads that are left
  induction hn : s.inp.length + mid.length using Nat.strong_induction_on generalizing mid done cs ds s with
  | h n ih =>
      by_cases hlacks : Lacks (len s.buf) (mid ++ p₀ :: rest₀)
      · by_cases hstrains : Strains s.buf (wanted (mid ++ p₀ :: rest₀))
        · exact ⟨[], s, .refl, hs.toAt.pollNext_strains hmax hlacks hstrains⟩
        · have houtcome := hs.toAt.outcome hmax hlacks hstrains
          generalize hpass : pollNext s = pass at houtcome
          cases houtcome with
          | @chunk t x rest hds hbuf ht hlt =>
              subst hds
              have hnext := hs.chunk (hs.cut_ahead hlacks hstrains) hstrains hbuf ht
              obtain ⟨ys, u, hrun, hpanic⟩ := ih _ (by omega) hnext hmax rfl
              exact ⟨ys, u, hrun.again_head hpass, hpanic⟩
          | @pending t hbuf ht hlt =>
              obtain ⟨ys, u, hrun, hpanic⟩ := ih _ (by omega) (hs.pending hstrains hbuf ht) hmax rfl
              exact ⟨ys, u, hrun.pending_head hpass, hpanic⟩
          | finish hps hds => exact absurd hps (by simp)
      · cases mid with
        | nil => exact absurd hs.lacks hlacks
        | cons q mid =>
            obtain ⟨hpass, hat⟩ := hs.toAt.pollNext_frame (hmax q List.mem_cons_self) (not_lt.mp hlacks)
            have hshorter : s.inp.length + mid.length < n := by
              rw [← hn, List.length_cons]
              exact Nat.lt_succ_self _
            obtain ⟨ys, u, hrun, hpanic⟩ :=
              ih _ hshorter (hs.frame hat) (fun p hp => hmax p (List.mem_cons_of_mem _ hp)) rfl
            exact ⟨_, u, hrun.item_head hpass, hpanic⟩

end Tight

/-! ## Round trips -/

/-- Every growable buffer yields the payloads, and the stream ends. -/
def RoundTrips (payloads : List (List UInt8)) (script : Script (Except Error (List UInt8))) : Prop :=
  ∀ (B : Type) [GrowableFifo B] [LawfulGrowableFifo B],
    Drains pollNext (new script : FramedBytesStream B) (payloads.map .ok)

section RoundTrips

variable {payloads whole : List (List UInt8)} {script : Script (Except Error (List UInt8))}

/-- At the start all is ahead. -/
theorem at_new {B : Type} [GrowableFifo B] [LawfulGrowableFifo B] (hitems : script.items = whole.map .ok)
    (hwhole : whole.flatten = payloads.flatMap frameOf) : At [] payloads [] whole (new script : FramedBytesStream B) := by
  have hempty : data (new script : FramedBytesStream B).buf = [] := LawfulGrowableFifo.data_withCapacity _
  exact ⟨rfl, hitems, by rw [hempty]; rfl, by rw [hempty, hwhole]; rfl⟩

/-- Every growable buffer yields the payloads, if no frame is strained. -/
theorem drains_of_not_strained {B : Type} [GrowableFifo B] [LawfulGrowableFifo B]
    (hsizes : ∀ p ∈ payloads, p.length ≤ framePayloadMax) (hitems : script.items = whole.map .ok)
    (hwhole : whole.flatten = payloads.flatMap frameOf) (hnot : ¬ Strained payloads whole) :
    Drains pollNext (new script : FramedBytesStream B) (payloads.map .ok) := by
  have hready : Ready payloads whole [] payloads [] whole (new script : FramedBytesStream B) := by
    refine ⟨at_new hitems hwhole, rfl, rfl, fun p _ cs' hprefix hne => ?_⟩
    exact absurd (List.prefix_nil.mp hprefix) hne
  exact hready.drains hsizes hnot

/-- A tight buffer panics at a strained frame. -/
theorem panics_of_strained (hsizes : ∀ p ∈ payloads, p.length ≤ framePayloadMax)
    (hitems : script.items = whole.map .ok) (hwhole : whole.flatten = payloads.flatMap frameOf)
    (hstrained : Strained payloads whole) : Panics pollNext (new script : FramedBytesStream TightFifo) := by
  obtain ⟨mid, p₀, rest₀, c₀, rfl, hcut, hlt, hheld, hearly⟩ := hstrained
  have hdoomed : Doomed whole mid p₀ rest₀ c₀ [] [] whole (new script : FramedBytesStream TightFifo) := by
    refine ⟨at_new hitems hwhole, rfl, List.nil_prefix, hcut, hheld, hlt, hearly, fun _ => ?_⟩
    change 1024 * 256 < unpaddedLen p₀
    unfold framePayloadMax at hlt
    omega
  exact hdoomed.panics hsizes

/-- For every list of payloads that are not empty and not too long, and every way to cut the encoded bytes into
chunks: all growable buffers yield the payloads and end, exactly if no frame is strained. -/
theorem roundTrips_iff {E : Type} (payloads whole : List (List UInt8)) (script : Script (Except Error (List UInt8)))
    (hsizes : ∀ p ∈ payloads, 0 < p.length ∧ p.length ≤ framePayloadMax)
    (hwhole : whole.flatten = (Lenframe.bytesChunksToFramed (payloads.map (.ok : _ → Except E (List UInt8)))).flatten)
    (hitems : script.items = whole.map .ok) : RoundTrips payloads script ↔ ¬ Strained payloads whole := by
  have hframes : whole.flatten = payloads.flatMap frameOf := by rw [hwhole, flatten_bytesChunksToFramed hsizes]
  have hmax : ∀ p ∈ payloads, p.length ≤ framePayloadMax := fun p hp => (hsizes p hp).2
  constructor
  · intro htrips hstrained
    exact (htrips TightFifo).not_panics (panics_of_strained hmax hitems hframes hstrained)
  · intro hnot B _ _
    exact drains_of_not_strained hmax hitems hframes hnot

/-- A small payload, its frame cut in the middle of the head and of the padding. -/
theorem roundTrips_small :
    RoundTrips [[1, 2, 3]]
        (Script.ofItems ([[3, 0, 0], [0, 0, 0, 0, 0, 0, 0, 0, 0, 0, 0, 0, 0, 1, 2, 3, 0], [0, 0, 0, 0]].map .ok)) ↔
      ¬ Strained [[1, 2, 3]] [[3, 0, 0], [0, 0, 0, 0, 0, 0, 0, 0, 0, 0, 0, 0, 0, 1, 2, 3, 0], [0, 0, 0, 0]] :=
  roundTrips_iff (E := Unit) _ _ _ (by decide) (by decide) (Script.items_ofItems _)

/-- The bytes of a frame, cut two bytes behind as many bytes as the largest payload has -/
def cutFrame (p : List UInt8) : List (List UInt8) :=
  [(frameOf p).take (framePayloadMax + 2), (frameOf p).drop (framePayloadMax + 2)]

/-- There the frame of the largest payload is strained. -/
theorem strained_of_cut {p : List UInt8} (hp : p.length = framePayloadMax) :
    Strained [p] (cutFrame p) := by
  have hframe : unpaddedLen p ≤ (frameOf p).length := unpaddedLen_le_length
  have hunpadded : unpaddedLen p = frameHeadLen + framePayloadMax := by rw [unpaddedLen, hp]
  have htake : ((frameOf p).take (framePayloadMax + 2)).length = framePayloadMax + 2 := by
    rw [List.length_take, min_eq_left]
    unfold frameHeadLen at hunpadded
    omega
  refine ⟨[], p, [], [(frameOf p).take (framePayloadMax + 2)], rfl, ⟨[_], rfl⟩, ?_, ?_, ?_⟩
  · rw [List.flatten_singleton, htake, List.flatMap_nil, List.length_nil]
    omega
  · rw [List.flatten_singleton, htake, List.flatMap_nil, List.length_nil, hunpadded, frameHeadLen]
    omega
  · intro cs' hprefix hcut
    rw [List.flatMap_nil, List.length_nil] at hcut ⊢
    cases cs' with
    | nil => exact absurd hcut (by decide)
    | cons c cs' =>
        obtain rfl := (List.cons_prefix_cons.mp hprefix).1
        rw [List.flatten_cons, List.length_append, htake, hunpadded, frameHeadLen]
        omega

/-- A payload of the largest size does not come back from a frame that is cut there. -/
theorem not_roundTrips_of_cut {p : List UInt8} (hp : p.length = framePayloadMax) :
    (cutFrame p).flatten = (Lenframe.bytesChunksToFramed ([p].map (.ok : _ → Except Unit (List UInt8)))).flatten ∧
      ¬ RoundTrips [p] (Script.ofItems ((cutFrame p).map .ok)) := by
  have hsizes : ∀ q ∈ [p], 0 < q.length ∧ q.length ≤ framePayloadMax := by
    intro q hq
    obtain rfl := List.mem_singleton.mp hq
    exact ⟨by rw [hp]; decide, hp.le⟩
  have hframes : (cutFrame p).flatten = [p].flatMap frameOf := by
    rw [cutFrame, List.flatten_cons, List.flatten_singleton, List.take_append_drop, List.flatMap_singleton]
  refine ⟨by rw [flatten_bytesChunksToFramed hsizes, hframes], fun htrips => ?_⟩
  exact (htrips TightFifo).not_panics
    (panics_of_strained (fun q hq => (hsizes q hq).2) (Script.items_ofItems _) hframes (strained_of_cut hp))

/-- A payload of zeros that is as large as a payload may be does not come back, when the first chunk of its frame holds
two bytes more than that. -/
theorem not_roundTrips_largest :
    (cutFrame (List.replicate framePayloadMax 0)).flatten = (Lenframe.bytesChunksToFramed
        ([List.replicate framePayloadMax 0].map (.ok : _ → Except Unit (List UInt8)))).flatten ∧
      ¬ RoundTrips [List.replicate framePayloadMax 0]
        (Script.ofItems ((cutFrame (List.replicate framePayloadMax 0)).map .ok)) :=
  not_roundTrips_of_cut List.length_replicate

end RoundTrips

end FramedBytesStream

end Streams
end Daqbuf
