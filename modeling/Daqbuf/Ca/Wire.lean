import Daqbuf.Ca.Proto
/-!
# Channel Access Messages on the Wire

A message is a header of 16 bytes, for long payloads and great counts an extension of 8 bytes, and its
payload.  The header states of the parser cut it off the buffer piece by piece.

Main results:

- Theorem {lit}`headInfoFromNetbuf_head`: the standard header is read back.
- Theorem {lit}`cuts_wire`: the header states cut a message on the wire off the buffer.
- Theorem {lit}`Standing.takes`: when the next piece of a message is held, an attempt to parse takes it.
-/

namespace Daqbuf
namespace Ca

open Bytes

/-! ## The layout -/

/-- The standard header; the size of the payload and the count are those that stand in it. -/
def stdHeadBytes (hi : HeadInfo) (size count : ℕ) : List UInt8 :=
  beBytes 2 hi.cmdid.toNat ++ beBytes 2 size ++ beBytes 2 hi.dataType.toNat ++ beBytes 2 count ++
    beBytes 4 hi.param1.toNat ++ beBytes 4 hi.param2.toNat

/-- The extension of the header. -/
def extHeadBytes (hi : HeadInfo) : List UInt8 :=
  beBytes 4 hi.payloadSize.toNat ++ beBytes 4 hi.dataCount.toNat

/-- The header of a message as it stands on the wire. -/
def headBytes (hi : HeadInfo) : List UInt8 :=
  if hi.isExt then stdHeadBytes hi 0xffff 0 ++ extHeadBytes hi
  else stdHeadBytes hi hi.payloadSize.toNat hi.dataCount.toNat

/-- A header and a payload that make a message on the wire. -/
structure WellFormed (hi : HeadInfo) (payload : List UInt8) : Prop where
  size : payload.length = hi.payloadSize.toNat
  std : hi.isExt = false → hi.payloadSize.toNat < 0xffff ∧ hi.dataCount.toNat ≤ 0xffff

/-- What the standard header of an extended one holds. -/
def HeadInfo.stdInfo (hi : HeadInfo) : HeadInfo :=
  { hi with payloadSize := 0xffff, dataCount := 0, isExt := false }

@[simp]
theorem length_stdHeadBytes (hi : HeadInfo) (size count : ℕ) :
    (stdHeadBytes hi size count).length = 16 := by
  simp [stdHeadBytes]

@[simp]
theorem length_extHeadBytes (hi : HeadInfo) : (extHeadBytes hi).length = 8 := by
  simp [extHeadBytes]

theorem u16OfBe_beBytes (x : UInt16) : u16OfBe (beBytes 2 x.toNat) = x := by
  have hlt : x.toNat < 256 ^ 2 := by simpa using x.toNat_lt
  rw [u16OfBe, ofBe_beBytes_of_lt hlt, UInt16.ofNat_toNat]

theorem u32OfBe_beBytes (x : UInt32) : u32OfBe (beBytes 4 x.toNat) = x := by
  have hlt : x.toNat < 256 ^ 4 := by simpa using x.toNat_lt
  rw [u32OfBe, ofBe_beBytes_of_lt hlt, UInt32.ofNat_toNat]

/-- A small 32-bit word is read back from a field of 16 bits. -/
theorem u32OfBe_beBytes_two {x : UInt32} (hx : x.toNat ≤ 0xffff) : u32OfBe (beBytes 2 x.toNat) = x := by
  have hlt : x.toNat < 256 ^ 2 := by omega
  rw [u32OfBe, ofBe_beBytes_of_lt hlt, UInt32.ofNat_toNat]

/-! ## Reading the layout -/

section Read

variable {B : Type} [ByteQueue B] [LawfulByteQueue B] {q : B}

/-- The bytes in front are taken off the buffer. -/
theorem take_append {xs rest : List UInt8} (hdata : ByteQueue.data q = xs ++ rest) :
    ∃ q', ByteQueue.take q xs.length = some (xs, q') ∧ ByteQueue.cap q' = ByteQueue.cap q ∧
      ByteQueue.data q' = rest := by
  have hle : xs.length ≤ ByteQueue.len q := by
    rw [ByteQueue.len, hdata, List.length_append]
    omega
  rcases take_of_le hle with ⟨q', htake, hcap, hrest⟩
  refine ⟨q', ?_, hcap, ?_⟩
  · rw [htake, hdata, List.take_left]
  · rw [hrest, hdata, List.drop_left]

/-- The standard header is read back. -/
theorem headInfoFromNetbuf_head {hi : HeadInfo} {size count : ℕ} {rest : List UInt8}
    (hdata : ByteQueue.data q = stdHeadBytes hi size count ++ rest) :
    ∃ q', CaProto.headInfoFromNetbuf q = some ({ hi with
        payloadSize := u32OfBe (beBytes 2 size)
        dataCount := u32OfBe (beBytes 2 count)
        isExt := false }, q') ∧
      ByteQueue.cap q' = ByteQueue.cap q ∧ ByteQueue.data q' = rest := by
  simp only [stdHeadBytes, List.append_assoc] at hdata
  rcases take_append hdata with ⟨q1, h1, hcap1, hdata1⟩
  rcases take_append hdata1 with ⟨q2, h2, hcap2, hdata2⟩
  rcases take_append hdata2 with ⟨q3, h3, hcap3, hdata3⟩
  rcases take_append hdata3 with ⟨q4, h4, hcap4, hdata4⟩
  rcases take_append hdata4 with ⟨q5, h5, hcap5, hdata5⟩
  rcases take_append hdata5 with ⟨q6, h6, hcap6, hdata6⟩
  rw [length_beBytes] at h1 h2 h3 h4 h5 h6
  refine ⟨q6, ?_, ?_, hdata6⟩
  · simp only [CaProto.headInfoFromNetbuf, h1, h2, h3, h4, h5, h6, Option.bind_eq_bind,
      Option.bind_some, Option.pure_def, u16OfBe_beBytes, u32OfBe_beBytes]
  · rw [hcap6, hcap5, hcap4, hcap3, hcap2, hcap1]

/-- The extension of the header is read back. -/
theorem extHeadFromNetbuf_ext {hi : HeadInfo} {rest : List UInt8}
    (hdata : ByteQueue.data q = extHeadBytes hi ++ rest) :
    ∃ q', CaProto.extHeadFromNetbuf q = some (hi.payloadSize, hi.dataCount, q') ∧
      ByteQueue.cap q' = ByteQueue.cap q ∧ ByteQueue.data q' = rest := by
  simp only [extHeadBytes, List.append_assoc] at hdata
  rcases take_append hdata with ⟨q1, h1, hcap1, hdata1⟩
  rcases take_append hdata1 with ⟨q2, h2, hcap2, hdata2⟩
  rw [length_beBytes] at h1 h2
  refine ⟨q2, ?_, hcap2.trans hcap1, hdata2⟩
  simp only [CaProto.extHeadFromNetbuf, h1, h2, Option.bind_eq_bind, Option.bind_some,
    Option.pure_def, u32OfBe_beBytes]

end Read

/-! ## The header states -/

section States

variable {B : Type} [ByteQueue B] [LawfulByteQueue B] {s : CaProto B} {hi : HeadInfo}
  {payload rest : List UInt8}

/-- The standard header of a message without payload cuts off the message. -/
theorem cutItem_std_empty (hwf : WellFormed hi []) (hstd : hi.isExt = false)
    (hstate : s.state = .stdHead) (hdata : ByteQueue.data s.buf = headBytes hi ++ rest) :
    ∃ q, s.cutItem = .message hi [] { s with buf := q } ∧ ByteQueue.cap q = ByteQueue.cap s.buf ∧
      ByteQueue.data q = rest := by
  rcases hwf.std hstd with ⟨hsize, hcount⟩
  rw [headBytes, hstd, if_neg Bool.false_ne_true] at hdata
  rcases headInfoFromNetbuf_head hdata with ⟨q, hread, hcap, hrest⟩
  rw [u32OfBe_beBytes_two hsize.le, u32OfBe_beBytes_two hcount, ← hstd] at hread
  have hzero : hi.payloadSize = 0 := by
    have hlen := hwf.size
    rw [List.length_nil] at hlen
    exact UInt32.toNat_inj.mp hlen.symm
  have hnot : hi.payloadSize ≠ 0xffff := by
    rw [hzero]
    decide
  refine ⟨q, ?_, hcap, hrest⟩
  simp only [CaProto.cutItem, hstate, hread]
  rw [if_neg hnot, if_pos hzero]

/-- The standard header of a message with a payload leads to the payload. -/
theorem cutItem_std (hwf : WellFormed hi payload) (hne : payload ≠ []) (hstd : hi.isExt = false)
    (hstate : s.state = .stdHead) (hdata : ByteQueue.data s.buf = headBytes hi ++ rest) :
    ∃ q, s.cutItem = .nothing { s with buf := q, state := .payload hi } ∧
      ByteQueue.cap q = ByteQueue.cap s.buf ∧ ByteQueue.data q = rest := by
  rcases hwf.std hstd with ⟨hsize, hcount⟩
  rw [headBytes, hstd, if_neg Bool.false_ne_true] at hdata
  rcases headInfoFromNetbuf_head hdata with ⟨q, hread, hcap, hrest⟩
  rw [u32OfBe_beBytes_two hsize.le, u32OfBe_beBytes_two hcount, ← hstd] at hread
  have hpos : hi.payloadSize ≠ 0 := by
    rintro hzero
    have hlen := hwf.size
    rw [hzero] at hlen
    exact hne (List.length_eq_zero_iff.mp hlen)
  have hnot : hi.payloadSize ≠ 0xffff := by
    rintro heq
    rw [heq] at hsize
    exact absurd hsize (by decide)
  refine ⟨q, ?_, hcap, hrest⟩
  simp [CaProto.cutItem, hstate, hread, hpos, hnot]

/-- The standard header of an extended one leads to the extension. -/
theorem cutItem_ext (hstate : s.state = .stdHead)
    (hdata : ByteQueue.data s.buf = stdHeadBytes hi 0xffff 0 ++ rest) :
    ∃ q, s.cutItem = .nothing { s with buf := q, state := .extHead hi.stdInfo } ∧
      ByteQueue.cap q = ByteQueue.cap s.buf ∧ ByteQueue.data q = rest := by
  rcases headInfoFromNetbuf_head hdata with ⟨q, hread, hcap, hrest⟩
  have hsize : u32OfBe (beBytes 2 0xffff) = 0xffff := by decide
  have hcount : u32OfBe (beBytes 2 0) = 0 := by decide
  rw [hsize, hcount] at hread
  refine ⟨q, ?_, hcap, hrest⟩
  simp [CaProto.cutItem, hstate, hread, HeadInfo.stdInfo]

/-- The extension leads to the payload. -/
theorem cutItem_extHead (hext : hi.isExt = true) (hstate : s.state = .extHead hi.stdInfo)
    (hdata : ByteQueue.data s.buf = extHeadBytes hi ++ rest) :
    ∃ q, s.cutItem = .nothing { s with buf := q, state := .payload hi } ∧
      ByteQueue.cap q = ByteQueue.cap s.buf ∧ ByteQueue.data q = rest := by
  rcases extHeadFromNetbuf_ext hdata with ⟨q, hread, hcap, hrest⟩
  have hinfo : hi.stdInfo.withExt hi.payloadSize hi.dataCount = hi := by
    cases hi
    simp_all [HeadInfo.stdInfo, HeadInfo.withExt]
  refine ⟨q, ?_, hcap, hrest⟩
  simp [CaProto.cutItem, hstate, hread, hinfo]

/-- The payload cuts off the message. -/
theorem cutItem_payload (hwf : WellFormed hi payload) (hstate : s.state = .payload hi)
    (hdata : ByteQueue.data s.buf = payload ++ rest) :
    ∃ q, s.cutItem = .message hi payload { s with buf := q } ∧
      ByteQueue.cap q = ByteQueue.cap s.buf ∧ ByteQueue.data q = rest := by
  rcases take_append hdata with ⟨q, htake, hcap, hrest⟩
  rw [hwf.size] at htake
  refine ⟨q, ?_, hcap, hrest⟩
  simp [CaProto.cutItem, hstate, htake]

/-- The header states lead from one connection to another, and cut a header and a payload off the buffer
on the way. -/
inductive Cuts (hi : HeadInfo) (payload : List UInt8) : CaProto B → CaProto B → Prop
  | message {s t : CaProto B} (hcut : s.cutItem = .message hi payload t) : Cuts hi payload s t
  | step {s t u : CaProto B} (hcut : s.cutItem = .nothing t) (hrest : Cuts hi payload t u) :
      Cuts hi payload s u

/-- The header states cut a message on the wire off the buffer, and nothing else. -/
theorem cuts_wire (hwf : WellFormed hi payload) (hstate : s.state = .stdHead)
    (hdata : ByteQueue.data s.buf = headBytes hi ++ payload ++ rest) :
    ∃ t, Cuts hi payload s t ∧ ByteQueue.data t.buf = rest := by
  rw [List.append_assoc] at hdata
  cases hext : hi.isExt with
  | true =>
      rw [headBytes, hext, if_pos rfl, List.append_assoc] at hdata
      rcases cutItem_ext hstate hdata with ⟨q, hcut, _, hrest⟩
      rcases cutItem_extHead (s := { s with buf := q, state := .extHead hi.stdInfo }) hext rfl hrest with
        ⟨q', hcut', _, hrest'⟩
      rcases cutItem_payload (s := { s with buf := q', state := .payload hi }) hwf rfl hrest' with
        ⟨q'', hcut'', _, hrest''⟩
      exact ⟨_, .step hcut (.step hcut' (.message hcut'')), hrest''⟩
  | false =>
      by_cases hempty : payload = []
      · subst hempty
        rcases cutItem_std_empty hwf hext hstate hdata with ⟨q, hcut, _, hrest⟩
        exact ⟨_, .message hcut, hrest⟩
      · rcases cutItem_std hwf hempty hext hstate hdata with ⟨q, hcut, _, hrest⟩
        rcases cutItem_payload (s := { s with buf := q, state := .payload hi }) hwf rfl hrest with
          ⟨q', hcut', _, hrest'⟩
        exact ⟨_, .step hcut (.message hcut'), hrest'⟩

end States

/-! ## Messages on the wire -/

/-- A message on the wire, and what the parser makes of it. -/
structure WireMsg (arrayTruncate : ℕ) where
  hi : HeadInfo
  payload : List UInt8
  msg : CaMsg
  wellFormed : WellFormed hi payload
  parsed : CaMsg.fromProtoInfos hi payload arrayTruncate = some (.ok msg)

namespace WireMsg

variable {t : ℕ}

/-- The bytes of a message. -/
def bytes (m : WireMsg t) : List UInt8 := headBytes m.hi ++ m.payload

/-- The pieces in which the parser takes a message: their sizes, and whether the message ends with them. -/
def pieces (m : WireMsg t) : List (ℕ × Bool) :=
  if m.hi.isExt then [(16, false), (8, false), (m.payload.length, true)]
  else if m.payload = [] then [(16, true)]
  else [(16, false), (m.payload.length, true)]

end WireMsg

/-- The bytes of some messages. -/
def bytesOf {t : ℕ} (ms : List (WireMsg t)) : List UInt8 := ms.flatMap fun m => m.bytes

/-- The pieces of some messages. -/
def piecesOf {t : ℕ} (ms : List (WireMsg t)) : List (ℕ × Bool) := ms.flatMap fun m => m.pieces

/-- The size of the next piece. -/
def need : List (ℕ × Bool) → ℕ
  | [] => 16
  | (size, _) :: _ => size

/-- Where the parser stands in a sequence of messages: its state, the bytes from there on, the messages
and the pieces to come. -/
inductive Standing (t : ℕ) : CaState → List UInt8 → List CaMsg → List (ℕ × Bool) → Prop
  | head (ms : List (WireMsg t)) :
      Standing t .stdHead (bytesOf ms) (ms.map fun m => m.msg) (piecesOf ms)
  | ext (m : WireMsg t) (ms : List (WireMsg t)) (hext : m.hi.isExt = true) :
      Standing t (.extHead m.hi.stdInfo) (extHeadBytes m.hi ++ (m.payload ++ bytesOf ms))
        (m.msg :: ms.map fun m => m.msg) ((8, false) :: (m.payload.length, true) :: piecesOf ms)
  | payload (m : WireMsg t) (ms : List (WireMsg t)) :
      Standing t (.payload m.hi) (m.payload ++ bytesOf ms) (m.msg :: ms.map fun m => m.msg)
        ((m.payload.length, true) :: piecesOf ms)

section Parse

variable {B : Type} [ByteQueue B] [LawfulByteQueue B] {s : CaProto B} {future : List UInt8}
  {msgs : List CaMsg} {pieces : List (ℕ × Bool)} {size : ℕ}

/-- The parser waits for the next piece. -/
theorem Standing.needMin_eq {t : ℕ} {state : CaState} {bytes : List UInt8}
    (hstand : Standing t state bytes msgs pieces) : state.needMin = need pieces := by
  cases hstand with
  | head ms =>
      cases ms with
      | nil => rfl
      | cons m ms =>
          simp only [piecesOf, List.flatMap_cons, WireMsg.pieces]
          split
          · rfl
          · split <;> rfl
  | ext m ms hext => rfl
  | payload m ms => exact m.wellFormed.size.symm

/-- Where no pieces are to come, neither messages nor bytes are. -/
theorem Standing.nil {t : ℕ} {state : CaState} {bytes : List UInt8}
    (hstand : Standing t state bytes msgs []) : msgs = [] ∧ bytes = [] := by
  generalize hpieces : ([] : List (ℕ × Bool)) = pieces at hstand
  cases hstand with
  | head ms =>
      cases ms with
      | nil => exact ⟨rfl, rfl⟩
      | cons m ms =>
          simp only [piecesOf, List.flatMap_cons, WireMsg.pieces] at hpieces
          split at hpieces
          · simp at hpieces
          · split at hpieces <;> simp at hpieces
  | ext m ms hext => simp at hpieces
  | payload m ms => simp at hpieces

/-- A piece that is held as a whole stands in front of the buffer. -/
theorem held_piece {held piece rest : List UInt8} (hdata : held ++ future = piece ++ rest)
    (hle : piece.length ≤ held.length) : ∃ more, held = piece ++ more ∧ rest = more ++ future := by
  rcases List.append_eq_append_iff.mp hdata with ⟨more, rfl, hfuture⟩ | ⟨more, rfl, hrest⟩
  · rw [List.length_append] at hle
    obtain rfl : more = [] := List.length_eq_zero_iff.mp (by omega)
    exact ⟨[], by simp, by simpa using hfuture.symm⟩
  · exact ⟨more, rfl, hrest⟩

omit [LawfulByteQueue B] in
/-- A message that was cut off is made and taken. -/
theorem parseItem_message {t : CaProto B} {hi : HeadInfo} {payload : List UInt8} {msg : CaMsg}
    (hcut : s.cutItem = .message hi payload t)
    (hparsed : CaMsg.fromProtoInfos hi payload t.arrayTruncate = some (.ok msg)) :
    s.parseItem = (.item (.msg msg), { t with state := .stdHead }) := by
  simp only [CaProto.parseItem, hcut, hparsed]

/-- What one attempt to parse does when it takes a piece of the given size: it gives the next message
with the last piece of it, and nothing yet with another. -/
inductive Takes (t : ℕ) (s : CaProto B) (future : List UInt8) :
    List CaMsg → List (ℕ × Bool) → B → Prop
  | last {msg : CaMsg} {msgs : List CaMsg} {size : ℕ} {pieces : List (ℕ × Bool)} {q : B}
      (hlen : ByteQueue.len q + size = ByteQueue.len s.buf)
      (hparse : s.parseItem = (.item (.msg msg), { s with buf := q, state := .stdHead }))
      (hstand : Standing t .stdHead (ByteQueue.data q ++ future) msgs pieces) :
      Takes t s future (msg :: msgs) ((size, true) :: pieces) q
  | inner {msgs : List CaMsg} {size : ℕ} {pieces : List (ℕ × Bool)} {q : B} {state : CaState}
      (hlen : ByteQueue.len q + size = ByteQueue.len s.buf)
      (hparse : s.parseItem = (.nothing, { s with buf := q, state := state }))
      (hstand : Standing t state (ByteQueue.data q ++ future) msgs pieces) :
      Takes t s future msgs ((size, false) :: pieces) q

omit [LawfulByteQueue B] in
/-- What is held behind a piece that was taken. -/
theorem len_rest {q : B} {piece more : List UInt8} (hdata : ByteQueue.data s.buf = piece ++ more)
    (hrest : ByteQueue.data q = more) : ByteQueue.len q + piece.length = ByteQueue.len s.buf := by
  rw [ByteQueue.len, ByteQueue.len, hrest, hdata, List.length_append, Nat.add_comm]

/-- At the beginning of a message, an attempt to parse takes the standard header. -/
theorem takes_head {t : ℕ} (m : WireMsg t) (ms : List (WireMsg t)) (hstate : s.state = .stdHead)
    (htrunc : s.arrayTruncate = t)
    (hdata : ByteQueue.data s.buf ++ future = m.bytes ++ bytesOf ms) (hle : 16 ≤ ByteQueue.len s.buf) :
    ∃ q, ByteQueue.cap q = ByteQueue.cap s.buf ∧
      Takes t s future (m.msg :: ms.map fun m => m.msg) (m.pieces ++ piecesOf ms) q := by
  rw [WireMsg.bytes, List.append_assoc] at hdata
  cases hext : m.hi.isExt with
  | true =>
      rw [headBytes, hext, if_pos rfl, List.append_assoc] at hdata
      rcases held_piece hdata (by rwa [length_stdHeadBytes]) with ⟨more, hheld, hmore⟩
      rcases cutItem_ext hstate hheld with ⟨q, hcut, hcap, hrest⟩
      have hlen := len_rest hheld hrest
      rw [length_stdHeadBytes] at hlen
      refine ⟨q, hcap, ?_⟩
      rw [WireMsg.pieces, hext, if_pos rfl]
      refine .inner hlen (by rw [CaProto.parseItem, hcut]) ?_
      rw [hrest, ← hmore]
      exact .ext m ms hext
  | false =>
      have hhead : (headBytes m.hi).length = 16 := by
        rw [headBytes, hext, if_neg Bool.false_ne_true, length_stdHeadBytes]
      rcases held_piece hdata (by rwa [hhead]) with ⟨more, hheld, hmore⟩
      by_cases hempty : m.payload = []
      · have hwf := m.wellFormed
        have hparsed := m.parsed
        rw [hempty] at hwf hparsed hmore
        rcases cutItem_std_empty hwf hext hstate hheld with ⟨q, hcut, hcap, hrest⟩
        have hlen := len_rest hheld hrest
        rw [hhead] at hlen
        refine ⟨q, hcap, ?_⟩
        rw [WireMsg.pieces, hext, if_neg Bool.false_ne_true, if_pos hempty]
        refine .last hlen (parseItem_message hcut (by rw [htrunc]; exact hparsed)) ?_
        rw [hrest, ← hmore]
        exact .head ms
      · rcases cutItem_std m.wellFormed hempty hext hstate hheld with ⟨q, hcut, hcap, hrest⟩
        have hlen := len_rest hheld hrest
        rw [hhead] at hlen
        refine ⟨q, hcap, ?_⟩
        rw [WireMsg.pieces, hext, if_neg Bool.false_ne_true, if_neg hempty]
        refine .inner hlen (by rw [CaProto.parseItem, hcut]) ?_
        rw [hrest, ← hmore]
        exact .payload m ms

/-- When the next piece of a message is held, an attempt to parse takes it. -/
theorem Standing.takes {t : ℕ} (htrunc : s.arrayTruncate = t)
    (hstand : Standing t s.state (ByteQueue.data s.buf ++ future) msgs pieces) (hne : pieces ≠ [])
    (hle : need pieces ≤ ByteQueue.len s.buf) :
    ∃ q, ByteQueue.cap q = ByteQueue.cap s.buf ∧ Takes t s future msgs pieces q := by
  have hneed := hstand.needMin_eq
  generalize hstate : s.state = state at hstand hneed
  generalize hdata : ByteQueue.data s.buf ++ future = bytes at hstand
  cases hstand with
  | head ms =>
      cases ms with
      | nil => exact absurd rfl hne
      | cons m ms =>
          rw [bytesOf, List.flatMap_cons] at hdata
          exact takes_head m ms hstate htrunc hdata (hneed.trans_le hle)
  | ext m ms hext =>
      rcases held_piece hdata (by rwa [length_extHeadBytes]) with ⟨more, hheld, hmore⟩
      rcases cutItem_extHead hext hstate hheld with ⟨q, hcut, hcap, hrest⟩
      have hlen := len_rest hheld hrest
      rw [length_extHeadBytes] at hlen
      refine ⟨q, hcap, .inner hlen (by rw [CaProto.parseItem, hcut]) ?_⟩
      rw [hrest, ← hmore]
      exact .payload m ms
  | payload m ms =>
      rcases held_piece hdata hle with ⟨more, hheld, hmore⟩
      rcases cutItem_payload m.wellFormed hstate hheld with ⟨q, hcut, hcap, hrest⟩
      refine ⟨q, hcap, .last (len_rest hheld hrest)
        (parseItem_message hcut (by rw [htrunc]; exact m.parsed)) ?_⟩
      rw [hrest, ← hmore]
      exact .head ms

end Parse

end Ca
end Daqbuf
