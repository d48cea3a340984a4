import Daqbuf.Bytes.Endian
import Daqbuf.Bytes.Tape
import Daqbuf.Series.Msp
import Daqbuf.Streams.SlideBuf
/-!
# Reading and Writing a Slide Buffer

All operations of the slide buffer: bytes and integers are put and read, the positions are moved, and the bytes that are
held slide to the front.  Floating point numbers are given by their bits.

Main results:

- Theorem {lit}`Follows.exec`: each operation does what a bounded queue of bytes may do.
- Theorem {lit}`run_refines`: so does every sequence of operations.
-/

namespace Daqbuf
namespace Streams
namespace SlideBuf

open Bytes Series

/-! ## Operations -/

/-- {lit}`set_rp` -/
def setRp (s : SlideBuf) (rp : ℕ) : Except Error Unit × SlideBuf :=
  if h : s.wp < rp then (.error .notEnoughBytes, s)
  else (.ok (), { s with rp := rp, rp_le_wp := Nat.le_of_not_lt h })

/-- {lit}`rewind_rp` -/
def rewindRp (s : SlideBuf) (n : ℕ) : Except Error Unit × SlideBuf :=
  if s.rp < n then (.error .notEnoughBytes, s)
  else (.ok (), { s with rp := s.rp - n, rp_le_wp := Nat.le_trans (Nat.sub_le _ _) s.rp_le_wp })

/-- The reads of numbers: {lit}`from_be_bytes` of as many bytes as the number has -/
def readBe (s : SlideBuf) (size : ℕ) : Except Error ℕ × SlideBuf :=
  ((s.readBytes size).1.map ofBe, (s.readBytes size).2)

/-- {lit}`read_u8` -/
def readU8 (s : SlideBuf) : Except Error ℕ × SlideBuf := s.readBe 1

/-- {lit}`read_u16_be` -/
def readU16Be (s : SlideBuf) : Except Error ℕ × SlideBuf := s.readBe 2

/-- {lit}`read_u32_be` -/
def readU32Be (s : SlideBuf) : Except Error ℕ × SlideBuf := s.readBe 4

/-- {lit}`read_u64_be` -/
def readU64Be (s : SlideBuf) : Except Error ℕ × SlideBuf := s.readBe 8

/-- {lit}`read_i32_be` -/
def readI32Be (s : SlideBuf) : Except Error ℤ × SlideBuf := ((s.readBe 4).1.map (asSigned 32), (s.readBe 4).2)

/-- {lit}`read_i64_be` -/
def readI64Be (s : SlideBuf) : Except Error ℤ × SlideBuf := ((s.readBe 8).1.map (asSigned 64), (s.readBe 8).2)

/-- {lit}`read_f32_be` -/
def readF32Be (s : SlideBuf) : Except Error ℕ × SlideBuf := s.readBe 4

/-- {lit}`read_f64_be` -/
def readF64Be (s : SlideBuf) : Except Error ℕ × SlideBuf := s.readBe 8

/-- What comes first in every write: a rewind if it is needed, and then if there is still no room -/
def makeRoom (s : SlideBuf) (n : ℕ) : SlideBuf :=
  if (s.rewindIfNeeded n).wcap < n then (s.rewindIfNeeded n).rewind else s.rewindIfNeeded n

/-- The second half of a write, where the room was made: the bytes are copied behind the write position. -/
def place (s : SlideBuf) (bs : List UInt8) : Except Error Unit × SlideBuf :=
  if h : s.wcap < bs.length then (.error (.notEnoughSpace s.cap s.wcap bs.length), s)
  else (.ok (), { s with
    buf := s.buf.take s.wp ++ bs ++ s.buf.drop (s.wp + bs.length)
    wp := s.wp + bs.length
    rp_le_wp := Nat.le_trans s.rp_le_wp (Nat.le_add_right _ _)
    wp_le_cap := by
      have hle := s.wp_le_cap
      unfold wcap at h
      simp only [List.length_append, List.length_take, List.length_drop]
      omega })

/-- {lit}`put_slice` -/
def putSlice (s : SlideBuf) (buf : List UInt8) : Except Error Unit × SlideBuf := (s.makeRoom buf.length).place buf

/-- {lit}`___write_buf___`, with the bytes that its caller then writes to the slice that it gets -/
def writeBuf (s : SlideBuf) (buf : List UInt8) : Except Error Unit × SlideBuf := (s.makeRoom buf.length).place buf

/-- {lit}`put_u8` -/
def putU8 (s : SlideBuf) (v : UInt8) : Except Error Unit × SlideBuf := s.putSlice (beBytes 1 v.toNat)

/-- {lit}`put_u16_be` -/
def putU16Be (s : SlideBuf) (v : UInt16) : Except Error Unit × SlideBuf := s.putSlice (beBytes 2 v.toNat)

/-- {lit}`put_u32_be` -/
def putU32Be (s : SlideBuf) (v : UInt32) : Except Error Unit × SlideBuf := s.putSlice (beBytes 4 v.toNat)

/-- {lit}`put_u64_be` -/
def putU64Be (s : SlideBuf) (v : UInt64) : Except Error Unit × SlideBuf := s.putSlice (beBytes 8 v.toNat)

/-- {lit}`put_f32_be` -/
def putF32Be (s : SlideBuf) (bits : UInt32) : Except Error Unit × SlideBuf := s.putSlice (beBytes 4 bits.toNat)

/-- {lit}`put_f64_be` -/
def putF64Be (s : SlideBuf) (bits : UInt64) : Except Error Unit × SlideBuf := s.putSlice (beBytes 8 bits.toNat)

/-! ## Sessions -/

/-- What can be done with a slide buffer.  The caller of {lit}`available_writable_area` writes bytes to the front of the
area, and later advances the write position over them. -/
inductive Op where
  | putSlice (buf : List UInt8)
  | writeBuf (buf : List UInt8)
  | putU8 (v : UInt8)
  | putU16Be (v : UInt16)
  | putU32Be (v : UInt32)
  | putU64Be (v : UInt64)
  | putF32Be (bits : UInt32)
  | putF64Be (bits : UInt64)
  | availableWritableArea (needMin : ℕ) (buf : List UInt8)
  | wadv (x : ℕ)
  | readBytes (n : ℕ)
  | readU8
  | readU16Be
  | readU32Be
  | readU64Be
  | readI32Be
  | readI64Be
  | readF32Be
  | readF64Be
  | adv (x : ℕ)
  | setRp (rp : ℕ)
  | rewindRp (n : ℕ)
  | rewind
  | rewindIfNeeded (needMin : ℕ)
  | reset

/-- What an operation returns -/
inductive Out where
  | unit
  | bytes (bs : List UInt8)
  | nat (v : ℕ)
  | int (v : ℤ)
  deriving DecidableEq

/-- A slide buffer, and the bytes that its user has written to the front of the area behind the write position -/
structure Session where
  s : SlideBuf
  filled : List UInt8

namespace Session

/-- A new buffer -/
def new (cap : ℕ) : Session where
  s := SlideBuf.new cap
  filled := []

/-- The result of an operation that can move the bytes, or that writes -/
def wrote (r : Except Error Unit × SlideBuf) : Except Error Out × Session := (r.1.map fun _ => .unit, ⟨r.2, []⟩)

/-- The result of an operation that leaves the bytes where they are, and the write position -/
def moved {α : Type} (ses : Session) (r : Except Error α × SlideBuf) (out : α → Out) : Except Error Out × Session :=
  (r.1.map out, { ses with s := r.2 })

/-- One operation.  It has no result where its caller fails: bytes for which the area is too short panic, and the write
position would move over bytes that were not written to the area. -/
def exec (ses : Session) : Op → Option (Except Error Out × Session)
  | .putSlice buf => some (wrote (ses.s.putSlice buf))
  | .writeBuf buf => some (wrote (ses.s.writeBuf buf))
  | .putU8 v => some (wrote (ses.s.putU8 v))
  | .putU16Be v => some (wrote (ses.s.putU16Be v))
  | .putU32Be v => some (wrote (ses.s.putU32Be v))
  | .putU64Be v => some (wrote (ses.s.putU64Be v))
  | .putF32Be bits => some (wrote (ses.s.putF32Be bits))
  | .putF64Be bits => some (wrote (ses.s.putF64Be bits))
  | .availableWritableArea needMin buf =>
    match ses.s.availableWritableArea needMin with
    | (.ok (), t) => (t.copyFromSlice buf).map fun u => (.ok .unit, ⟨u, buf⟩)
    | (.error e, t) => some (.error e, ⟨t, []⟩)
  | .wadv x =>
    if x ≤ ses.filled.length then some ((ses.s.wadv x).1.map fun _ => .unit, ⟨(ses.s.wadv x).2, ses.filled.drop x⟩)
    else
      match ses.s.wadv x with
      | (.ok (), _) => none
      | (.error e, t) => some (.error e, ⟨t, []⟩)
  | .readBytes n => some (ses.moved (ses.s.readBytes n) .bytes)
  | .readU8 => some (ses.moved ses.s.readU8 .nat)
  | .readU16Be => some (ses.moved ses.s.readU16Be .nat)
  | .readU32Be => some (ses.moved ses.s.readU32Be .nat)
  | .readU64Be => some (ses.moved ses.s.readU64Be .nat)
  | .readI32Be => some (ses.moved ses.s.readI32Be .int)
  | .readI64Be => some (ses.moved ses.s.readI64Be .int)
  | .readF32Be => some (ses.moved ses.s.readF32Be .nat)
  | .readF64Be => some (ses.moved ses.s.readF64Be .nat)
  | .adv x => some (ses.moved (ses.s.adv x) fun _ => .unit)
  | .setRp rp => some (ses.moved (ses.s.setRp rp) fun _ => .unit)
  | .rewindRp n => some (ses.moved (ses.s.rewindRp n) fun _ => .unit)
  | .rewind => some (wrote (.ok (), ses.s.rewind))
  | .rewindIfNeeded needMin => some (wrote (.ok (), ses.s.rewindIfNeeded needMin))
  | .reset => some (wrote (.ok (), ses.s.reset))

/-- A sequence of operations -/
def run (ses : Session) : List Op → Option (List (Except Error Out) × Session)
  | [] => some ([], ses)
  | op :: ops => (ses.exec op).bind fun (out, ses) => (ses.run ops).map fun (outs, ses) => (out :: outs, ses)

end Session

/-! ## What a queue does instead -/

namespace Op

/-- The bytes from which a read makes its result -/
def decode : Op → List UInt8 → Out
  | .readBytes _, bs => .bytes bs
  | .readU8, bs | .readU16Be, bs | .readU32Be, bs | .readU64Be, bs | .readF32Be, bs | .readF64Be, bs => .nat (ofBe bs)
  | .readI32Be, bs => .int (asSigned 32 (ofBe bs))
  | .readI64Be, bs => .int (asSigned 64 (ofBe bs))
  | _, _ => .unit

/-- What an operation asks of the queue -/
def action (ses : Session) : Op → Tape.Action
  | .putSlice buf | .writeBuf buf => .put buf
  | .putU8 v => .put (beBytes 1 v.toNat)
  | .putU16Be v => .put (beBytes 2 v.toNat)
  | .putU32Be v => .put (beBytes 4 v.toNat)
  | .putU64Be v => .put (beBytes 8 v.toNat)
  | .putF32Be bits => .put (beBytes 4 bits.toNat)
  | .putF64Be bits => .put (beBytes 8 bits.toNat)
  | .availableWritableArea needMin _ => .area needMin
  | .wadv x => if x ≤ ses.filled.length then .put (ses.filled.take x) else .area x
  | .readBytes n | .adv n => .take n
  | .readU8 => .take 1
  | .readU16Be => .take 2
  | .readU32Be | .readI32Be | .readF32Be => .take 4
  | .readU64Be | .readI64Be | .readF64Be => .take 8
  | .setRp rp => .seek rp
  | .rewindRp n => .back n
  | .rewindIfNeeded _ => .keep
  | .rewind => .slide
  | .reset => .clear

end Op

/-- An operation succeeds where the queue answers, with the result that is made from the bytes of the answer. -/
def Answers (decode : List UInt8 → Out) : Except Error Out → Option (List UInt8) → Prop
  | .ok out, some bs => out = decode bs
  | .error _, none => True
  | _, _ => False

/-- The buffer holds what the queue holds, and in front of its read position is what the queue keeps. -/
structure Follows (ses : Session) (q : Tape) : Prop where
  cap : q.cap = ses.s.cap
  held : q.held = ses.s.data
  kept : q.kept = ses.s.buf.take ses.s.rp
  filled : ses.filled <+: ses.s.buf.drop ses.s.wp

/-- The queue may do an action, with the result and the buffer of an operation. -/
def Matched (q : Tape) (a : Tape.Action) (decode : List UInt8 → Out) (res : Except Error Out × Session) : Prop :=
  ∃ r q', q.Allows q' a r ∧ Answers decode res.1 r ∧ Follows res.2 q'

/-! ## Single operations -/

section Single

variable {s t : SlideBuf} {ses : Session} {q : Tape} {bs : List UInt8} {n : ℕ}

theorem data_eq (s : SlideBuf) : s.data = (s.buf.drop s.rp).take s.len := List.drop_take

theorem rewindIfNeeded_rp (s : SlideBuf) (n : ℕ) : s.rewindIfNeeded n = s ∨ (s.rewindIfNeeded n).rp = 0 := by
  rw [rewindIfNeeded]
  split_ifs
  · exact Or.inr rfl
  · exact Or.inr rfl
  · exact Or.inl rfl

theorem makeRoom_same (s : SlideBuf) (n : ℕ) :
    (s.makeRoom n).data = s.data ∧ (s.makeRoom n).cap = s.cap ∧ (s.makeRoom n = s ∨ (s.makeRoom n).rp = 0) := by
  obtain ⟨hdata, hcap⟩ := s.rewindIfNeeded_same n
  rw [makeRoom]
  split_ifs
  · exact ⟨(data_rewind _).trans hdata, (cap_rewind _).trans hcap, Or.inr rfl⟩
  · exact ⟨hdata, hcap, rewindIfNeeded_rp s n⟩

/-- Room can be made exactly if there is enough of it besides what is held. -/
theorem wcap_makeRoom_lt_iff (s : SlideBuf) (n : ℕ) : (s.makeRoom n).wcap < n ↔ s.cap < s.len + n := by
  obtain ⟨hdata, hcap⟩ := s.rewindIfNeeded_same n
  have hlen : (s.rewindIfNeeded n).len = s.len := by rw [← length_data, hdata, length_data]
  rw [makeRoom]
  split_ifs with hsmall
  · rw [wcap_rewind, hcap, hlen]
    have hle := s.len_le_cap
    omega
  · refine iff_of_false hsmall ?_
    have hwcap : (s.rewindIfNeeded n).wcap = (s.rewindIfNeeded n).cap - (s.rewindIfNeeded n).wp := rfl
    have hheld : (s.rewindIfNeeded n).len = (s.rewindIfNeeded n).wp - (s.rewindIfNeeded n).rp := rfl
    have hwp : (s.rewindIfNeeded n).wp ≤ (s.rewindIfNeeded n).cap := (s.rewindIfNeeded n).wp_le_cap
    have hle := s.len_le_cap
    omega

/-- The bytes are at the front of the buffer. -/
theorem Follows.slide (h : Follows ses q) (hdata : t.data = ses.s.data) (hcap : t.cap = ses.s.cap) (hrp : t.rp = 0) :
    Follows ⟨t, []⟩ q.slide where
  cap := h.cap.trans hcap.symm
  held := h.held.trans hdata.symm
  kept := by
    show [] = t.buf.take t.rp
    rw [hrp, List.take_zero]
  filled := List.nil_prefix

/-- The bytes stay, but can slide to the front. -/
theorem Follows.of_same (h : Follows ses q) (hdata : t.data = ses.s.data) (hcap : t.cap = ses.s.cap)
    (hrp : t = ses.s ∨ t.rp = 0) : ∃ q', q.MaySlide q' ∧ Follows ⟨t, []⟩ q' := by
  rcases hrp with rfl | hrp
  · exact ⟨q, Or.inl rfl, h.cap, h.held, h.kept, List.nil_prefix⟩
  · exact ⟨q.slide, Or.inr rfl, h.slide hdata hcap hrp⟩

/-- The bytes that are placed are held behind those that were. -/
theorem place_ok (s : SlideBuf) (hroom : bs.length ≤ s.wcap) :
    ∃ t, s.place bs = (.ok (), t) ∧ t.data = s.data ++ bs ∧ t.cap = s.cap ∧ t.buf.take t.rp = s.buf.take s.rp := by
  have hrp := s.rp_le_wp
  have hwp := s.wp_le_cap
  have hbuf : s.wcap = s.buf.length - s.wp := rfl
  refine ⟨_, dif_neg (Nat.not_lt.mpr hroom), ?_, ?_, ?_⟩
  · simp only [data]
    rw [List.take_left' (by simp [hwp]), List.drop_append_of_le_length (by simp; omega)]
  · simp only [cap, List.length_append, List.length_take, List.length_drop]
    omega
  · show (s.buf.take s.wp ++ bs ++ s.buf.drop (s.wp + bs.length)).take s.rp = s.buf.take s.rp
    rw [List.append_assoc, List.take_append_of_le_length (by simp; omega), List.take_take, Nat.min_eq_left hrp]

theorem Follows.length_held (h : Follows ses q) : q.held.length = ses.s.len := by rw [h.held, length_data]

theorem Follows.length_kept (h : Follows ses q) : q.kept.length = ses.s.rp := by
  have hrp := ses.s.rp_le_wp
  have hwp := ses.s.wp_le_cap
  rw [h.kept, List.length_take]
  omega

/-- What is kept and what is held end at the write position. -/
theorem Follows.length_front (h : Follows ses q) : q.kept.length + q.held.length = ses.s.wp := by
  have hrp := ses.s.rp_le_wp
  have hheld : ses.s.len = ses.s.wp - ses.s.rp := rfl
  rw [h.length_kept, h.length_held]
  omega

/-- Bytes that are placed behind the write position are appended to the queue. -/
theorem Follows.append (h : Follows ses q) (hdata : t.data = ses.s.data ++ bs) (hcap : t.cap = ses.s.cap)
    (hkept : t.buf.take t.rp = ses.s.buf.take ses.s.rp) {filled : List UInt8}
    (hfilled : filled <+: t.buf.drop t.wp) (hroom : q.kept.length + q.held.length + bs.length ≤ q.cap) :
    Follows ⟨t, filled⟩ (q.append bs hroom) where
  cap := h.cap.trans hcap.symm
  held := by
    show q.held ++ bs = t.data
    rw [hdata, h.held]
  kept := h.kept.trans hkept.symm
  filled := hfilled

/-- A write succeeds exactly if there is room for its bytes. -/
theorem Follows.put (h : Follows ses q) (bs : List UInt8) :
    Matched q (.put bs) (fun _ => .unit) (Session.wrote ((ses.s.makeRoom bs.length).place bs)) := by
  obtain ⟨hdata, hcap, hrp⟩ := makeRoom_same ses.s bs.length
  obtain ⟨u, hslide, hsame⟩ := h.of_same hdata hcap hrp
  have hroom := wcap_makeRoom_lt_iff ses.s bs.length
  have hlen := h.length_held
  by_cases hfull : (ses.s.makeRoom bs.length).wcap < bs.length
  · refine ⟨none, u, ⟨?_, hslide⟩, ?_, ?_⟩
    · rw [hlen, h.cap]
      exact hroom.mp hfull
    · rw [place, dif_pos hfull]
      exact trivial
    · rw [place, dif_pos hfull]
      exact hsame
  · obtain ⟨t, ht, htdata, htcap, htkept⟩ := place_ok (ses.s.makeRoom bs.length) (Nat.le_of_not_lt hfull)
    have hfit : u.kept.length + u.held.length + bs.length ≤ u.cap := by
      have hwp := (ses.s.makeRoom bs.length).wp_le_cap
      have hwcap : (ses.s.makeRoom bs.length).wcap =
        (ses.s.makeRoom bs.length).buf.length - (ses.s.makeRoom bs.length).wp := rfl
      have hucap : u.cap = (ses.s.makeRoom bs.length).buf.length := hsame.cap
      have hfront : u.kept.length + u.held.length = (ses.s.makeRoom bs.length).wp := hsame.length_front
      omega
    refine ⟨some [], u.append bs hfit, ⟨?_, rfl, u, hslide, hfit, rfl⟩, ?_, ?_⟩
    · have hnot := mt hroom.mpr hfull
      rw [hlen, h.cap]
      omega
    · rw [ht]
      exact rfl
    · rw [ht]
      exact hsame.append htdata htcap htkept List.nil_prefix hfit

/-- The bytes in front of the write position, on both sides of another position -/
theorem take_append_drop_wp (s : SlideBuf) {rp : ℕ} (hle : rp ≤ s.wp) :
    s.buf.take rp ++ (s.buf.take s.wp).drop rp = s.buf.take s.wp := by
  have hsplit := List.take_append_drop rp (s.buf.take s.wp)
  rwa [List.take_take, Nat.min_eq_left hle] at hsplit

/-- What is kept and what is held are the bytes in front of the write position. -/
theorem Follows.front (h : Follows ses q) : q.kept ++ q.held = ses.s.buf.take ses.s.wp := by
  rw [h.kept, h.held, data, take_append_drop_wp ses.s ses.s.rp_le_wp]

/-- The read position moves among the bytes that are in front of the write position. -/
theorem Follows.moveTo (h : Follows ses q) {rp : ℕ} (hle : rp ≤ ses.s.wp) :
    Follows { ses with s := { ses.s with rp := rp, rp_le_wp := hle } } (q.moveTo rp) where
  cap := h.cap
  held := by
    show (q.kept ++ q.held).drop rp = (ses.s.buf.take ses.s.wp).drop rp
    rw [h.front]
  kept := by
    show (q.kept ++ q.held).take rp = ses.s.buf.take rp
    rw [h.front, List.take_take, Nat.min_eq_left hle]
  filled := h.filled

/-- A read takes the bytes behind the read position, if so many are held. -/
theorem Follows.take (h : Follows ses q) (n : ℕ) (decode : List UInt8 → Out) :
    Matched q (.take n) decode (ses.moved (ses.s.readBytes n) decode) := by
  have hlen := h.length_held
  by_cases hshort : ses.s.len < n
  · refine ⟨none, q, ⟨?_, rfl⟩, ?_, ?_⟩
    · rw [hlen]
      exact hshort
    · rw [readBytes, dif_pos hshort]
      exact trivial
    · rw [readBytes, dif_pos hshort]
      exact h
  · have hle : n ≤ ses.s.len := Nat.le_of_not_lt hshort
    have hmove : ses.s.rp + n ≤ ses.s.wp := by
      have hrp := ses.s.rp_le_wp
      have hheld : ses.s.len = ses.s.wp - ses.s.rp := rfl
      omega
    have hslice : slice ses.s.buf ses.s.rp (ses.s.rp + n) = q.held.take n := by
      rw [h.held, data_eq, List.take_take, Nat.min_eq_left hle, slice, List.drop_take, Nat.add_sub_cancel_left]
    refine ⟨some (q.held.take n), _, ⟨?_, rfl, rfl⟩, ?_, ?_⟩
    · rw [hlen]
      exact hle
    · rw [readBytes, dif_neg hshort]
      exact congrArg decode hslice
    · rw [readBytes, dif_neg hshort, h.length_kept]
      exact h.moveTo hmove

/-- The read position moves over bytes without their being read. -/
theorem Follows.adv (h : Follows ses q) (x : ℕ) :
    Matched q (.take x) (fun _ => .unit) (ses.moved (ses.s.adv x) fun _ => .unit) := by
  have hread := h.take x fun _ => .unit
  by_cases hshort : ses.s.len < x
  · rw [SlideBuf.adv, dif_pos hshort]
    rw [readBytes, dif_pos hshort] at hread
    exact hread
  · rw [SlideBuf.adv, dif_neg hshort]
    rw [readBytes, dif_neg hshort] at hread
    exact hread

/-- The read position can be set to where bytes are that are kept, and anywhere among those that are held. -/
theorem Follows.seek (h : Follows ses q) (rp : ℕ) :
    Matched q (.seek rp) (fun _ => .unit) (ses.moved (ses.s.setRp rp) fun _ => .unit) := by
  have hfront := h.length_front
  by_cases hout : ses.s.wp < rp
  · rw [setRp, dif_pos hout]
    exact ⟨none, q, ⟨hfront.symm ▸ hout, rfl⟩, trivial, h⟩
  · have hle : rp ≤ ses.s.wp := Nat.le_of_not_lt hout
    rw [setRp, dif_neg hout]
    exact ⟨some [], q.moveTo rp, ⟨hfront.symm ▸ hle, rfl, rfl⟩, rfl, h.moveTo hle⟩

/-- The read position can go back over the bytes that are kept. -/
theorem Follows.back (h : Follows ses q) (n : ℕ) :
    Matched q (.back n) (fun _ => .unit) (ses.moved (ses.s.rewindRp n) fun _ => .unit) := by
  have hkept := h.length_kept
  by_cases hout : ses.s.rp < n
  · rw [rewindRp, if_pos hout]
    exact ⟨none, q, ⟨hkept.symm ▸ hout, rfl⟩, trivial, h⟩
  · have hle : n ≤ ses.s.rp := Nat.le_of_not_lt hout
    have hmove := h.moveTo (Nat.le_trans (Nat.sub_le ses.s.rp n) ses.s.rp_le_wp)
    rw [rewindRp, if_neg hout]
    rw [← hkept] at hle
    refine ⟨some [], _, ⟨hle, rfl, rfl⟩, rfl, ?_⟩
    rw [hkept]
    exact hmove

/-- Sliding the bytes to the front is no action that the reader of the queue sees, but what was kept is forgotten. -/
theorem Follows.keep (h : Follows ses q) (hdata : t.data = ses.s.data) (hcap : t.cap = ses.s.cap)
    (hrp : t = ses.s ∨ t.rp = 0) : Matched q .keep (fun _ => .unit) (Session.wrote (.ok (), t)) := by
  obtain ⟨q', hslide, hsame⟩ := h.of_same hdata hcap hrp
  exact ⟨some [], q', ⟨rfl, hslide⟩, rfl, hsame⟩

theorem Follows.rewind (h : Follows ses q) :
    Matched q .slide (fun _ => .unit) (Session.wrote (.ok (), ses.s.rewind)) :=
  ⟨some [], q.slide, ⟨rfl, rfl⟩, rfl, h.slide (data_rewind _) (cap_rewind _) rfl⟩

theorem Follows.reset (h : Follows ses q) :
    Matched q .clear (fun _ => .unit) (Session.wrote (.ok (), ses.s.reset)) := by
  refine ⟨some q.held, _, ⟨rfl, rfl⟩, rfl, h.cap, ?_, rfl, List.nil_prefix⟩
  show (q.kept ++ q.held).drop (q.kept.length + q.held.length) = (ses.s.buf.take 0).drop 0
  rw [← List.length_append, List.drop_length, List.take_zero, List.drop_zero]

theorem availableWritableArea_eq (s : SlideBuf) (n : ℕ) : s.availableWritableArea n =
    if (s.makeRoom n).wcap < n then
      (.error (.notEnoughSpace (s.makeRoom n).cap (s.makeRoom n).wcap n), s.makeRoom n)
    else (.ok (), s.makeRoom n) :=
  rfl

/-- The bytes that are copied to the area stand behind the write position, and all others stay. -/
theorem copyFromSlice_same {u : SlideBuf} (hcopy : t.copyFromSlice bs = some u) :
    u.data = t.data ∧ u.cap = t.cap ∧ u.buf.take u.rp = t.buf.take t.rp ∧ bs <+: u.buf.drop u.wp := by
  have hwp := t.wp_le_cap
  have hrp := t.rp_le_wp
  rw [copyFromSlice] at hcopy
  split_ifs at hcopy with hroom
  have hbuf : t.wcap = t.buf.length - t.wp := rfl
  have htake : (t.buf.take t.wp ++ bs ++ t.buf.drop (t.wp + bs.length)).take t.wp = t.buf.take t.wp := by
    rw [List.append_assoc, List.take_left' (by simp [hwp])]
  obtain rfl := Option.some.inj hcopy
  refine ⟨congrArg (List.drop t.rp) htake, ?_, ?_, ?_⟩
  · simp only [cap, List.length_append, List.length_take, List.length_drop]
    omega
  · show (t.buf.take t.wp ++ bs ++ t.buf.drop (t.wp + bs.length)).take t.rp = t.buf.take t.rp
    rw [← Nat.min_eq_left hrp, ← List.take_take, htake, List.take_take, Nat.min_eq_left hrp]
  · show bs <+: (t.buf.take t.wp ++ bs ++ t.buf.drop (t.wp + bs.length)).drop t.wp
    rw [List.append_assoc, List.drop_left' (by simp [hwp])]
    exact List.prefix_append _ _

/-- An area is available exactly if there is room for as many bytes. -/
theorem Follows.area (h : Follows ses q) (n : ℕ) (buf : List UInt8) {res : Except Error Out × Session}
    (hexec : ses.exec (.availableWritableArea n buf) = some res) : Matched q (.area n) (fun _ => .unit) res := by
  obtain ⟨hdata, hcap, hrp⟩ := makeRoom_same ses.s n
  obtain ⟨v, hslide, hsame⟩ := h.of_same hdata hcap hrp
  have hroom := wcap_makeRoom_lt_iff ses.s n
  have hlen := h.length_held
  simp only [Session.exec, availableWritableArea_eq] at hexec
  by_cases hfull : (ses.s.makeRoom n).wcap < n
  · rw [if_pos hfull] at hexec
    obtain rfl := Option.some.inj hexec
    refine ⟨none, v, ⟨?_, hslide⟩, trivial, hsame⟩
    rw [hlen, h.cap]
    exact hroom.mp hfull
  · rw [if_neg hfull] at hexec
    obtain ⟨u, hcopy, rfl⟩ := Option.map_eq_some_iff.mp hexec
    obtain ⟨hudata, hucap, hukept, hufilled⟩ := copyFromSlice_same hcopy
    refine ⟨some [], v, ⟨?_, rfl, hslide, ?_⟩, rfl, hsame.cap.trans hucap.symm, hsame.held.trans hudata.symm,
      hsame.kept.trans hukept.symm, hufilled⟩
    · have hnot := mt hroom.mpr hfull
      rw [hlen, h.cap]
      omega
    · have hwp := (ses.s.makeRoom n).wp_le_cap
      have hwcap : (ses.s.makeRoom n).wcap = (ses.s.makeRoom n).buf.length - (ses.s.makeRoom n).wp := rfl
      have hvcap : v.cap = (ses.s.makeRoom n).buf.length := hsame.cap
      have hfront : v.kept.length + v.held.length = (ses.s.makeRoom n).wp := hsame.length_front
      omega

/-- The write position moves over bytes that were written to the area. -/
theorem Follows.wadv_filled (h : Follows ses q) {x : ℕ} (hx : x ≤ ses.filled.length) :
    Matched q (.put (ses.filled.take x)) (fun _ => .unit)
      ((ses.s.wadv x).1.map fun _ => .unit, ⟨(ses.s.wadv x).2, ses.filled.drop x⟩) := by
  have hwp := ses.s.wp_le_cap
  have hrp := ses.s.rp_le_wp
  have hwcap : ses.s.wcap = ses.s.buf.length - ses.s.wp := rfl
  have hheld : ses.s.len = ses.s.wp - ses.s.rp := rfl
  have hcap : ses.s.cap = ses.s.buf.length := rfl
  have hfit : ses.filled.length ≤ ses.s.buf.length - ses.s.wp := by
    have hle := h.filled.length_le
    rwa [List.length_drop] at hle
  obtain ⟨rest, hrest⟩ := h.filled
  obtain ⟨t, ht, htbuf, htwp, htrp⟩ := wadv_ok (s := ses.s) (x := x) (by omega)
  rw [ht]
  have hfront := h.length_front
  have hqcap : q.cap = ses.s.buf.length := h.cap
  have hroom : q.kept.length + q.held.length + (ses.filled.take x).length ≤ q.cap := by
    rw [List.length_take]
    omega
  refine ⟨some [], q.append (ses.filled.take x) hroom, ⟨by omega, rfl, q, Or.inl rfl, hroom, rfl⟩, rfl,
    h.append ?_ (congrArg List.length htbuf) (by rw [htbuf, htrp]) ?_ hroom⟩
  · show (t.buf.take t.wp).drop t.rp = (ses.s.buf.take ses.s.wp).drop ses.s.rp ++ ses.filled.take x
    have hnew : (ses.s.buf.drop ses.s.wp).take x = ses.filled.take x := by
      rw [← hrest, List.take_append_of_le_length hx]
    rw [htbuf, htwp, htrp, List.take_add, hnew, List.drop_append_of_le_length]
    rw [List.length_take]
    omega
  · rw [htbuf, htwp, ← List.drop_drop, ← hrest, List.drop_append_of_le_length hx]
    exact List.prefix_append _ _

/-- The write position can not move over more bytes than there is room for. -/
theorem wadv_error {e : Error} (hwadv : ses.s.wadv n = (.error e, t)) :
    ses.s.cap < ses.s.len + n ∧ t = ses.s.rewind := by
  by_cases hsmall : ses.s.wcap < n
  · have hwcap := wcap_rewind ses.s
    rw [SlideBuf.wadv, if_pos hsmall, wadvChecked] at hwadv
    split_ifs at hwadv with hfull
    · refine ⟨by omega, ?_⟩
      exact (Prod.mk.inj hwadv).2.symm
    · exact absurd (Prod.mk.inj hwadv).1 (by simp)
  · obtain ⟨u, hu, -⟩ := wadv_ok (Nat.le_of_not_lt hsmall)
    rw [hu] at hwadv
    exact absurd (Prod.mk.inj hwadv).1 (by simp)

/-- The write position moves over bytes that were written to the area, or not at all. -/
theorem Follows.wadv (h : Follows ses q) (x : ℕ) {res : Except Error Out × Session}
    (hexec : ses.exec (.wadv x) = some res) : Matched q ((Op.wadv x).action ses) (fun _ => .unit) res := by
  simp only [Session.exec] at hexec
  by_cases hx : x ≤ ses.filled.length
  · rw [if_pos hx] at hexec
    obtain rfl := Option.some.inj hexec
    rw [Op.action, if_pos hx]
    exact h.wadv_filled hx
  · rw [if_neg hx] at hexec
    rw [Op.action, if_neg hx]
    split at hexec
    · exact absurd hexec (by simp)
    · rename_i e t hwadv
      obtain ⟨hfull, rfl⟩ := wadv_error hwadv
      obtain rfl := Option.some.inj hexec
      refine ⟨none, q.slide, ⟨?_, Or.inr rfl⟩, trivial, h.slide (data_rewind _) (cap_rewind _) rfl⟩
      rw [h.length_held, h.cap]
      exact hfull

theorem moved_map {α β : Type} (ses : Session) (r : Except Error α × SlideBuf) (f : α → β) (out : β → Out) :
    ses.moved (r.1.map f, r.2) out = ses.moved r fun x => out (f x) := by
  obtain ⟨_ | _, _⟩ := r <;> rfl

theorem Follows.readBe (h : Follows ses q) (size : ℕ) (out : ℕ → Out) :
    Matched q (.take size) (fun bs => out (ofBe bs)) (ses.moved (ses.s.readBe size) out) := by
  rw [SlideBuf.readBe, moved_map]
  exact h.take size _

/-- Each operation does what a bounded queue of bytes may do. -/
theorem Follows.exec (h : Follows ses q) {op : Op} {res : Except Error Out × Session}
    (hexec : ses.exec op = some res) : Matched q (op.action ses) op.decode res := by
  cases op with
  | availableWritableArea needMin buf => exact h.area needMin buf hexec
  | wadv x => exact h.wadv x hexec
  | putSlice buf =>
      obtain rfl := Option.some.inj hexec
      exact h.put buf
  | writeBuf buf =>
      obtain rfl := Option.some.inj hexec
      exact h.put buf
  | putU8 v =>
      obtain rfl := Option.some.inj hexec
      exact h.put (beBytes 1 v.toNat)
  | putU16Be v =>
      obtain rfl := Option.some.inj hexec
      exact h.put (beBytes 2 v.toNat)
  | putU32Be v =>
      obtain rfl := Option.some.inj hexec
      exact h.put (beBytes 4 v.toNat)
  | putU64Be v =>
      obtain rfl := Option.some.inj hexec
      exact h.put (beBytes 8 v.toNat)
  | putF32Be bits =>
      obtain rfl := Option.some.inj hexec
      exact h.put (beBytes 4 bits.toNat)
  | putF64Be bits =>
      obtain rfl := Option.some.inj hexec
      exact h.put (beBytes 8 bits.toNat)
  | readBytes n =>
      obtain rfl := Option.some.inj hexec
      exact h.take n .bytes
  | readU8 =>
      obtain rfl := Option.some.inj hexec
      exact h.readBe 1 .nat
  | readU16Be =>
      obtain rfl := Option.some.inj hexec
      exact h.readBe 2 .nat
  | readU32Be =>
      obtain rfl := Option.some.inj hexec
      exact h.readBe 4 .nat
  | readU64Be =>
      obtain rfl := Option.some.inj hexec
      exact h.readBe 8 .nat
  | readI32Be =>
      obtain rfl := Option.some.inj hexec
      rw [readI32Be, moved_map]
      exact h.readBe 4 fun v => .int (asSigned 32 v)
  | readI64Be =>
      obtain rfl := Option.some.inj hexec
      rw [readI64Be, moved_map]
      exact h.readBe 8 fun v => .int (asSigned 64 v)
  | readF32Be =>
      obtain rfl := Option.some.inj hexec
      exact h.readBe 4 .nat
  | readF64Be =>
      obtain rfl := Option.some.inj hexec
      exact h.readBe 8 .nat
  | adv x =>
      obtain rfl := Option.some.inj hexec
      exact h.adv x
  | setRp rp =>
      obtain rfl := Option.some.inj hexec
      exact h.seek rp
  | rewindRp n =>
      obtain rfl := Option.some.inj hexec
      exact h.back n
  | rewind =>
      obtain rfl := Option.some.inj hexec
      exact h.rewind
  | rewindIfNeeded needMin =>
      obtain rfl := Option.some.inj hexec
      obtain ⟨hdata, hcap⟩ := rewindIfNeeded_same ses.s needMin
      exact h.keep hdata hcap (rewindIfNeeded_rp ses.s needMin)
  | reset =>
      obtain rfl := Option.some.inj hexec
      exact h.reset

end Single

/-! ## Sequences of operations -/

/-- The operations of a session with their outputs, and with the actions of a queue and its answers -/
inductive Traces :
    Session → List Op → List (Except Error Out) → List (Tape.Action × Option (List UInt8)) → Session → Prop
  | nil (ses : Session) : Traces ses [] [] [] ses
  | cons {ses ses' ses'' : Session} {op : Op} {ops : List Op} {out : Except Error Out} {outs : List (Except Error Out)}
      {r : Option (List UInt8)} {es : List (Tape.Action × Option (List UInt8))}
      (hexec : ses.exec op = some (out, ses')) (hanswer : Answers op.decode out r)
      (hrest : Traces ses' ops outs es ses'') : Traces ses (op :: ops) (out :: outs) ((op.action ses, r) :: es) ses''

theorem Follows.run {ses ses' : Session} {q : Tape} (h : Follows ses q) {ops : List Op}
    {outs : List (Except Error Out)} (hrun : ses.run ops = some (outs, ses')) :
    ∃ es q', Traces ses ops outs es ses' ∧ Tape.Runs es q q' ∧ Follows ses' q' := by
  induction ops generalizing ses q outs with
  | nil =>
      obtain ⟨rfl, rfl⟩ := Prod.mk.inj (Option.some.inj hrun)
      exact ⟨[], q, .nil ses, .nil q, h⟩
  | cons op ops ih =>
      obtain ⟨⟨out, mid⟩, hexec, hmap⟩ := Option.bind_eq_some_iff.mp hrun
      obtain ⟨⟨outs', last⟩, hrest, heq⟩ := Option.map_eq_some_iff.mp hmap
      obtain ⟨rfl, rfl⟩ := Prod.mk.inj heq
      obtain ⟨r, q', hallows, hanswer, hmid⟩ := h.exec hexec
      obtain ⟨es, q'', htraces, hruns, hlast⟩ := ih hmid hrest
      exact ⟨_, q'', .cons hexec hanswer htraces, .cons hallows hruns, hlast⟩

theorem follows_new (cap : ℕ) : Follows (Session.new cap) (Tape.new cap) where
  cap := (cap_new cap).symm
  held := (data_new cap).symm
  kept := rfl
  filled := List.nil_prefix

/-- Every sequence of operations on a new buffer does what a bounded queue of bytes does: what is put is what was read,
and then what is held, and where no operation goes back, the bytes are read once each. -/
theorem run_refines {cap : ℕ} {ops : List Op} {outs : List (Except Error Out)} {ses : Session}
    (hrun : (Session.new cap).run ops = some (outs, ses)) :
    ∃ es q, Traces (Session.new cap) ops outs es ses ∧ Tape.Runs es (Tape.new cap) q ∧
      ses.s.rp ≤ ses.s.wp ∧ ses.s.wp ≤ ses.s.cap ∧ ses.s.cap = cap ∧ q.held = ses.s.data ∧
      q.kept = ses.s.buf.take ses.s.rp ∧ q.held.length ≤ q.cap ∧
      es.flatMap Tape.putBy = q.past ++ ses.s.data ∧
      ((∀ e ∈ es, Tape.Forward e) → es.flatMap Tape.takenBy = q.past) := by
  obtain ⟨es, q, htraces, hruns, hlast⟩ := (follows_new cap).run hrun
  obtain ⟨hcap, hwritten⟩ := hruns.written_eq
  refine ⟨es, q, htraces, hruns, ses.s.rp_le_wp, ses.s.wp_le_cap, hlast.cap.symm.trans hcap, hlast.held,
    hlast.kept, q.length_held_le, ?_, ?_⟩
  · rw [← hlast.held, hwritten]
    rfl
  · intro hforward
    rw [hruns.taken_eq hforward, Tape.past_new, List.nil_append]

/-- In a buffer of four bytes, five bytes do not fit, and two fit behind the one that is left.  The reader goes back over
one of the two bytes that are kept, but not over three. -/
theorem run_refines_four :
    ∃ ses, (Session.new 4).run [.putU16Be 0x102, .readU8, .putSlice [3, 4, 5, 6], .putSlice [3, 4],
        .availableWritableArea 1 [7], .wadv 1, .readU16Be, .rewindRp 3, .rewindRp 1] =
          some ([.ok .unit, .ok (.nat 1), .error (.notEnoughSpace 4 3 4), .ok .unit, .ok .unit, .ok .unit,
            .ok (.nat 0x203), .error .notEnoughBytes, .ok .unit], ses) ∧
      ses.s.data = [3, 4, 7] ∧
      ∃ es q, Tape.Runs es (Tape.new 4) q ∧ q.kept = [2] ∧ es.flatMap Tape.putBy = q.past ++ [3, 4, 7] := by
  have hrun : (Session.new 4).run [.putU16Be 0x102, .readU8, .putSlice [3, 4, 5, 6], .putSlice [3, 4],
      .availableWritableArea 1 [7], .wadv 1, .readU16Be, .rewindRp 3, .rewindRp 1] =
        some ([.ok .unit, .ok (.nat 1), .error (.notEnoughSpace 4 3 4), .ok .unit, .ok .unit, .ok .unit,
          .ok (.nat 0x203), .error .notEnoughBytes, .ok .unit],
          ⟨⟨[2, 3, 4, 7], 4, 1, by decide, by decide⟩, []⟩) := rfl
  obtain ⟨es, q, -, hruns, -, -, -, -, hkept, -, hput, -⟩ := run_refines hrun
  exact ⟨_, hrun, by decide, es, q, hruns, hkept, hput⟩

end SlideBuf
end Streams
end Daqbuf
