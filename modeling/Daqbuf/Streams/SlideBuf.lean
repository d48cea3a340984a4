import Daqbuf.Bytes.Endian
import Daqbuf.Bytes.Fifo
import Mathlib.Order.Basic
/-!
# The Slide Buffer

A byte buffer with a read and a write position.  The bytes between the positions slide to the front of
the buffer when the space behind them does not suffice.

Main results:

- Theorem {lit}`availableWritableArea_ok`: a writable area is available when there is room for it.
- The instance of {lit}`LawfulByteQueue`: the slide buffer behaves as a bounded queue of bytes.
-/

namespace Daqbuf
namespace Streams

open Bytes

/-- {lit}`SlideBuf`, with the invariants of {lit}`check_invariants` -/
structure SlideBuf where
  buf : List UInt8
  wp : ℕ
  rp : ℕ
  rp_le_wp : rp ≤ wp
  wp_le_cap : wp ≤ buf.length
  deriving DecidableEq

namespace SlideBuf

/-- {lit}`Error` -/
inductive Error where
  | notEnoughBytes
  | notEnoughSpace (cap wcap need : ℕ)
  deriving DecidableEq, Repr

/-- {lit}`new` -/
def new (cap : ℕ) : SlideBuf where
  buf := List.replicate cap 0
  wp := 0
  rp := 0
  rp_le_wp := Nat.le_refl _
  wp_le_cap := Nat.zero_le _

/-- {lit}`len` -/
def len (s : SlideBuf) : ℕ := s.wp - s.rp

/-- {lit}`cap` -/
def cap (s : SlideBuf) : ℕ := s.buf.length

/-- {lit}`wcap` -/
def wcap (s : SlideBuf) : ℕ := s.buf.length - s.wp

/-- {lit}`data` -/
def data (s : SlideBuf) : List UInt8 := (s.buf.take s.wp).drop s.rp

/-- {lit}`adv`; an operation returns its result and the buffer behind it. -/
def adv (s : SlideBuf) (x : ℕ) : Except Error Unit × SlideBuf :=
  if h : s.len < x then
    (.error .notEnoughBytes, s)
  else
    (.ok (), { s with
      rp := s.rp + x
      rp_le_wp := by
        have hle := s.rp_le_wp
        unfold len at h
        omega })

/-- {lit}`rewind`: the bytes that are held move to the front. -/
def rewind (s : SlideBuf) : SlideBuf where
  buf := s.data ++ s.buf.drop s.len
  wp := s.wp - s.rp
  rp := 0
  rp_le_wp := Nat.zero_le _
  wp_le_cap := by
    have hrp := s.rp_le_wp
    have hwp := s.wp_le_cap
    simp only [data, len, List.length_append, List.length_drop, List.length_take]
    omega

/-- {lit}`rewind_if_needed` -/
def rewindIfNeeded (s : SlideBuf) (needMin : ℕ) : SlideBuf :=
  if s.rp ≠ 0 ∧ s.rp = s.wp then
    { s with rp := 0, wp := 0, rp_le_wp := Nat.le_refl _, wp_le_cap := Nat.zero_le _ }
  else if s.cap < s.rp + needMin then
    s.rewind
  else
    s

/-- The second half of {lit}`wadv`, behind a possible rewind. -/
def wadvChecked (s : SlideBuf) (x : ℕ) : Except Error Unit × SlideBuf :=
  if h : s.wcap < x then
    (.error (.notEnoughSpace s.cap s.wcap x), s)
  else
    (.ok (), { s with
      wp := s.wp + x
      rp_le_wp := Nat.le_trans s.rp_le_wp (Nat.le_add_right _ _)
      wp_le_cap := by
        have hle := s.wp_le_cap
        unfold wcap at h
        omega })

/-- {lit}`wadv` -/
def wadv (s : SlideBuf) (x : ℕ) : Except Error Unit × SlideBuf :=
  (if s.wcap < x then s.rewind else s).wadvChecked x

/-- {lit}`available_writable_area`; on success, the bytes from the write position on may be written. -/
def availableWritableArea (s : SlideBuf) (needMin : ℕ) : Except Error Unit × SlideBuf :=
  let s := s.rewindIfNeeded needMin
  let s := if s.wcap < needMin then s.rewind else s
  if s.wcap < needMin then
    (.error (.notEnoughSpace s.cap s.wcap needMin), s)
  else
    (.ok (), s)

/-- Copies bytes to the front of the writable area; {lit}`none` when the area is too short, where the
slice of the source panics. -/
def copyFromSlice (s : SlideBuf) (bs : List UInt8) : Option SlideBuf :=
  if h : bs.length ≤ s.wcap then
    some { s with
      buf := s.buf.take s.wp ++ bs ++ s.buf.drop (s.wp + bs.length)
      wp_le_cap := by
        have hle := s.wp_le_cap
        simp only [List.length_append, List.length_take, List.length_drop]
        omega }
  else
    none

/-- {lit}`read_bytes` -/
def readBytes (s : SlideBuf) (n : ℕ) : Except Error (List UInt8) × SlideBuf :=
  if h : s.len < n then (.error .notEnoughBytes, s)
  else (.ok (slice s.buf s.rp (s.rp + n)), { s with
    rp := s.rp + n
    rp_le_wp := by
      have hle := s.rp_le_wp
      unfold len at h
      omega })

/-- {lit}`reset` -/
def reset (s : SlideBuf) : SlideBuf where
  buf := s.buf
  wp := 0
  rp := 0
  rp_le_wp := Nat.le_refl _
  wp_le_cap := Nat.zero_le _

/-! ## The buffer as a bounded queue -/

@[simp]
theorem length_data (s : SlideBuf) : s.data.length = s.len := by
  have hwp := s.wp_le_cap
  simp only [data, len, List.length_drop, List.length_take]
  omega

theorem len_le_cap (s : SlideBuf) : s.len ≤ s.cap := by
  have hwp := s.wp_le_cap
  unfold len cap
  omega

@[simp]
theorem data_new (cap : ℕ) : (new cap).data = [] := by simp [new, data]

@[simp]
theorem cap_new (cap : ℕ) : (new cap).cap = cap := by simp [new, SlideBuf.cap]

@[simp]
theorem data_rewind (s : SlideBuf) : s.rewind.data = s.data := by
  have hlen := s.length_data
  have htake : (s.data ++ s.buf.drop s.len).take s.len = s.data := by
    rw [← hlen, List.take_left]
  simpa [rewind, data, len] using htake

@[simp]
theorem cap_rewind (s : SlideBuf) : s.rewind.cap = s.cap := by
  have hwp := s.wp_le_cap
  simp only [rewind, cap, List.length_append, length_data, List.length_drop, len]
  omega

theorem wcap_rewind (s : SlideBuf) : s.rewind.wcap = s.cap - s.len := by
  have hcap := s.cap_rewind
  simp only [cap] at hcap ⊢
  simp only [wcap, hcap]
  rfl

/-- Rewinding touches neither the bytes that are held nor the capacity. -/
theorem rewindIfNeeded_same (s : SlideBuf) (needMin : ℕ) :
    (s.rewindIfNeeded needMin).data = s.data ∧ (s.rewindIfNeeded needMin).cap = s.cap := by
  unfold rewindIfNeeded
  split <;> rename_i hempty
  · refine ⟨?_, rfl⟩
    rw [data, data, ← hempty.2]
    simp
  · split
    · exact ⟨s.data_rewind, s.cap_rewind⟩
    · exact ⟨rfl, rfl⟩

/-- A writable area is available exactly when there is room for it. -/
theorem availableWritableArea_ok {s : SlideBuf} {needMin : ℕ} (hroom : s.len + needMin ≤ s.cap) :
    ∃ t, s.availableWritableArea needMin = (.ok (), t) ∧ t.data = s.data ∧ t.cap = s.cap ∧
      needMin ≤ t.wcap := by
  rcases s.rewindIfNeeded_same needMin with ⟨hdata, hcap⟩
  unfold availableWritableArea
  generalize s.rewindIfNeeded needMin = r at hdata hcap
  have hlen : r.len = s.len := by rw [← length_data, hdata, length_data]
  simp only
  by_cases hsmall : r.wcap < needMin
  · have hwcap := r.wcap_rewind
    rw [if_pos hsmall, if_neg (by omega)]
    exact ⟨_, rfl, r.data_rewind.trans hdata, r.cap_rewind.trans hcap, by omega⟩
  · rw [if_neg hsmall, if_neg hsmall]
    exact ⟨_, rfl, hdata, hcap, by omega⟩

/-- Without the room, no writable area is available, and the bytes that are held stay. -/
theorem availableWritableArea_error {s : SlideBuf} {needMin : ℕ} (hfull : s.cap < s.len + needMin) :
    ∃ e t, s.availableWritableArea needMin = (.error e, t) ∧ t.data = s.data ∧ t.cap = s.cap := by
  rcases s.rewindIfNeeded_same needMin with ⟨hdata, hcap⟩
  unfold availableWritableArea
  generalize s.rewindIfNeeded needMin = r at hdata hcap
  have hlen : r.len = s.len := by rw [← length_data, hdata, length_data]
  have hsmall : r.wcap < needMin := by
    have hle := s.len_le_cap
    have hrlen : r.len = r.wp - r.rp := rfl
    have hwcap : r.wcap = r.cap - r.wp := rfl
    omega
  have hwcap := r.wcap_rewind
  simp only
  rw [if_pos hsmall, if_pos (by omega)]
  exact ⟨_, _, rfl, r.data_rewind.trans hdata, r.cap_rewind.trans hcap⟩

/-- Where there is room, advancing the write position only moves it. -/
theorem wadv_ok {s : SlideBuf} {x : ℕ} (hroom : x ≤ s.wcap) :
    ∃ t, s.wadv x = (.ok (), t) ∧ t.buf = s.buf ∧ t.wp = s.wp + x ∧ t.rp = s.rp := by
  have hnot : ¬ s.wcap < x := Nat.not_lt.mpr hroom
  rw [wadv, if_neg hnot, wadvChecked, dif_neg hnot]
  exact ⟨_, rfl, rfl, rfl, rfl⟩

/-- Where there is room, the copied bytes stand behind the write position. -/
theorem copyFromSlice_some {s : SlideBuf} {bs : List UInt8} (hroom : bs.length ≤ s.wcap) :
    ∃ t, s.copyFromSlice bs = some t ∧ t.wp = s.wp ∧ t.rp = s.rp ∧ t.cap = s.cap ∧
      t.buf.take (s.wp + bs.length) = s.buf.take s.wp ++ bs := by
  have hwp := s.wp_le_cap
  refine ⟨_, dif_pos hroom, rfl, rfl, ?_, ?_⟩
  · unfold wcap at hroom
    simp only [cap, List.length_append, List.length_take, List.length_drop]
    omega
  · rw [List.take_left']
    simp only [List.length_append, List.length_take]
    omega

/-- Filling the writable area and advancing the write position appends to the bytes that are held. -/
theorem copyFromSlice_wadv {s : SlideBuf} {bs : List UInt8} (hroom : bs.length ≤ s.wcap) :
    ∃ t u, s.copyFromSlice bs = some t ∧ t.wadv bs.length = (.ok (), u) ∧ u.data = s.data ++ bs ∧
      u.cap = s.cap := by
  rcases copyFromSlice_some hroom with ⟨t, hcopy, htwp, htrp, htcap, htake⟩
  have hwcap : t.wcap = s.wcap := by
    unfold wcap cap at *
    rw [htcap, htwp]
  rcases wadv_ok (hwcap ▸ hroom) with ⟨u, hwadv, hubuf, huwp, hurp⟩
  refine ⟨t, u, hcopy, hwadv, ?_, ?_⟩
  · have hwp := s.wp_le_cap
    have hrp := s.rp_le_wp
    rw [data, huwp, hurp, hubuf, htwp, htrp, htake, List.drop_append_of_le_length, data]
    rw [List.length_take]
    omega
  · rw [cap, hubuf]
    exact htcap

/-- Advancing the read position drops bytes from the front. -/
theorem adv_ok {s : SlideBuf} {x : ℕ} (hle : x ≤ s.len) :
    ∃ t, s.adv x = (.ok (), t) ∧ t.data = s.data.drop x ∧ t.cap = s.cap := by
  rw [adv, dif_neg (by omega)]
  refine ⟨_, rfl, ?_, rfl⟩
  simp [data, List.drop_drop]

/-- The slide buffer as a byte buffer: the writable area begins at the write position, and filling it
advances that position. -/
instance : ByteQueue SlideBuf where
  create := new
  cap := cap
  data := data
  area s n :=
    match s.availableWritableArea n with
    | (.ok (), t) => some (t.wcap, t)
    | (.error _, _) => none
  fill s bs := (s.copyFromSlice bs).bind fun t =>
    match t.wadv bs.length with
    | (.ok (), u) => some u
    | (.error _, _) => none
  adv s n :=
    match s.adv n with
    | (.ok (), t) => some t
    | (.error _, _) => none

/-- The slide buffer behaves as a bounded queue. -/
instance : LawfulByteQueue SlideBuf where
  create_spec n := ⟨data_new n, cap_new n⟩
  area_eq_none s n := by
    have hlen : ByteQueue.len s = s.len := s.length_data
    have hcap : ByteQueue.cap s = s.cap := rfl
    by_cases hroom : s.len + n ≤ s.cap
    · rcases availableWritableArea_ok hroom with ⟨t, harea, _⟩
      simp only [ByteQueue.area, harea, reduceCtorEq, false_iff]
      omega
    · rcases availableWritableArea_error (Nat.lt_of_not_le hroom) with ⟨e, t, harea, _⟩
      simp only [ByteQueue.area, harea, true_iff]
      omega
  area_spec s t n a harea := by
    by_cases hroom : s.len + n ≤ s.cap
    · rcases availableWritableArea_ok hroom with ⟨u, hok, hdata, hcap, hwcap⟩
      simp only [ByteQueue.area, hok, Option.some.injEq, Prod.mk.injEq] at harea
      rcases harea with ⟨rfl, rfl⟩
      refine ⟨hwcap, hcap, hdata, fun bs hbs => ?_⟩
      rcases copyFromSlice_wadv hbs with ⟨v, w, hcopy, hwadv, hwdata, hwcap'⟩
      refine ⟨w, ?_, hwcap'.trans hcap, hwdata.trans (congrArg (· ++ bs) hdata)⟩
      simp only [ByteQueue.fill, hcopy, Option.bind_some, hwadv]
    · rcases availableWritableArea_error (Nat.lt_of_not_le hroom) with ⟨e, u, hfail, _⟩
      simp [ByteQueue.area, hfail] at harea
  adv_eq_none s n := by
    have hlen : ByteQueue.len s = s.len := s.length_data
    by_cases hle : n ≤ s.len
    · rcases adv_ok hle with ⟨t, hadv, _⟩
      simp only [ByteQueue.adv, hadv, reduceCtorEq, false_iff]
      omega
    · have hlt : s.len < n := Nat.lt_of_not_le hle
      simp only [ByteQueue.adv, adv, dif_pos hlt, true_iff]
      omega
  adv_spec s t n hadv := by
    by_cases hle : n ≤ s.len
    · rcases adv_ok hle with ⟨u, hok, hdata, hcap⟩
      simp only [ByteQueue.adv, hok, Option.some.injEq] at hadv
      subst hadv
      exact ⟨hcap, hdata⟩
    · have hlt : s.len < n := Nat.lt_of_not_le hle
      simp [ByteQueue.adv, adv, dif_pos hlt] at hadv

end SlideBuf

end Streams
end Daqbuf
