import Daqbuf.Scylla.Valueblob
import Daqbuf.Serieswriter.Writer
/-!
# Ingest over HTTP

Posted frames of events are pushed with a series writer.  Each event carries its timestamp, and the writer is given
a time for the partition and the offset in it, which is the reading of the clock when the frame came.

The decoded frames stand for the body of the request.

Main results:

- Theorem {lit}`pusher_injective`: no conversion of values loses anything.
- Theorem {lit}`Post.push_inserts`: the value that an event pushes.
- Theorem {lit}`Post.stores_iff`: when each event is stored under its own timestamp.
- Theorem {lit}`Post.not_stores`: two events of one frame.
-/

namespace Daqbuf
namespace Metrics

open Netpod Serieswriter
open Scylla (ArrayValue)

/-! ## Values -/

/-- {lit}`ScalarValue`, with floating point numbers by their bits -/
inductive ScalarValue where
  | u8 (x : UInt8)
  | u16 (x : UInt16)
  | u32 (x : UInt32)
  | u64 (x : UInt64)
  | i8 (x : Int8)
  | i16 (x : Int16)
  | i32 (x : Int32)
  | i64 (x : Int64)
  | f32 (bits : UInt32)
  | f64 (bits : UInt64)
  | enum (ix : Int16) (name : String)
  | string (x : String)
  | bool (x : Bool)
  deriving DecidableEq

/-- {lit}`ScalarValue::byte_size` -/
def ScalarValue.byteSize : ScalarValue → ℕ
  | u8 _ | u16 _ | u32 _ | u64 _ | i8 _ => 1
  | i16 _ => 2
  | i32 _ => 4
  | i64 _ => 8
  | f32 _ => 4
  | f64 _ => 8
  | enum _ y => (2 + y.utf8ByteSize % 2 ^ 32) % 2 ^ 32
  | string x => x.utf8ByteSize % 2 ^ 32
  | bool _ => 1

/-- {lit}`ArrayValue::byte_size` -/
def arrayByteSize : ArrayValue → ℕ
  | .u8 a => 1 * (a.length % 2 ^ 32) % 2 ^ 32
  | .u16 a => 2 * (a.length % 2 ^ 32) % 2 ^ 32
  | .u32 a => 4 * (a.length % 2 ^ 32) % 2 ^ 32
  | .u64 a => 8 * (a.length % 2 ^ 32) % 2 ^ 32
  | .i8 a => 1 * (a.length % 2 ^ 32) % 2 ^ 32
  | .i16 a => 2 * (a.length % 2 ^ 32) % 2 ^ 32
  | .i32 a => 4 * (a.length % 2 ^ 32) % 2 ^ 32
  | .i64 a => 8 * (a.length % 2 ^ 32) % 2 ^ 32
  | .f32 a => 4 * (a.length % 2 ^ 32) % 2 ^ 32
  | .f64 a => 8 * (a.length % 2 ^ 32) % 2 ^ 32
  | .bool a => 1 * (a.length % 2 ^ 32) % 2 ^ 32

/-- {lit}`DataValue` -/
inductive DataValue where
  | scalar (x : ScalarValue)
  | array (x : ArrayValue)
  deriving DecidableEq

/-- {lit}`DataValue::byte_size` -/
def DataValue.byteSize : DataValue → ℕ
  | scalar x => x.byteSize
  | array x => arrayByteSize x

/-- {lit}`WritableType` -/
structure WritableType where
  ts : ℕ
  val : DataValue

/-- {lit}`WritableTypeState` -/
structure WritableTypeState where
  series : ℕ

/-- {lit}`WritableType::byte_size` -/
def WritableType.byteSize (item : WritableType) : ℕ := (8 + item.val.byteSize) % 2 ^ 32

instance : EmittableType WritableType WritableTypeState DataValue where
  hasChange _ _ := true
  intoQueryItem item _ _ state := (⟨item.val, item.byteSize⟩, state)

/-! ## Frames -/

/-- An event of a container, and the reading of the monotonic clock when it is written -/
structure Event (T : Type) where
  ts : UInt64
  val : T
  now : ℕ

/-- The {lit}`ContainerEvents` of a posted frame, with the readings of the clocks when it came -/
structure Frame (T : Type) where
  evs : List (Event T)
  tsev : UInt64
  tsnow : ℕ

/-- The writer of a request, and everything it pushed -/
structure Post where
  writer : SeriesWriter
  deque : List (QueryItem DataValue)

namespace Post

section Push

variable {T : Type} (f1 : T → DataValue)

/-- The writer that {lit}`post_v01_try` begins with -/
def new (series : ℕ) (rt : RetentionTime) (now : ℕ) : Post where
  writer := SeriesWriter.new series (MspSplitDyn.new (1024 * 64) (1024 * 1024 * 10) rt) now
  deque := []

/-- One event of a frame.  The state of the conversion is never changed. -/
def push (tsev : UInt64) (tsnow : ℕ) (p : Post) (ev : Event T) : Post :=
  let emitState : WritableTypeState := ⟨p.writer.series⟩
  let res := p.writer.write (WritableType.mk ev.ts.toNat (f1 ev.val)) emitState tsnow tsev.toNat ev.now p.deque
  { writer := res.2.1, deque := res.2.2.2 }

/-- {lit}`evpush_dim0` -/
def evpushDim0 (p : Post) (frame : Frame T) : Post := frame.evs.foldl (push f1 frame.tsev frame.tsnow) p

/-- {lit}`evpush_dim1` -/
def evpushDim1 (p : Post) (frame : Frame T) : Post := frame.evs.foldl (push f1 frame.tsev frame.tsnow) p

/-- {lit}`tick_writers` -/
def tick (p : Post) : Post where
  writer := (p.writer.tick p.deque).1
  deque := (p.writer.tick p.deque).2

end Push

/-- {lit}`EnumVariant` -/
@[ext]
structure EnumVariant where
  ix : Int16
  name : String
  deriving DecidableEq

/-- What {lit}`evpush_dim0_enum` makes of a value -/
def ofEnumVariant (x : EnumVariant) : DataValue := .scalar (.enum x.ix x.name)

/-- {lit}`evpush_dim0_enum` -/
def evpushDim0Enum (p : Post) (frame : Frame EnumVariant) : Post :=
  frame.evs.foldl (push ofEnumVariant frame.tsev frame.tsnow) p

end Post

/-- The function that pushes the frames of a request, with the type of the values and what they become -/
structure Pusher where
  T : Type
  f1 : T → DataValue
  evpush : Post → Frame T → Post
  evpush_eq : ∀ p frame, evpush p frame = frame.evs.foldl (Post.push f1 frame.tsev frame.tsnow) p

namespace Pusher

def dim0 {T : Type} (f1 : T → DataValue) : Pusher where
  T := T
  f1 := f1
  evpush := Post.evpushDim0 f1
  evpush_eq _ _ := rfl

def dim0Enum : Pusher where
  T := Post.EnumVariant
  f1 := Post.ofEnumVariant
  evpush := Post.evpushDim0Enum
  evpush_eq _ _ := rfl

def dim1 {T : Type} (f1 : T → DataValue) : Pusher where
  T := T
  f1 := f1
  evpush := Post.evpushDim1 f1
  evpush_eq _ _ := rfl

end Pusher

/-- The cases of {lit}`post_v01_try`; nothing where it does not support the type -/
def pusher : DataShape → ScalarType → Option Pusher
  | .scalar, .u8 => some (.dim0 fun x => .scalar (.u8 x))
  | .scalar, .u16 => some (.dim0 fun x => .scalar (.u16 x))
  | .scalar, .u32 => some (.dim0 fun x => .scalar (.u32 x))
  | .scalar, .u64 => some (.dim0 fun x => .scalar (.u64 x))
  | .scalar, .i8 => some (.dim0 fun x => .scalar (.i8 x))
  | .scalar, .i16 => some (.dim0 fun x => .scalar (.i16 x))
  | .scalar, .i32 => some (.dim0 fun x => .scalar (.i32 x))
  | .scalar, .i64 => some (.dim0 fun x => .scalar (.i64 x))
  | .scalar, .f32 => some (.dim0 fun x => .scalar (.f32 x))
  | .scalar, .f64 => some (.dim0 fun x => .scalar (.f64 x))
  | .scalar, .bool => some (.dim0 fun x => .scalar (.bool x))
  | .scalar, .string => some (.dim0 fun x => .scalar (.string x))
  | .scalar, .enum => some .dim0Enum
  | .wave _, .u8 => some (.dim1 fun x => .array (.u8 x))
  | .wave _, .u16 => some (.dim1 fun x => .array (.u16 x))
  | .wave _, .u32 => some (.dim1 fun x => .array (.u32 x))
  | .wave _, .u64 => some (.dim1 fun x => .array (.u64 x))
  | .wave _, .i8 => some (.dim1 fun x => .array (.i8 x))
  | .wave _, .i16 => some (.dim1 fun x => .array (.i16 x))
  | .wave _, .i32 => some (.dim1 fun x => .array (.i32 x))
  | .wave _, .i64 => some (.dim1 fun x => .array (.i64 x))
  | .wave _, .f32 => some (.dim1 fun x => .array (.f32 x))
  | .wave _, .f64 => some (.dim1 fun x => .array (.f64 x))
  | .wave _, .bool | .wave _, .string | .wave _, .enum => none
  | .image _ _, _ => none

theorem ofEnumVariant_injective : Function.Injective Post.ofEnumVariant := by
  intro x y hxy
  injection hxy with hxy
  injection hxy with hix hname
  exact Post.EnumVariant.ext hix hname

/-- Different values stay different. -/
theorem pusher_injective {shape : DataShape} {t : ScalarType} {c : Pusher} (h : pusher shape t = some c) :
    Function.Injective c.f1 := by
  cases shape with
  | scalar =>
      cases t with
      | enum =>
          cases h
          exact ofEnumVariant_injective
      | _ =>
          cases h
          intro x y hxy
          injection hxy with hxy
          injection hxy
  | wave n =>
      cases t with
      | bool => cases h
      | string => cases h
      | enum => cases h
      | _ =>
          cases h
          intro x y hxy
          injection hxy with hxy
          injection hxy
  | image a b => cases h

/-! ## Runs -/

namespace Post

section Run

variable {T : Type}

/-- The events of the frames, in order -/
def events (frames : List (Frame T)) : List (Event T) := frames.flatMap Frame.evs

/-- The frames of a request -/
def run (c : Pusher) (p : Post) (frames : List (Frame c.T)) : Post :=
  frames.foldl (fun p frame => (c.evpush p frame).tick) p

/-- One value for each event in order, with the timestamp of the event, and each under its own key -/
structure Stores (f1 : T → DataValue) (frames : List (Frame T)) (deque : List (QueryItem DataValue)) : Prop where
  values : (inserts deque).map (fun item => (item.ts, item.val)) =
    (events frames).map fun ev => (ev.ts.toNat, f1 ev.val)
  keys : ((inserts deque).map fun item => (item.tsMsp, item.tsLsp)).Nodup

/-- Each event, with the reading of the clock when its frame came and that of the monotonic one -/
def stamped (frames : List (Frame T)) : List (UInt64 × ℕ × Event T) :=
  frames.flatMap fun frame => frame.evs.map fun ev => (frame.tsev, frame.tsnow, ev)

theorem stamped_cons (frame : Frame T) (frames : List (Frame T)) :
    stamped (frame :: frames) = frame.evs.map (fun ev => (frame.tsev, frame.tsnow, ev)) ++ stamped frames := by
  rw [stamped, List.flatMap_cons, stamped]

theorem events_eq (frames : List (Frame T)) : events frames = (stamped frames).map fun x => x.2.2 := by
  induction frames with
  | nil => rfl
  | cons frame frames ih =>
      rw [stamped_cons, List.map_append, ← ih, events, List.flatMap_cons, List.map_map]
      simp [Function.comp_def, events]

theorem forall_mem_stamped {frames : List (Frame T)} {P : UInt64 → Event T → Prop} :
    (∀ x ∈ stamped frames, P x.1 x.2.2) ↔ ∀ frame ∈ frames, ∀ ev ∈ frame.evs, P frame.tsev ev := by
  simp only [stamped, List.mem_flatMap, List.mem_map]
  constructor
  · intro h frame hframe ev hev
    exact h _ ⟨frame, hframe, ev, hev, rfl⟩
  · intro h x hx
    rcases hx with ⟨frame, hframe, ev, hev, rfl⟩
    exact h frame hframe ev hev

/-- The events are pushed one after the other. -/
theorem run_eq (c : Pusher) (p : Post) (frames : List (Frame c.T)) :
    run c p frames = (stamped frames).foldl (fun p x => push c.f1 x.1 x.2.1 p x.2.2) p := by
  induction frames generalizing p with
  | nil => rfl
  | cons frame frames ih =>
      rw [stamped_cons, List.foldl_append, List.foldl_map, ← c.evpush_eq, ← ih]
      rfl

end Run

/-! ### Times -/

section Times

variable {T : Type} (f1 : T → DataValue)

/-- Every current partition is on the grid. -/
abbrev OnGrid (p : Post) : Prop := p.writer.mspSplit.Sound (2 ^ 64 - 1)

/-- An event pushes one value, with the time of its frame or, where the clock went back behind the partition, with
none at all. -/
theorem push_inserts {p : Post} (hp : p.OnGrid) (tsev : UInt64) (tsnow : ℕ) (ev : Event T) :
    (push f1 tsev tsnow p ev).OnGrid ∧
      ∃ item : InsertItem DataValue, item.val = f1 ev.val ∧ (item.ts = tsev.toNat ∨ 2 ^ 64 ≤ item.ts) ∧
        inserts (push f1 tsev tsnow p ev).deque = inserts p.deque ++ [item] := by
  set res := (EmittableType.intoQueryItem (WritableType.mk ev.ts.toNat (f1 ev.val)) tsnow tsev.toNat
    (⟨p.writer.series⟩ : WritableTypeState)).1 with hres
  have htsev : tsev.toNat ≤ 2 ^ 64 - 1 := Nat.le_sub_one_of_lt tsev.toNat_lt
  obtain ⟨hgrid, -, hnext⟩ := hp.split_le htsev res.bytes
  refine ⟨hnext, ⟨p.writer.series, toTsMs (p.writer.mspSplit.split tsev.toNat res.bytes).1.tsMsp,
    (p.writer.mspSplit.split tsev.toNat res.bytes).1.tsLsp, res.dataItem, tsnow⟩, rfl, ?_, ?_⟩
  · rw [InsertItem.ts, MspSplitDyn.nsOfMs_toTsMs hgrid, MspSplitDyn.tsLsp_split]
    exact add_delta tsev.toNat _
  · rw [push, SeriesWriter.write_deque, inserts_append, inserts_append, SeriesWriter.inserts_mspItems,
      List.append_nil]
    rfl

theorem foldl_push_inserts {p : Post} (hp : p.OnGrid) (xs : List (UInt64 × ℕ × Event T)) :
    ∃ items : List (InsertItem DataValue),
      inserts (xs.foldl (fun p x => push f1 x.1 x.2.1 p x.2.2) p).deque = inserts p.deque ++ items ∧
      List.Forall₂ (fun item x => item.val = f1 x.2.2.val ∧ (item.ts = x.1.toNat ∨ 2 ^ 64 ≤ item.ts)) items xs := by
  induction xs generalizing p with
  | nil => exact ⟨[], (List.append_nil _).symm, .nil⟩
  | cons x xs ih =>
      rcases push_inserts f1 hp x.1 x.2.1 x.2.2 with ⟨hnext, item, hval, hts, hitem⟩
      rcases ih hnext with ⟨items, hitems, hall⟩
      refine ⟨item :: items, ?_, .cons ⟨hval, hts⟩ hall⟩
      rw [List.foldl_cons, hitems, hitem, List.append_assoc, List.singleton_append]

/-- While the clock does not go back, every value is pushed with the time of its frame. -/
theorem foldl_push_of_ordered {p : Post} {latest : ℕ} (hp : p.writer.mspSplit.Sound latest)
    {xs : List (UInt64 × ℕ × Event T)} (hord : (latest :: xs.map fun x => x.1.toNat).Pairwise (· ≤ ·)) :
    (inserts (xs.foldl (fun p x => push f1 x.1 x.2.1 p x.2.2) p).deque).map (fun item => (item.ts, item.val)) =
      (inserts p.deque).map (fun item => (item.ts, item.val)) ++ xs.map fun x => (x.1.toNat, f1 x.2.2.val) := by
  induction xs generalizing p latest with
  | nil => exact (List.append_nil _).symm
  | cons x xs ih =>
      have hle : latest ≤ x.1.toNat := (List.pairwise_cons.mp hord).1 _ List.mem_cons_self
      rcases SeriesWriter.inserts_write hp (WritableType.mk x.2.2.ts.toNat (f1 x.2.2.val))
        (⟨p.writer.series⟩ : WritableTypeState) x.2.1 x.1.toNat x.2.2.now hle p.deque with
        ⟨hnext, item, hts, hval, hitem⟩
      have hpush : inserts (push f1 x.1 x.2.1 p x.2.2).deque = inserts p.deque ++ [item] := hitem
      have hval : item.val = f1 x.2.2.val := hval
      rw [List.foldl_cons, ih (p := push f1 x.1 x.2.1 p x.2.2) hnext (List.pairwise_cons.mp hord).2, hpush,
        List.map_append, List.append_assoc, List.map_singleton, hts, hval, List.map_cons, List.singleton_append]

/-- The timestamps of the events, once they are the times that the values are pushed with -/
theorem forall_ts_eq {items : List (InsertItem DataValue)} {xs : List (UInt64 × ℕ × Event T)}
    (hall : List.Forall₂ (fun item x => item.val = f1 x.2.2.val ∧ (item.ts = x.1.toNat ∨ 2 ^ 64 ≤ item.ts)) items xs)
    (hvalues : items.map (fun item => (item.ts, item.val)) = xs.map fun x => (x.2.2.ts.toNat, f1 x.2.2.val)) :
    ∀ x ∈ xs, x.2.2.ts = x.1 := by
  induction hall with
  | nil => exact fun x hx => absurd hx List.not_mem_nil
  | @cons item x items xs hitem _ ih =>
      rcases List.cons.inj hvalues with ⟨hhead, htail⟩
      have hts : item.ts = x.2.2.ts.toNat := congrArg Prod.fst hhead
      have hx : x.2.2.ts = x.1 := by
        apply UInt64.toNat_inj.mp
        rcases hitem.2 with htsev | hbig
        · exact hts.symm.trans htsev
        · exact absurd (hts ▸ hbig) (Nat.not_le.mpr x.2.2.ts.toNat_lt)
      exact List.forall_mem_cons.mpr ⟨hx, ih htail⟩

/-- Different times have different keys. -/
theorem keys_nodup {items : List (InsertItem DataValue)} (hnodup : (items.map InsertItem.ts).Nodup) :
    (items.map fun item => (item.tsMsp, item.tsLsp)).Nodup := by
  have hmap : items.map InsertItem.ts =
      (items.map fun item => (item.tsMsp, item.tsLsp)).map fun key => nsOfMs key.1 + key.2 := by
    rw [List.map_map]
    rfl
  rw [hmap] at hnodup
  exact hnodup.of_map

/-- For timestamps that strictly increase over all frames, each event is stored under its own timestamp exactly if every
timestamp is the reading of the clock when its frame came. -/
theorem stores_iff (c : Pusher) (series : ℕ) (rt : RetentionTime) (now : ℕ) (frames : List (Frame c.T))
    (hord : ((events frames).map Event.ts).Pairwise (· < ·)) :
    Stores c.f1 frames (run c (new series rt now) frames).deque ↔
      ∀ frame ∈ frames, ∀ ev ∈ frame.evs, ev.ts = frame.tsev := by
  have hnew : ∀ latest, (new series rt now).writer.mspSplit.Sound latest := fun latest m hm => by cases hm
  rw [run_eq, ← forall_mem_stamped (P := fun tsev ev => ev.ts = tsev)]
  rw [events_eq, List.map_map] at hord
  constructor
  · intro hstores
    rcases foldl_push_inserts c.f1 (hnew _) (stamped frames) with ⟨items, hitems, hall⟩
    have hvalues := hstores.values
    rw [hitems, events_eq, List.map_map] at hvalues
    exact forall_ts_eq c.f1 hall hvalues
  · intro hall
    have hclock : (stamped frames).map (fun x => x.1.toNat) = (stamped frames).map fun x => x.2.2.ts.toNat :=
      List.map_congr_left fun x hx => congrArg UInt64.toNat (hall x hx).symm
    have hlt : ((stamped frames).map fun x => x.1.toNat).Pairwise (· < ·) := by
      rw [hclock, List.pairwise_map]
      exact (List.pairwise_map.mp hord).imp fun h => UInt64.lt_iff_toNat_lt.mp h
    have hord' : (0 :: (stamped frames).map fun x => x.1.toNat).Pairwise (· ≤ ·) :=
      List.pairwise_cons.mpr ⟨fun ts _ => Nat.zero_le ts, hlt.imp Nat.le_of_lt⟩
    have hvalues := foldl_push_of_ordered c.f1 (hnew 0) hord'
    refine ⟨?_, keys_nodup ?_⟩
    · rw [hvalues, events_eq, List.map_map]
      exact List.map_congr_left fun x hx => by rw [Function.comp_apply, hall x hx]
    · have htimes := congrArg (List.map Prod.fst) hvalues
      simp only [List.map_append, List.map_map, Function.comp_def] at htimes
      rw [show InsertItem.ts = fun item : InsertItem DataValue => item.ts from rfl, htimes]
      exact hlt.imp Nat.ne_of_lt

/-- Two frames of one event each -/
theorem stores_two :
    Stores (fun x => .scalar (.u8 x))
      [⟨[⟨5000000000, (7 : UInt8), 0⟩], 5000000000, 0⟩, ⟨[⟨6000000001, (8 : UInt8), 0⟩], 6000000001, 0⟩]
      (run (Pusher.dim0 fun x => .scalar (.u8 x)) (new 3 .short 0)
        [⟨[⟨5000000000, (7 : UInt8), 0⟩], 5000000000, 0⟩,
          ⟨[⟨6000000001, (8 : UInt8), 0⟩], 6000000001, 0⟩]).deque := by
  apply (stores_iff (Pusher.dim0 fun x => .scalar (.u8 x)) 3 .short 0
    [⟨[⟨5000000000, (7 : UInt8), 0⟩], 5000000000, 0⟩, ⟨[⟨6000000001, (8 : UInt8), 0⟩], 6000000001, 0⟩]
    (by decide)).mpr
  intro frame hframe ev hev
  simp only [List.mem_cons, List.not_mem_nil, or_false] at hframe
  rcases hframe with rfl | rfl
  · rw [List.mem_singleton.mp hev]
  · rw [List.mem_singleton.mp hev]

/-- Two events of one frame are stored under one key. -/
theorem not_stores :
    ∃ (c : Pusher) (frames : List (Frame c.T)), pusher .scalar .u8 = some c ∧
      ((events frames).map Event.ts).Pairwise (· < ·) ∧
      ¬ Stores c.f1 frames (run c (new 3 .short 0) frames).deque := by
  refine ⟨.dim0 fun x => .scalar (.u8 x),
    [⟨[⟨5000000000, (7 : UInt8), 0⟩, ⟨5000000001, (8 : UInt8), 0⟩], 9000000000, 0⟩], rfl, by decide, fun hstores => ?_⟩
  exact absurd hstores.keys (by decide)

end Times

end Post

end Metrics
end Daqbuf
