import Daqbuf.Bytes.Layout
import Daqbuf.Netpod.Types
import Daqbuf.Serieswriter.Writer
/-!
# Array Values in the Store

The writer stores an array value as a blob: a header of zeros, and then the elements.  The reader takes the elements out
of the blob again, and puts the time of the event together from the partition of the row and the offset in it.

Floating point numbers are given by their bits, and {lit}`read_unaligned` reads the low byte first.  The capacity that
the writer reserves for a blob is left out.

Main results:

- Theorem {lit}`valueOfBlob_toBinaryBlob`: an array is read from the blob that was written for it.
- Theorem {lit}`readRow_writeArrays`: so is every array value of a series, with its time.
-/

namespace Daqbuf
namespace Scylla

open Bytes Netpod Serieswriter

/-! ## Writing of elements -/

/-- {lit}`put_u8` -/
def putU8 (x : UInt8) : List UInt8 := [x]

/-- {lit}`put_u16_le` -/
def putU16Le (x : UInt16) : List UInt8 := leBytes 2 x.toNat

/-- {lit}`put_u32_le` -/
def putU32Le (x : UInt32) : List UInt8 := leBytes 4 x.toNat

/-- {lit}`put_u64_le` -/
def putU64Le (x : UInt64) : List UInt8 := leBytes 8 x.toNat

/-- {lit}`put_i8` -/
def putI8 (x : Int8) : List UInt8 := [x.toUInt8]

/-- {lit}`put_i16_le` -/
def putI16Le (x : Int16) : List UInt8 := putU16Le x.toUInt16

/-- {lit}`put_i32_le` -/
def putI32Le (x : Int32) : List UInt8 := putU32Le x.toUInt32

/-- {lit}`put_i64_le` -/
def putI64Le (x : Int64) : List UInt8 := putU64Le x.toUInt64

/-- {lit}`put_f32_le` -/
def putF32Le (bits : UInt32) : List UInt8 := putU32Le bits

/-- {lit}`put_f64_le` -/
def putF64Le (bits : UInt64) : List UInt8 := putU64Le bits

/-- The element of an array of truth values -/
def putBool (x : Bool) : List UInt8 :=
  let x : UInt8 := if x then 1 else 0
  putU8 x

/-- {lit}`ArrayValue` -/
inductive ArrayValue where
  | u8 (a : List UInt8)
  | u16 (a : List UInt16)
  | u32 (a : List UInt32)
  | u64 (a : List UInt64)
  | i8 (a : List Int8)
  | i16 (a : List Int16)
  | i32 (a : List Int32)
  | i64 (a : List Int64)
  | f32 (a : List UInt32)
  | f64 (a : List UInt64)
  | bool (a : List Bool)
  deriving DecidableEq

/-- The header of a blob -/
def blobHeader : List UInt8 := (List.range 4).flatMap fun _ => putU64Le 0

/-- {lit}`to_binary_blob` -/
def ArrayValue.toBinaryBlob : ArrayValue → List UInt8
  | u8 a => blobHeader ++ a.flatMap putU8
  | u16 a => blobHeader ++ a.flatMap putU16Le
  | u32 a => blobHeader ++ a.flatMap putU32Le
  | u64 a => blobHeader ++ a.flatMap putU64Le
  | i8 a => blobHeader ++ a.flatMap putI8
  | i16 a => blobHeader ++ a.flatMap putI16Le
  | i32 a => blobHeader ++ a.flatMap putI32Le
  | i64 a => blobHeader ++ a.flatMap putI64Le
  | f32 a => blobHeader ++ a.flatMap putF32Le
  | f64 a => blobHeader ++ a.flatMap putF64Le
  | bool a => blobHeader ++ a.flatMap putBool

/-! ## Reading of elements -/

/-- {lit}`from_valueblob` for elements of {lit}`en` bytes -/
def fromValueblob {α : Type} (en : ℕ) (readUnaligned : List UInt8 → α) (inp : List UInt8) : List α :=
  if inp.length < 32 then []
  else
    let n := (max inp.length 32 - 32) / en
    (List.range n).map fun i => readUnaligned (slice inp (32 + en * (0 + i)) (32 + en * (1 + i)))

/-- {lit}`read_unaligned` of a byte -/
def readU8 (bs : List UInt8) : UInt8 := UInt8.ofNat (ofLe bs)

/-- {lit}`read_unaligned` of a word -/
def readU16 (bs : List UInt8) : UInt16 := UInt16.ofNat (ofLe bs)

/-- {lit}`read_unaligned` of a word -/
def readU32 (bs : List UInt8) : UInt32 := UInt32.ofNat (ofLe bs)

/-- {lit}`read_unaligned` of a word -/
def readU64 (bs : List UInt8) : UInt64 := UInt64.ofNat (ofLe bs)

/-- {lit}`read_unaligned` of a truth value, which is the byte 0 or the byte 1 -/
def readBool (bs : List UInt8) : Bool := readU8 bs == 1

/-- {lit}`from_valueblob` of the type of arrays for a type of elements; {lit}`none` where the reader supports none -/
def valueOfBlob (ty : ScalarType) (inp : List UInt8) : Option ArrayValue :=
  match ty with
  | .u8 => some (.u8 (fromValueblob 1 readU8 inp))
  | .u16 => some (.u16 (fromValueblob 2 readU16 inp))
  | .u32 => some (.u32 (fromValueblob 4 readU32 inp))
  | .u64 => some (.u64 (fromValueblob 8 readU64 inp))
  | .i8 => some (.i8 (fromValueblob 1 (fun bs => (readU8 bs).toInt8) inp))
  | .i16 => some (.i16 (fromValueblob 2 (fun bs => (readU16 bs).toInt16) inp))
  | .i32 => some (.i32 (fromValueblob 4 (fun bs => (readU32 bs).toInt32) inp))
  | .i64 => some (.i64 (fromValueblob 8 (fun bs => (readU64 bs).toInt64) inp))
  | .f32 => some (.f32 (fromValueblob 4 readU32 inp))
  | .f64 => some (.f64 (fromValueblob 8 readU64 inp))
  | .bool => some (.bool (fromValueblob 1 readBool inp))
  | .string | .enum => none

/-- The type of the elements -/
def ArrayValue.scalarType : ArrayValue → ScalarType
  | u8 _ => .u8
  | u16 _ => .u16
  | u32 _ => .u32
  | u64 _ => .u64
  | i8 _ => .i8
  | i16 _ => .i16
  | i32 _ => .i32
  | i64 _ => .i64
  | f32 _ => .f32
  | f64 _ => .f64
  | bool _ => .bool

/-! ## Elements of one length -/

/-- A type of elements whose writer and reader agree -/
def layoutU8 : Layout UInt8 where
  size := 1
  put := putU8
  read := readU8
  size_pos := by decide
  length_put _ := rfl
  read_put x := by simp [readU8, putU8, ofLe]

def layoutU16 : Layout UInt16 :=
  .ofWord 2 UInt16.toNat UInt16.ofNat (by decide) UInt16.toNat_lt fun _ => UInt16.ofNat_toNat

def layoutU32 : Layout UInt32 :=
  .ofWord 4 UInt32.toNat UInt32.ofNat (by decide) UInt32.toNat_lt fun _ => UInt32.ofNat_toNat

def layoutU64 : Layout UInt64 :=
  .ofWord 8 UInt64.toNat UInt64.ofNat (by decide) UInt64.toNat_lt fun _ => UInt64.ofNat_toNat

def layoutI8 : Layout Int8 := layoutU8.iso UInt8.toInt8 Int8.toUInt8 Int8.toInt8_toUInt8

def layoutI16 : Layout Int16 := layoutU16.iso UInt16.toInt16 Int16.toUInt16 Int16.toInt16_toUInt16

def layoutI32 : Layout Int32 := layoutU32.iso UInt32.toInt32 Int32.toUInt32 Int32.toInt32_toUInt32

def layoutI64 : Layout Int64 := layoutU64.iso UInt64.toInt64 Int64.toUInt64 Int64.toInt64_toUInt64

def layoutBool : Layout Bool where
  size := 1
  put := putBool
  read := readBool
  size_pos := by decide
  length_put _ := rfl
  read_put x := by cases x <;> rfl

theorem length_blobHeader : blobHeader.length = 32 := rfl

/-- Elements of one length are read from behind the header. -/
theorem fromValueblob_put {α : Type} (l : Layout α) (a : List α) :
    fromValueblob l.size l.read (blobHeader ++ a.flatMap l.put) = a := by
  have hlen : (blobHeader ++ a.flatMap l.put).length = 32 + l.size * a.length := by
    rw [List.length_append, length_blobHeader, l.length_flatMap_put]
  have hcount : (max (32 + l.size * a.length) 32 - 32) / l.size = a.length := by
    rw [Nat.max_eq_left (Nat.le_add_right _ _), Nat.add_sub_cancel_left, Nat.mul_div_cancel_left _ l.size_pos]
  rw [fromValueblob, if_neg (by omega)]
  simp only [hlen, hcount, Nat.zero_add, Nat.add_comm 1]
  exact l.map_read_slice blobHeader a

/-- An array is read from the blob that was written for it. -/
theorem valueOfBlob_toBinaryBlob (v : ArrayValue) : valueOfBlob v.scalarType v.toBinaryBlob = some v := by
  cases v with
  | u8 a => exact congrArg (fun a => some (ArrayValue.u8 a)) (fromValueblob_put layoutU8 a)
  | u16 a => exact congrArg (fun a => some (ArrayValue.u16 a)) (fromValueblob_put layoutU16 a)
  | u32 a => exact congrArg (fun a => some (ArrayValue.u32 a)) (fromValueblob_put layoutU32 a)
  | u64 a => exact congrArg (fun a => some (ArrayValue.u64 a)) (fromValueblob_put layoutU64 a)
  | i8 a => exact congrArg (fun a => some (ArrayValue.i8 a)) (fromValueblob_put layoutI8 a)
  | i16 a => exact congrArg (fun a => some (ArrayValue.i16 a)) (fromValueblob_put layoutI16 a)
  | i32 a => exact congrArg (fun a => some (ArrayValue.i32 a)) (fromValueblob_put layoutI32 a)
  | i64 a => exact congrArg (fun a => some (ArrayValue.i64 a)) (fromValueblob_put layoutI64 a)
  | f32 a => exact congrArg (fun a => some (ArrayValue.f32 a)) (fromValueblob_put layoutU32 a)
  | f64 a => exact congrArg (fun a => some (ArrayValue.f64 a)) (fromValueblob_put layoutU64 a)
  | bool a => exact congrArg (fun a => some (ArrayValue.bool a)) (fromValueblob_put layoutBool a)

/-! ## Rows -/

/-- A row of a table of array values -/
structure ArrayRow where
  tsMsp : Int64
  tsLsp : Int64
  value : List UInt8
  deriving DecidableEq

/-- {lit}`insert_array_gen_fut` -/
def insertArrayGenFut (tsMsp tsLsp : UInt64) (val : List UInt8) : ArrayRow := ⟨tsMsp.toInt64, tsLsp.toInt64, val⟩

/-- The row that is inserted for an array value: {lit}`SeriesWriter::write` with {lit}`MspSplitDyn`, and then
{lit}`insert_item_fut` -/
def writeArray (spl : MspSplitDyn) (ts : UInt64) (itemBytes : UInt32) (val : ArrayValue) : ArrayRow × MspSplitDyn :=
  let (res, spl) := spl.split ts.toNat itemBytes.toNat
  (insertArrayGenFut (UInt64.ofNat (toTsMs res.tsMsp)) (UInt64.ofNat res.tsLsp) val.toBinaryBlob, spl)

/-- An event of a series, and its size for the writer -/
structure ArrayEvent where
  ts : UInt64
  itemBytes : UInt32
  val : ArrayValue

/-- The rows that are inserted for the events of a series -/
def writeArrays (spl : MspSplitDyn) : List ArrayEvent → List ArrayRow
  | [] => []
  | e :: es => (writeArray spl e.ts e.itemBytes e.val).1 :: writeArrays (writeArray spl e.ts e.itemBytes e.val).2 es

/-- {lit}`MspEv::to_ts` -/
def mspEvToTs (msp lsp : UInt64) : UInt64 := msp * 1000000 + lsp

/-- The event of a row, which is read in its partition -/
def readRow (ty : ScalarType) (row : ArrayRow) : Option (UInt64 × ArrayValue) :=
  (valueOfBlob ty row.value).map fun val => (mspEvToTs row.tsMsp.toUInt64 row.tsLsp.toUInt64, val)

/-- Partitions begin at whole milliseconds. -/
def OnMs (spl : MspSplitDyn) : Prop := ∀ m, spl.last = some m → 1000000 ∣ m ∧ m < 2 ^ 64

/-- The difference that wraps around is that of {lit}`u64`. -/
theorem ofNat_delta (ts : UInt64) {m : ℕ} (hlt : m < 2 ^ 64) :
    UInt64.ofNat (delta ts.toNat m) = ts - UInt64.ofNat m := by
  have hts := ts.toNat_lt
  apply UInt64.toNat_inj.mp
  rw [UInt64.toNat_sub, UInt64.toNat_ofNat_of_lt' hlt, UInt64.toNat_ofNat', delta]
  split_ifs <;> omega

/-- The two parts of a time are put together to it again, also where the difference wrapped around. -/
theorem mspEvToTs_delta (ts : UInt64) {m : ℕ} (hms : 1000000 ∣ m) (hlt : m < 2 ^ 64) :
    mspEvToTs (UInt64.ofNat (toTsMs m)) (UInt64.ofNat (delta ts.toNat m)) = ts := by
  have hmsp : UInt64.ofNat (toTsMs m) * 1000000 = UInt64.ofNat m := by
    apply UInt64.toNat_inj.mp
    have hsmall : toTsMs m < 2 ^ 64 := (Nat.div_le_self m 1000000).trans_lt hlt
    rw [UInt64.toNat_mul, UInt64.toNat_ofNat_of_lt' hsmall, UInt64.toNat_ofNat_of_lt' hlt]
    show m / 1000000 * 1000000 % 2 ^ 64 = m
    rw [Nat.div_mul_cancel hms, Nat.mod_eq_of_lt hlt]
  rw [mspEvToTs, hmsp, ofNat_delta ts hlt, UInt64.add_comm, UInt64.sub_add_cancel]

theorem gridMsp_onMs (ts : UInt64) :
    1000000 ∣ MspSplitDyn.gridMsp ts.toNat ∧ MspSplitDyn.gridMsp ts.toNat < 2 ^ 64 :=
  ⟨dvd_trans (by decide) (MspSplitDyn.dvd_gridMsp ts.toNat),
    Nat.lt_of_le_of_lt (MspSplitDyn.gridMsp_le ts.toNat) ts.toNat_lt⟩

/-- A split puts an event to a partition that begins at a whole millisecond, in whatever order the events come. -/
theorem OnMs.split {spl : MspSplitDyn} (hspl : OnMs spl) (ts : UInt64) (itemBytes : ℕ) :
    (1000000 ∣ (spl.split ts.toNat itemBytes).1.tsMsp ∧ (spl.split ts.toNat itemBytes).1.tsMsp < 2 ^ 64) ∧
      OnMs (spl.split ts.toNat itemBytes).2 := by
  rcases MspSplitDyn.split_cases spl ts.toNat itemBytes with
    ⟨-, heq⟩ | ⟨-, -, heq⟩ | ⟨m, hlast, -, heq⟩
  · rw [heq]
    refine ⟨gridMsp_onMs ts, fun m hm => ?_⟩
    obtain rfl := Option.some.inj hm
    exact gridMsp_onMs ts
  · rw [heq]
    exact ⟨gridMsp_onMs ts, hspl⟩
  · rw [heq]
    exact ⟨hspl m hlast, hspl⟩

/-- The row of an event is read as the event. -/
theorem OnMs.writeArray {spl : MspSplitDyn} (hspl : OnMs spl) (e : ArrayEvent) :
    readRow e.val.scalarType (writeArray spl e.ts e.itemBytes e.val).1 = some (e.ts, e.val) ∧
      OnMs (writeArray spl e.ts e.itemBytes e.val).2 := by
  obtain ⟨⟨hms, hlt⟩, hnext⟩ := hspl.split e.ts e.itemBytes.toNat
  refine ⟨?_, hnext⟩
  have htime := mspEvToTs_delta e.ts hms hlt
  rw [← MspSplitDyn.tsLsp_split] at htime
  rw [readRow, Scylla.writeArray]
  simp only [insertArrayGenFut, UInt64.toUInt64_toInt64, valueOfBlob_toBinaryBlob, Option.map_some, htime]

/-- The rows of the events are read as the events. -/
theorem OnMs.writeArrays {spl : MspSplitDyn} (hspl : OnMs spl) (es : List ArrayEvent) :
    List.Forall₂ (fun row (e : ArrayEvent) => readRow e.val.scalarType row = some (e.ts, e.val))
      (writeArrays spl es) es := by
  induction es generalizing spl with
  | nil => exact .nil
  | cons e es ih =>
      obtain ⟨hrow, hnext⟩ := hspl.writeArray e
      exact .cons hrow (ih hnext)

/-- Array values of all types and lengths are read as they were written, and each row of a series with the time of its
event. -/
theorem readRow_writeArrays (countMax bytesMax : ℕ) (rt : RetentionTime) (es : List ArrayEvent) :
    (∀ v : ArrayValue, valueOfBlob v.scalarType v.toBinaryBlob = some v) ∧
      List.Forall₂ (fun row (e : ArrayEvent) => readRow e.val.scalarType row = some (e.ts, e.val))
        (writeArrays (MspSplitDyn.new countMax bytesMax rt) es) es := by
  refine ⟨valueOfBlob_toBinaryBlob, OnMs.writeArrays ?_ es⟩
  intro m hm
  exact absurd hm (by simp [MspSplitDyn.new])

end Scylla
end Daqbuf
