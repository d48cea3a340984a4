import Mathlib
/-!
# Types of Data

The types and shapes of the values of a channel, as data files and channel configurations state them.
-/

namespace Daqbuf
namespace Netpod

/-- {lit}`ScalarType` -/
inductive ScalarType where
  | u8
  | u16
  | u32
  | u64
  | i8
  | i16
  | i32
  | i64
  | f32
  | f64
  | bool
  | string
  | enum
  deriving DecidableEq, Repr

namespace ScalarType

/-- {lit}`from_dtype_index` -/
def fromDtypeIndex (ix : ℕ) : Option ScalarType :=
  match ix with
  | 0 | 1 => some bool
  | 3 => some u8
  | 5 => some u16
  | 8 => some u32
  | 10 => some u64
  | 2 => some i8
  | 4 => some i16
  | 7 => some i32
  | 9 => some i64
  | 11 => some f32
  | 12 => some f64
  | 13 => some string
  | 15 => some enum
  | _ => none

/-- {lit}`bytes` -/
def bytes : ScalarType → ℕ
  | u8 | i8 | bool | string => 1
  | u16 | i16 | enum => 2
  | u32 | i32 | f32 => 4
  | u64 | i64 | f64 => 8

/-- {lit}`index` -/
def index : ScalarType → ℕ
  | bool => 0
  | i8 => 2
  | u8 => 3
  | i16 => 4
  | u16 => 5
  | i32 => 7
  | u32 => 8
  | i64 => 9
  | u64 => 10
  | f32 => 11
  | f64 => 12
  | string => 13
  | enum => 15

/-- {lit}`to_scylla_i32` -/
def toScyllaI32 (t : ScalarType) : ℤ := t.index

/-- {lit}`from_scylla_i32` -/
def fromScyllaI32 (k : ℤ) : Option ScalarType :=
  if k < 0 ∨ 255 < k then none else fromDtypeIndex k.toNat

/-- The number that a type is stored as stands for the type. -/
theorem fromScyllaI32_toScyllaI32 (t : ScalarType) : fromScyllaI32 t.toScyllaI32 = some t := by
  cases t <;> rfl

end ScalarType

/-- {lit}`Shape`, with its images -/
inductive DataShape where
  | scalar
  | wave (n : ℕ)
  | image (a b : ℕ)
  deriving DecidableEq, Repr

/-- {lit}`Shape::to_u32_vec` -/
def DataShape.toU32Vec : DataShape → List ℕ
  | scalar => []
  | wave n => [n]
  | image n m => [n, m]

/-- {lit}`Shape::from_scylla_shape_dims`; a dimension is cast to {lit}`u32`. -/
def DataShape.fromScyllaShapeDims : List ℤ → Option DataShape
  | [] => some .scalar
  | [n] => some (.wave (n % 2 ^ 32).toNat)
  | [n, m] => some (.image (n % 2 ^ 32).toNat (m % 2 ^ 32).toNat)
  | _ => none

/-- {lit}`SeriesKind` -/
inductive SeriesKind where
  | channelStatus
  | channelData
  | caStatus
  deriving DecidableEq, Repr

/-- {lit}`SeriesKind::to_db_i16` -/
def SeriesKind.toDbI16 : SeriesKind → ℤ
  | channelStatus => 1
  | channelData => 2
  | caStatus => 3

/-- {lit}`SeriesKind::from_db_i16` -/
def SeriesKind.fromDbI16 (x : ℤ) : Option SeriesKind :=
  if x = 1 then some .channelStatus
  else if x = 2 then some .channelData
  else if x = 3 then some .caStatus
  else none

/-- The number that a kind is stored as stands for the kind. -/
theorem SeriesKind.fromDbI16_toDbI16 (k : SeriesKind) : fromDbI16 k.toDbI16 = some k := by
  cases k <;> rfl

/-- {lit}`ByteOrder` -/
inductive ByteOrder where
  | little
  | big
  deriving DecidableEq, Repr

/-- {lit}`ByteOrder::from_dtype_flags` -/
def ByteOrder.fromDtypeFlags (flags : UInt8) : ByteOrder := if flags &&& 0x20 = 0 then little else big

/-- {lit}`CompressionMethod` -/
inductive CompressionMethod where
  | bitshuffleLZ4
  deriving DecidableEq, Repr

end Netpod
end Daqbuf
