import Daqbuf.Bytes.Endian
import Daqbuf.Netpod.Types
/-!
# Events as They Are on Disk

Events with their payload as bytes, compressed or not.  The source keeps a column for each part of the
events; as all its operations treat the columns alike, they are kept here as one list.

Slicing out of bounds and division by zero are a fault of their own.

Main results:

- Theorem {lit}`RawEvent.shapeDerived_eq_panicked`: which payloads the derivation of the shape panics on.
-/

namespace Daqbuf
namespace Items

open Bytes Netpod

/-- One entry of the columns of {lit}`EventFull` -/
structure RawEvent where
  ts : UInt64
  pulse : UInt64
  blob : List UInt8
  scalarType : ScalarType
  be : Bool
  shape : DataShape
  comp : Option CompressionMethod
  deriving DecidableEq, Repr

/-- {lit}`EventFull` -/
abbrev EventFull := List RawEvent

/-- {lit}`DecompError`, and the panics -/
inductive DecompError where
  | tooLittleInput
  | badCompresionBlockSize
  | unusedBytes
  | bitshuffleError
  | shapeMakesNoSense
  | unexpectedCompressedScalarValue
  | panicked
  deriving DecidableEq, Repr

/-- {lit}`bitshuffle_decompress`: from the input, the number of elements and the size of an element it makes
the output, and tells how many bytes of the input it used. -/
abbrev Bitshuffle := List UInt8 → ℕ → ℕ → Option (ℕ × List UInt8)

/-- {lit}`decompress` -/
def decompress (bitshuffle : Bitshuffle) (databuf : List UInt8) (typeSize : ℕ) :
    Except DecompError (List UInt8) :=
  if databuf.length < 12 then .error .tooLittleInput
  else
    let valueBytes := ofBe (slice databuf 0 8)
    let blockSize := ofBe (slice databuf 8 12)
    if 1024 * 32 < blockSize then .error .badCompresionBlockSize
    else
      let eleCount := valueBytes / typeSize
      -- the capacity of a vector is at most isize::MAX
      if 2 ^ 63 ≤ typeSize * eleCount then .error .panicked
      else
      match bitshuffle (databuf.drop 12) eleCount typeSize with
      | some (c1, decomp) => if 12 + c1 ≠ databuf.length then .error .unusedBytes else .ok decomp
      | none => .error .bitshuffleError

namespace RawEvent

/-- {lit}`data_raw` -/
def dataRaw (e : RawEvent) : List UInt8 := e.blob

/-- {lit}`data_decompressed` -/
def dataDecompressed (bitshuffle : Bitshuffle) (e : RawEvent) : Except DecompError (List UInt8) :=
  match e.comp with
  | some .bitshuffleLZ4 => decompress bitshuffle e.blob e.scalarType.bytes
  | none => .ok e.blob

/-- The number of elements that {lit}`shape_derived` reads out of the header of a compressed payload.  It cuts
the number of bytes to 32 bits. -/
def elementCount (e : RawEvent) : Except DecompError ℕ :=
  if e.blob.length < 8 then .error .panicked
  else
    let valueBytes := ofBe (slice e.blob 0 8) % 2 ^ 32
    if valueBytes % e.scalarType.bytes ≠ 0 then .error .shapeMakesNoSense
    else .ok (valueBytes / e.scalarType.bytes)

/-- {lit}`shape_derived` -/
def shapeDerived (e : RawEvent) (scalarTypeExp : ScalarType) (shapeExp : DataShape) :
    Except DecompError DataShape :=
  match shapeExp with
  | .scalar =>
      match e.comp with
      | some _ => if scalarTypeExp = .string then .ok .scalar else .error .unexpectedCompressedScalarValue
      | none => .ok .scalar
  | .wave _ =>
      match e.shape with
      | .scalar =>
          match e.comp with
          | some .bitshuffleLZ4 => e.elementCount.map .wave
          | none => .error .shapeMakesNoSense
      | .wave s => .ok (.wave s)
      | .image _ _ => .error .shapeMakesNoSense
  | .image a b =>
      match e.shape with
      | .scalar =>
          match e.comp with
          | some .bitshuffleLZ4 => do
              let n ← e.elementCount
              -- the product of the expected dimensions is a 32-bit number
              if 2 ^ 32 ≤ a * b then .error .panicked
              else if a * b ≠ n then .error .shapeMakesNoSense
              else .ok (.image a b)
          | none => .error .shapeMakesNoSense
      | .wave _ => .error .shapeMakesNoSense
      | .image a b => .ok (.image a b)

/-! ## Panics -/

variable {e : RawEvent} {t : ScalarType} {shapeExp : DataShape}

/-- The number of bytes that the header of a compressed payload states, cut to 32 bits -/
def statedBytes (e : RawEvent) : ℕ := ofBe (slice e.blob 0 8) % 2 ^ 32

/-- The shape can be derived: where it is taken from the header of a compressed payload, the payload has this
header, and an image that is compared with it has less than 2^32 pixels. -/
def PayloadSound (e : RawEvent) (shapeExp : DataShape) : Prop :=
  e.comp = some .bitshuffleLZ4 → e.shape = .scalar → shapeExp ≠ .scalar →
    8 ≤ e.blob.length ∧ ∀ a b, shapeExp = .image a b → e.statedBytes % e.scalarType.bytes = 0 → a * b < 2 ^ 32

theorem elementCount_eq :
    e.elementCount =
      if e.blob.length < 8 then .error .panicked
      else if e.statedBytes % e.scalarType.bytes ≠ 0 then .error .shapeMakesNoSense
      else .ok (e.statedBytes / e.scalarType.bytes) := rfl

/-- The derivation of the shape panics exactly on payloads that are not sound. -/
theorem shapeDerived_eq_panicked : e.shapeDerived t shapeExp = .error .panicked ↔ ¬ e.PayloadSound shapeExp := by
  unfold PayloadSound
  cases shapeExp with
  | scalar =>
      rw [shapeDerived]
      apply iff_of_false
      · cases e.comp with
        | none => nofun
        | some m =>
            simp only
            split_ifs
            · nofun
            · nofun
      · exact not_not.mpr fun _ _ h => absurd rfl h
  | wave n =>
      rw [shapeDerived]
      cases hshape : e.shape with
      | scalar =>
          cases hcomp : e.comp with
          | none => exact iff_of_false nofun (not_not.mpr nofun)
          | some m =>
              cases m
              simp only [elementCount_eq]
              by_cases hlt : e.blob.length < 8
              · rw [if_pos hlt]
                exact iff_of_true rfl fun h => absurd (h trivial trivial nofun).1 (not_le.mpr hlt)
              · rw [if_neg hlt]
                apply iff_of_false
                · split_ifs
                  · nofun
                  · nofun
                · exact not_not.mpr fun _ _ _ => ⟨not_lt.mp hlt, nofun⟩
      | wave m => exact iff_of_false nofun (not_not.mpr fun _ => nofun)
      | image a b => exact iff_of_false nofun (not_not.mpr fun _ => nofun)
  | image a b =>
      rw [shapeDerived]
      cases hshape : e.shape with
      | scalar =>
          cases hcomp : e.comp with
          | none => exact iff_of_false nofun (not_not.mpr nofun)
          | some m =>
              cases m
              simp only [elementCount_eq]
              by_cases hlt : e.blob.length < 8
              · rw [if_pos hlt]
                exact iff_of_true rfl fun h => absurd (h trivial trivial nofun).1 (not_le.mpr hlt)
              · rw [if_neg hlt]
                by_cases hmod : e.statedBytes % e.scalarType.bytes ≠ 0
                · rw [if_pos hmod]
                  apply iff_of_false nofun
                  exact not_not.mpr fun _ _ _ => ⟨not_lt.mp hlt, fun _ _ _ h => absurd h hmod⟩
                · rw [if_neg hmod]
                  by_cases hpixels : 2 ^ 32 ≤ a * b
                  · refine iff_of_true (if_pos hpixels) fun h => ?_
                    exact absurd ((h trivial trivial nofun).2 a b rfl (not_not.mp hmod)) (not_lt.mpr hpixels)
                  · apply iff_of_false
                    · refine ne_of_eq_of_ne (if_neg hpixels) ?_
                      split_ifs
                      · nofun
                      · nofun
                    · refine not_not.mpr fun _ _ _ => ⟨not_lt.mp hlt, ?_⟩
                      rintro a' b' ⟨⟩ -
                      exact not_le.mp hpixels
      | wave m => exact iff_of_false nofun (not_not.mpr fun _ => nofun)
      | image a' b' => exact iff_of_false nofun (not_not.mpr fun _ => nofun)

end RawEvent

end Items
end Daqbuf
