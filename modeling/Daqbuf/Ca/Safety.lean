import Daqbuf.Ca.Msg
/-!
# Panics of the Message Parser

The parser of a message slices the payload at offsets that the type and the count in the header demand.

Main results:

- Theorem {lit}`extractCaDataValue_ne_panicked_iff`: when exactly the parser of a value does not panic.
- Theorem {lit}`fromProtoInfos_ne_panicked_iff`: when exactly the parser of a message does not panic.
- Theorem {lit}`exists_fromProtoInfos_iff`: what exactly the parser of a message accepts.
- Theorem {lit}`not_fromProtoInfos_ne_panicked`: a read response that makes it panic.
-/

namespace Daqbuf
namespace Ca

open Bytes Netpod

/-! ## Code that can panic -/

section Fallible

variable {α β : Type}

@[simp]
theorem panicked_bind (f : α → Fallible β) : (panicked >>= f) = panicked := rfl

@[simp]
theorem throw_bind (e : Error) (f : α → Fallible β) : ((throw e : Fallible α) >>= f) = throw e := rfl

@[simp]
theorem throw_ne_panicked (e : Error) : (throw e : Fallible α) ≠ panicked := by
  intro heq
  exact absurd (show (some (.error e) : Option (Except Error α)) = none from heq) (by simp)

@[simp]
theorem pure_ne_panicked (a : α) : (pure a : Fallible α) ≠ panicked := by
  intro heq
  exact absurd (show (some (.ok a) : Option (Except Error α)) = none from heq) (by simp)

/-- A computation that cannot panic, followed by one that cannot, cannot. -/
theorem lift_bind_ne_panicked {x : Except Error α} {f : α → Fallible β}
    (hf : ∀ a, x = .ok a → f a ≠ panicked) : ((liftM x : Fallible α) >>= f) ≠ panicked := by
  cases x with
  | error e => exact throw_ne_panicked e
  | ok a => exact hf a rfl

/-- Packing a result cannot panic. -/
theorem bind_pure_ne_panicked_iff (x : Fallible α) (f : α → β) :
    (x >>= fun a => pure (f a)) ≠ panicked ↔ x ≠ panicked := by
  match x with
  | none => exact iff_of_false (not_not_intro rfl) (not_not_intro rfl)
  | some (.error e) => exact iff_of_true (throw_ne_panicked e) (throw_ne_panicked e)
  | some (.ok a) => exact iff_of_true (pure_ne_panicked _) (pure_ne_panicked a)

/-- A slice within the bounds. -/
theorem sliceAt_of_le {bs : List UInt8} {beg fin : ℕ} (hbeg : beg ≤ fin) (hfin : fin ≤ bs.length) :
    sliceAt bs beg fin = pure (slice bs beg fin) :=
  if_pos ⟨hbeg, hfin⟩

/-- A slice out of bounds. -/
theorem sliceAt_of_lt {bs : List UInt8} {beg fin : ℕ} (hout : fin < beg ∨ bs.length < fin) :
    sliceAt bs beg fin = panicked := by
  refine if_neg ?_
  omega

/-- Slices give bytes or panic, but no error. -/
theorem mapM_sliceAt (bs : List UInt8) (ranges : List ℕ) (beg fin : ℕ → ℕ) :
    (ranges.mapM fun i => sliceAt bs (beg i) (fin i)) = panicked ∨
      ∃ fields, (ranges.mapM fun i => sliceAt bs (beg i) (fin i)) = pure fields := by
  induction ranges with
  | nil => exact .inr ⟨[], rfl⟩
  | cons i ranges ih =>
      rw [List.mapM_cons]
      by_cases hin : beg i ≤ fin i ∧ fin i ≤ bs.length
      · rw [sliceAt_of_le hin.1 hin.2, pure_bind]
        rcases ih with hpanic | ⟨fields, hfields⟩
        · rw [hpanic]
          exact .inl rfl
        · rw [hfields]
          exact .inr ⟨_, rfl⟩
      · rw [sliceAt_of_lt (by omega)]
        exact .inl rfl

/-- Slices within the bounds all give bytes. -/
theorem mapM_sliceAt_of_le {bs : List UInt8} {ranges : List ℕ} {beg fin : ℕ → ℕ}
    (hin : ∀ i ∈ ranges, beg i ≤ fin i ∧ fin i ≤ bs.length) :
    ∃ fields, (ranges.mapM fun i => sliceAt bs (beg i) (fin i)) = pure fields := by
  induction ranges with
  | nil => exact ⟨[], rfl⟩
  | cons i ranges ih =>
      rcases ih fun j hj => hin j (List.mem_cons_of_mem i hj) with ⟨fields, hfields⟩
      rcases hin i List.mem_cons_self with ⟨hbeg, hfin⟩
      rw [List.mapM_cons, sliceAt_of_le hbeg hfin, pure_bind, hfields]
      exact ⟨_, rfl⟩

end Fallible

/-! ## The parser of a value -/

/-- The number of variant names that a payload announces. -/
def variantCount (payload : List UInt8) : ℕ := (u16OfBe (slice payload 4 6)).toNat

/-- The payload is long enough for the metadata of its type, as far as they are read. -/
def MetaFits (ty : CaDbrType) (payload : List UInt8) : Prop :=
  match ty.kind with
  | .plain => True
  | .status => True
  | .time => 12 + CaMsg.metaPadding ty ≤ payload.length
  | .ctrl => 6 ≤ payload.length ∧
      (16 < variantCount payload ∨ 6 + 26 * 16 + CaMsg.metaPadding ty ≤ payload.length)

/-- The header has no acceptable type or count, or the payload is long enough. -/
def ValueFits (hi : HeadInfo) (payload : List UInt8) : Prop :=
  ∀ ty shape, CaDbrType.fromCaU16 hi.dataType = .ok ty → Shape.fromCaCount hi.dataCount = some shape →
    MetaFits ty payload

namespace CaMsg

section Value

variable {payload : List UInt8}

/-- A slice gives bytes or panics. -/
theorem sliceAt_cases (bs : List UInt8) (beg fin : ℕ) :
    sliceAt bs beg fin = pure (slice bs beg fin) ∨ sliceAt bs beg fin = panicked := by
  by_cases hin : beg ≤ fin ∧ fin ≤ bs.length
  · exact .inl (sliceAt_of_le hin.1 hin.2)
  · exact .inr (sliceAt_of_lt (by omega))

/-- The metadata of a timed value are read from 12 bytes. -/
theorem extractMeta_time (hlen : 12 ≤ payload.length) :
    ∃ info, extractMeta .time payload = pure (info, 12) := by
  rw [extractMeta, sliceAt_of_le (by decide) (by omega), sliceAt_of_le (by decide) (by omega),
    sliceAt_of_le (by decide) (by omega), sliceAt_of_le (by decide) (by omega)]
  exact ⟨_, rfl⟩

theorem extractMeta_time_short (hlen : payload.length < 12) :
    extractMeta .time payload = panicked := by
  have hlast : sliceAt payload 8 12 = panicked := sliceAt_of_lt (.inr hlen)
  rw [extractMeta, hlast]
  rcases sliceAt_cases payload 0 2 with h0 | h0 <;> rcases sliceAt_cases payload 2 4 with h2 | h2 <;>
    rcases sliceAt_cases payload 4 8 with h4 | h4 <;> rw [h0, h2, h4] <;> rfl

theorem extractMeta_ctrl_short (hlen : payload.length < 6) :
    extractMeta .ctrl payload = panicked := by
  have hlast : sliceAt payload 4 6 = panicked := sliceAt_of_lt (.inr hlen)
  rw [extractMeta, hlast]
  rcases sliceAt_cases payload 0 2 with h0 | h0 <;> rcases sliceAt_cases payload 2 4 with h2 | h2 <;>
    rw [h0, h2] <;> rfl

/-- Too many variants are an error. -/
theorem extractMeta_ctrl_many (hlen : 6 ≤ payload.length) (hmany : 16 < variantCount payload) :
    extractMeta .ctrl payload = throw .badCaCount := by
  rw [extractMeta, sliceAt_of_le (by decide) (by omega), sliceAt_of_le (by decide) (by omega),
    sliceAt_of_le (by decide) (by omega)]
  exact if_pos hmany

/-- The names of the variants stand in fields of fixed length, of which there is room for 16. -/
theorem extractMeta_ctrl (hlen : 6 ≤ payload.length) (hfew : ¬ 16 < variantCount payload) :
    extractMeta .ctrl payload =
      (List.range (variantCount payload)).mapM (fun i => sliceAt payload (6 + 26 * i) (6 + 26 * i + 26)) >>=
        fun fields => pure (.caMetaVariants (u16OfBe (slice payload 0 2)) (u16OfBe (slice payload 2 4))
          (fields.map variantName), 6 + 26 * 16) := by
  rw [extractMeta, sliceAt_of_le (by decide) (by omega), sliceAt_of_le (by decide) (by omega),
    sliceAt_of_le (by decide) (by omega)]
  exact if_neg hfew

/-- Where a field is missing, its slice panics. -/
theorem extractMeta_ctrl_cases (hlen : 6 ≤ payload.length) (hfew : ¬ 16 < variantCount payload) :
    extractMeta .ctrl payload = panicked ∨
      ∃ info, extractMeta .ctrl payload = pure (info, 6 + 26 * 16) := by
  rw [extractMeta_ctrl hlen hfew]
  rcases mapM_sliceAt payload (List.range (variantCount payload)) (fun i => 6 + 26 * i)
    (fun i => 6 + 26 * i + 26) with hpanic | ⟨fields, hfields⟩
  · rw [hpanic, panicked_bind]
    exact .inl rfl
  · rw [hfields, pure_bind]
    exact .inr ⟨_, rfl⟩

/-- With all fields there, the names are read. -/
theorem extractMeta_ctrl_of_le (hlen : 6 + 26 * 16 ≤ payload.length)
    (hfew : ¬ 16 < variantCount payload) :
    ∃ info, extractMeta .ctrl payload = pure (info, 6 + 26 * 16) := by
  have hin : ∀ i ∈ List.range (variantCount payload),
      6 + 26 * i ≤ 6 + 26 * i + 26 ∧ 6 + 26 * i + 26 ≤ payload.length := by
    intro i hi
    have := List.mem_range.mp hi
    omega
  rcases mapM_sliceAt_of_le hin with ⟨fields, hfields⟩
  rw [extractMeta_ctrl (by omega) hfew, hfields, pure_bind]
  exact ⟨_, rfl⟩

end Value

/-- After the metadata: the value is sliced from the payload, and then nothing can panic. -/
def extractRest (ty : CaDbrType) (shape : Shape) (payload : List UInt8) (arrayTruncate : ℕ)
    (metaEnd : CaMetaValue × ℕ) : Fallible CaEventValue := do
  let valbuf ← sliceAt payload (metaEnd.2 + metaPadding ty) payload.length
  let data ← match shape with
    | .scalar => (caScalarValue ty.scalarType valbuf : Except Error CaDataValue)
    | .wave n => (caWaveValue ty.scalarType (min n.toNat arrayTruncate) valbuf)
  pure ⟨data, metaEnd.1⟩

theorem extractRest_ne_panicked_iff {ty : CaDbrType} {shape : Shape} {payload : List UInt8}
    {arrayTruncate : ℕ} {metaEnd : CaMetaValue × ℕ} :
    extractRest ty shape payload arrayTruncate metaEnd ≠ panicked ↔
      metaEnd.2 + metaPadding ty ≤ payload.length := by
  by_cases hle : metaEnd.2 + metaPadding ty ≤ payload.length
  · refine iff_of_true ?_ hle
    rw [extractRest, sliceAt_of_le hle le_rfl, pure_bind]
    cases shape with
    | scalar => exact lift_bind_ne_panicked fun _ _ => pure_ne_panicked _
    | wave n => exact lift_bind_ne_panicked fun _ _ => pure_ne_panicked _
  · refine iff_of_false (not_not_intro ?_) hle
    rw [extractRest, sliceAt_of_lt (.inl (by omega))]
    rfl

/-- For an acceptable type and count, a value is its metadata and the rest. -/
theorem extractCaDataValue_eq {hi : HeadInfo} {ty : CaDbrType} {shape : Shape}
    (hty : CaDbrType.fromCaU16 hi.dataType = .ok ty) (hshape : Shape.fromCaCount hi.dataCount = some shape)
    (payload : List UInt8) (arrayTruncate : ℕ) :
    extractCaDataValue hi payload arrayTruncate =
      (extractMeta ty.kind payload >>= extractRest ty shape payload arrayTruncate) := by
  rw [extractCaDataValue, hty, hshape]
  rfl

/-- The metadata and the rest do not panic exactly when the payload is long enough for the metadata. -/
theorem extractMeta_bind_ne_panicked_iff (ty : CaDbrType) (shape : Shape) (payload : List UInt8)
    (arrayTruncate : ℕ) :
    (extractMeta ty.kind payload >>= extractRest ty shape payload arrayTruncate) ≠ panicked ↔
      MetaFits ty payload := by
  cases hkind : ty.kind with
  | plain => exact iff_of_true (throw_ne_panicked _) (by simp [MetaFits, hkind])
  | status => exact iff_of_true (throw_ne_panicked _) (by simp [MetaFits, hkind])
  | time =>
      simp only [MetaFits, hkind]
      by_cases hlen : 12 ≤ payload.length
      · rcases extractMeta_time hlen with ⟨info, hinfo⟩
        rw [hinfo, pure_bind]
        exact extractRest_ne_panicked_iff
      · rw [extractMeta_time_short (by omega), panicked_bind]
        exact iff_of_false (not_not_intro rfl) (by omega)
  | ctrl =>
      simp only [MetaFits, hkind]
      by_cases hlen : 6 ≤ payload.length
      · by_cases hmany : 16 < variantCount payload
        · rw [extractMeta_ctrl_many hlen hmany, throw_bind]
          exact iff_of_true (throw_ne_panicked _) ⟨hlen, .inl hmany⟩
        · by_cases hall : 6 + 26 * 16 ≤ payload.length
          · rcases extractMeta_ctrl_of_le hall hmany with ⟨info, hinfo⟩
            rw [hinfo, pure_bind, extractRest_ne_panicked_iff]
            simp [hlen, hmany]
          · have hshort : ¬ 6 + 26 * 16 + metaPadding ty ≤ payload.length := by omega
            refine iff_of_false (not_not_intro ?_) (by simp [hmany, hshort])
            rcases extractMeta_ctrl_cases hlen hmany with hpanic | ⟨info, hinfo⟩
            · rw [hpanic, panicked_bind]
            · rw [hinfo, pure_bind]
              exact not_not.mp (mt extractRest_ne_panicked_iff.mp hshort)
      · rw [extractMeta_ctrl_short (by omega), panicked_bind]
        exact iff_of_false (not_not_intro rfl) (by omega)

/-- The parser of a value does not panic exactly when the payload is long enough. -/
theorem extractCaDataValue_ne_panicked_iff (hi : HeadInfo) (payload : List UInt8) (arrayTruncate : ℕ) :
    extractCaDataValue hi payload arrayTruncate ≠ panicked ↔ ValueFits hi payload := by
  cases hty : CaDbrType.fromCaU16 hi.dataType with
  | error e =>
      refine iff_of_true ?_ (fun ty shape hok _ => by simp [hty] at hok)
      rw [extractCaDataValue, hty]
      exact throw_ne_panicked e
  | ok ty =>
      cases hshape : Shape.fromCaCount hi.dataCount with
      | none =>
          refine iff_of_true ?_ (fun ty shape _ hsome => by simp [hshape] at hsome)
          rw [extractCaDataValue, hty, hshape]
          exact throw_ne_panicked _
      | some shape =>
          rw [extractCaDataValue_eq hty hshape, extractMeta_bind_ne_panicked_iff]
          constructor
          · intro hfits ty' shape' hok _
            rw [hty] at hok
            exact Except.ok.inj hok ▸ hfits
          · intro hfits
            exact hfits ty shape hty hshape

/-! ## The parser of a message -/

/-- The payload of a value response is long enough for the value that its header announces, and that of an
error message has not 17 bytes. -/
def PayloadFits (hi : HeadInfo) (payload : List UInt8) : Prop :=
  (hi.cmdid.toNat = 0x0b → payload.length ≠ 17) ∧
    (hi.cmdid.toNat = 0x0f ∨ hi.cmdid.toNat = 0x01 ∧ 12 ≤ payload.length → ValueFits hi payload)

/-- The text of an error message is the payload without its first 17 bytes and its last one. -/
theorem errorMessage_ne_panicked_iff (hi : HeadInfo) (payload : List UInt8) (head : String) :
    (if 17 ≤ payload.length then do
      let text ← sliceAt payload 17 (payload.length - 1)
      pure ⟨.error hi.param1 hi.param2 (head ++ "  msg: " ++ fromUtf8Lossy text)⟩
    else pure ⟨.error hi.param1 hi.param2 head⟩ : Fallible CaMsg) ≠ panicked ↔ payload.length ≠ 17 := by
  by_cases hlong : 17 ≤ payload.length
  · rw [if_pos hlong]
    by_cases hlen : payload.length = 17
    · rw [sliceAt_of_lt (.inl (by omega)), panicked_bind]
      exact iff_of_false (not_not_intro rfl) (not_not_intro hlen)
    · rw [sliceAt_of_le (by omega) (by omega), pure_bind]
      exact iff_of_true (pure_ne_panicked _) hlen
  · rw [if_neg hlong]
    exact iff_of_true (pure_ne_panicked _) (by omega)

/-- The parser of a message does not panic exactly when the payload fits. -/
theorem fromProtoInfos_ne_panicked_iff (hi : HeadInfo) (payload : List UInt8) (arrayTruncate : ℕ) :
    fromProtoInfos hi payload arrayTruncate ≠ panicked ↔ PayloadFits hi payload := by
  rw [fromProtoInfos, PayloadFits]
  split
  case h_2 hcmd =>
    rw [hcmd]
    exact (errorMessage_ne_panicked_iff hi payload _).trans (by simp)
  case h_4 hcmd =>
    rw [hcmd]
    by_cases hlen : payload.length < 12
    · rw [if_pos hlen]
      refine iff_of_true ?_ (by omega)
      split <;> simp
    · rw [if_neg hlen, bind_pure_ne_panicked_iff, extractCaDataValue_ne_panicked_iff]
      simp [not_lt.mp hlen]
  case h_6 hcmd =>
    rw [hcmd, bind_pure_ne_panicked_iff, extractCaDataValue_ne_panicked_iff]
    simp
  case h_13 herror _ hevent _ hread _ _ _ _ _ _ =>
    refine iff_of_true (throw_ne_panicked _) ⟨fun hcmd => (herror hcmd).elim, ?_⟩
    rintro (hcmd | ⟨hcmd, -⟩)
    · exact (hread hcmd).elim
    · exact (hevent hcmd).elim
  all_goals
    refine iff_of_true ?_ (by omega)
    try split
    all_goals simp

/-! ## What the parser of a message accepts -/

/-- A sequence that packs its result gives one when its first part does. -/
theorem exists_bind_pure_iff {α β : Type} (x : Fallible α) (f : α → β) :
    (∃ b, (x >>= fun a => pure (f a)) = some (.ok b)) ↔ ∃ a, x = some (.ok a) := by
  match x with
  | none => exact iff_of_false (by rintro ⟨b, ⟨⟩⟩) (by rintro ⟨a, ⟨⟩⟩)
  | some (.error e) => exact iff_of_false (by rintro ⟨b, ⟨⟩⟩) (by rintro ⟨a, ⟨⟩⟩)
  | some (.ok a) => exact iff_of_true ⟨f a, rfl⟩ ⟨a, rfl⟩

theorem not_exists_throw {α : Type} (e : Error) : ¬ ∃ a : α, (throw e : Fallible α) = some (.ok a) := by
  rintro ⟨a, ⟨⟩⟩

/-- Lifting a result into code that can panic keeps it. -/
theorem exists_lift_bind_pure_iff {α β : Type} (x : Except Error α) (f : α → β) :
    (∃ b, ((liftM x : Fallible α) >>= fun a => pure (f a)) = some (.ok b)) ↔ ∃ a, x = .ok a := by
  cases x with
  | error e => exact iff_of_false (by rintro ⟨b, ⟨⟩⟩) (by rintro ⟨a, ⟨⟩⟩)
  | ok a => exact iff_of_true ⟨f a, rfl⟩ ⟨a, rfl⟩

/-- The bytes of a scalar. -/
def scalarLen : CaScalarType → ℕ
  | .i8 => 1
  | .i16 | .enum => 2
  | .i32 | .f32 => 4
  | .f64 => 8
  | .string => 0

/-- Some bytes hold a value: enough of them for a scalar, any number for an array, but not an array of enums. -/
def Holds (scalarType : CaScalarType) (shape : Shape) (n : ℕ) : Prop :=
  match shape with
  | .scalar => scalarLen scalarType ≤ n
  | .wave _ => scalarType ≠ .enum

/-- The metadata of a type that has such are there, with no more names than there is room for. -/
def HasMeta (ty : CaDbrType) (payload : List UInt8) : Prop :=
  match ty.kind with
  | .plain | .status => False
  | .time => 12 + metaPadding ty ≤ payload.length
  | .ctrl => variantCount payload ≤ 16 ∧ 6 + 26 * 16 + metaPadding ty ≤ payload.length

/-- The bytes of the metadata. -/
def metaLen : CaDbrMetaType → ℕ
  | .plain | .status => 0
  | .time => 12
  | .ctrl => 6 + 26 * 16

/-- The type and the count are acceptable, and the payload holds the metadata and a value. -/
def HasValue (hi : HeadInfo) (payload : List UInt8) : Prop :=
  ∃ ty shape, CaDbrType.fromCaU16 hi.dataType = .ok ty ∧ Shape.fromCaCount hi.dataCount = some shape ∧
    HasMeta ty payload ∧ Holds ty.scalarType shape (payload.length - (metaLen ty.kind + metaPadding ty))

theorem exists_convertScalarValue_iff (stl : ℕ) (value : ℕ → CaDataScalarValue) (buf : List UInt8) :
    (∃ data, convertScalarValue stl value buf = .ok data) ↔ stl ≤ buf.length := by
  rw [convertScalarValue]
  split
  · exact iff_of_false (by rintro ⟨data, ⟨⟩⟩) (by omega)
  · exact iff_of_true ⟨_, rfl⟩ (by omega)

theorem exists_caScalarValue_iff (scalarType : CaScalarType) (buf : List UInt8) :
    (∃ data, caScalarValue scalarType buf = .ok data) ↔ scalarLen scalarType ≤ buf.length := by
  cases scalarType with
  | string => exact iff_of_true ⟨_, rfl⟩ (Nat.zero_le _)
  | _ =>
      rw [caScalarValue, scalarLen]
      exact exists_convertScalarValue_iff _ _ buf

theorem exists_caWaveValue_iff (scalarType : CaScalarType) (n : ℕ) (buf : List UInt8) :
    (∃ data, caWaveValue scalarType n buf = .ok data) ↔ scalarType ≠ .enum := by
  cases scalarType with
  | enum => exact iff_of_false (by rintro ⟨data, ⟨⟩⟩) (not_not_intro rfl)
  | _ => exact iff_of_true ⟨_, rfl⟩ (by rintro ⟨⟩)

/-- After the metadata there is a value when the bytes left hold one. -/
theorem exists_extractRest_iff {ty : CaDbrType} {shape : Shape} {payload : List UInt8} {arrayTruncate : ℕ}
    {metaEnd : CaMetaValue × ℕ} :
    (∃ value, extractRest ty shape payload arrayTruncate metaEnd = some (.ok value)) ↔
      metaEnd.2 + metaPadding ty ≤ payload.length ∧
        Holds ty.scalarType shape (payload.length - (metaEnd.2 + metaPadding ty)) := by
  by_cases hle : metaEnd.2 + metaPadding ty ≤ payload.length
  · have hlen : (slice payload (metaEnd.2 + metaPadding ty) payload.length).length =
        payload.length - (metaEnd.2 + metaPadding ty) := by
      simp [slice]
    rw [extractRest, sliceAt_of_le hle le_rfl, pure_bind, and_iff_right hle, ← hlen]
    cases shape with
    | scalar => exact (exists_lift_bind_pure_iff _ _).trans (exists_caScalarValue_iff _ _)
    | wave n => exact (exists_lift_bind_pure_iff _ _).trans (exists_caWaveValue_iff _ _ _)
  · rw [extractRest, sliceAt_of_lt (.inl (by omega))]
    exact iff_of_false (by rintro ⟨value, ⟨⟩⟩) fun h => hle h.1

/-- The metadata and the rest give a value exactly when the payload holds both. -/
theorem exists_extractMeta_bind_iff (ty : CaDbrType) (shape : Shape) (payload : List UInt8) (arrayTruncate : ℕ) :
    (∃ value, (extractMeta ty.kind payload >>= extractRest ty shape payload arrayTruncate) = some (.ok value)) ↔
      HasMeta ty payload ∧
        Holds ty.scalarType shape (payload.length - (metaLen ty.kind + metaPadding ty)) := by
  cases hkind : ty.kind with
  | plain => exact iff_of_false (not_exists_throw _) (by simp [HasMeta, hkind])
  | status => exact iff_of_false (not_exists_throw _) (by simp [HasMeta, hkind])
  | time =>
      simp only [HasMeta, hkind, metaLen]
      by_cases hlen : 12 ≤ payload.length
      · rcases extractMeta_time hlen with ⟨info, hinfo⟩
        rw [hinfo, pure_bind]
        exact exists_extractRest_iff
      · rw [extractMeta_time_short (by omega), panicked_bind]
        exact iff_of_false (by rintro ⟨value, ⟨⟩⟩) (by omega)
  | ctrl =>
      simp only [HasMeta, hkind, metaLen]
      by_cases hlen : 6 ≤ payload.length
      · by_cases hmany : 16 < variantCount payload
        · rw [extractMeta_ctrl_many hlen hmany, throw_bind]
          exact iff_of_false (not_exists_throw _) (by omega)
        · by_cases hall : 6 + 26 * 16 ≤ payload.length
          · rcases extractMeta_ctrl_of_le hall hmany with ⟨info, hinfo⟩
            rw [hinfo, pure_bind, exists_extractRest_iff, and_iff_right (not_lt.mp hmany)]
          · refine iff_of_false ?_ (by omega)
            rcases extractMeta_ctrl_cases hlen hmany with hpanic | ⟨info, hinfo⟩
            · rw [hpanic, panicked_bind]
              rintro ⟨value, ⟨⟩⟩
            · rw [hinfo, pure_bind, exists_extractRest_iff]
              rintro ⟨hle, -⟩
              dsimp only at hle
              omega
      · rw [extractMeta_ctrl_short (by omega), panicked_bind]
        exact iff_of_false (by rintro ⟨value, ⟨⟩⟩) (by omega)

/-- The parser of a value gives one exactly when there is one. -/
theorem exists_extractCaDataValue_iff (hi : HeadInfo) (payload : List UInt8) (arrayTruncate : ℕ) :
    (∃ value, extractCaDataValue hi payload arrayTruncate = some (.ok value)) ↔ HasValue hi payload := by
  cases hty : CaDbrType.fromCaU16 hi.dataType with
  | error e =>
      rw [extractCaDataValue, hty]
      exact iff_of_false (not_exists_throw e) (by simp [HasValue, hty])
  | ok ty =>
      cases hshape : Shape.fromCaCount hi.dataCount with
      | none =>
          rw [extractCaDataValue, hty, hshape]
          exact iff_of_false (not_exists_throw _) (by simp [HasValue, hshape])
      | some shape =>
          rw [extractCaDataValue_eq hty hshape, exists_extractMeta_bind_iff]
          simp [HasValue, hty, hshape]

/-- The command is known, and the bytes are as many as it needs: those of an error message are not 17, a search result
has at least 2 and a closed channel none, and an event or a read response has a value, which an event may also lack
altogether. -/
def Accepts (hi : HeadInfo) (payload : List UInt8) : Prop :=
  match hi.cmdid.toNat with
  | 0x0b => payload.length ≠ 17
  | 0x06 => 2 ≤ payload.length
  | 0x01 => payload.length = 0 ∨ 12 ≤ payload.length ∧ HasValue hi payload
  | 0x0c => payload.length = 0
  | 0x0f => HasValue hi payload
  | 0x00 | 0x12 | 0x16 | 0x17 | 0x1a | 0x14 | 0x15 => True
  | _ => False

/-- The parser of a message gives one exactly when it accepts the header with the bytes. -/
theorem exists_fromProtoInfos_iff (hi : HeadInfo) (payload : List UInt8) (arrayTruncate : ℕ) :
    (∃ msg, fromProtoInfos hi payload arrayTruncate = some (.ok msg)) ↔ Accepts hi payload := by
  rw [fromProtoInfos, Accepts]
  split
  case h_2 hcmd =>
    simp only [hcmd]
    by_cases hlong : 17 ≤ payload.length
    · rw [if_pos hlong]
      by_cases hlen : payload.length = 17
      · rw [sliceAt_of_lt (.inl (by omega)), panicked_bind]
        exact iff_of_false (by rintro ⟨msg, ⟨⟩⟩) (not_not_intro hlen)
      · rw [sliceAt_of_le (by omega) (by omega), pure_bind]
        exact iff_of_true ⟨_, rfl⟩ hlen
    · rw [if_neg hlong]
      exact iff_of_true ⟨_, rfl⟩ (by omega)
  case h_3 hcmd =>
    simp only [hcmd]
    by_cases hlen : payload.length < 2
    · rw [if_pos hlen]
      exact iff_of_false (not_exists_throw _) (by omega)
    · rw [if_neg hlen]
      exact iff_of_true ⟨_, rfl⟩ (by omega)
  case h_4 hcmd =>
    simp only [hcmd]
    by_cases hlen : payload.length < 12
    · rw [if_pos hlen]
      by_cases hzero : payload.length = 0
      · rw [if_pos hzero]
        exact iff_of_true ⟨_, rfl⟩ (.inl hzero)
      · rw [if_neg hzero]
        exact iff_of_false (not_exists_throw _) (by omega)
    · rw [if_neg hlen, exists_bind_pure_iff, exists_extractCaDataValue_iff]
      exact (or_iff_right (by omega)).trans (and_iff_right (by omega)) |>.symm
  case h_5 hcmd =>
    simp only [hcmd]
    by_cases hlen : payload.length ≠ 0
    · rw [if_pos hlen]
      exact iff_of_false (not_exists_throw _) hlen
    · rw [if_neg hlen]
      exact iff_of_true ⟨_, rfl⟩ (not_not.mp hlen)
  case h_6 hcmd =>
    simp only [hcmd]
    exact (exists_bind_pure_iff _ _).trans (exists_extractCaDataValue_iff _ _ _)
  case h_11 hcmd =>
    simp only [hcmd]
    refine iff_of_true ?_ trivial
    split <;> exact ⟨_, rfl⟩
  case h_13 =>
    refine iff_of_false (not_exists_throw _) ?_
    split <;> simp_all
  all_goals
    simp only [*]
    exact iff_of_true ⟨_, rfl⟩ trivial

/-- A read response that announces a timed value of a double has a payload of 8 bytes only. -/
theorem not_fromProtoInfos_ne_panicked :
    ¬ ∀ (hi : HeadInfo) (payload : List UInt8) (arrayTruncate : ℕ),
      payload.length = hi.payloadSize.toNat → fromProtoInfos hi payload arrayTruncate ≠ panicked := by
  intro hsafe
  exact hsafe ⟨0x0f, 8, 20, 1, 0, 0, false⟩ [0, 0, 0, 0, 0, 0, 0, 0] 1 rfl rfl

end CaMsg

end Ca
end Daqbuf
