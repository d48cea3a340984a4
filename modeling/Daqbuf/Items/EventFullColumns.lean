import Daqbuf.Arith.Checked
import Daqbuf.Items.EventFull
import Daqbuf.Slots.Pool
/-!
# The Columns of Raw Events

The source keeps {lit}`EventFull` as seven columns and the length of its largest payload.  Every operation works
on the columns one by one; here it is shown that they stay the columns of one list of events.

The byte estimate is computed with 32-bit numbers, from the two lengths cut to 32 bits.

Main results:

- Theorem {lit}`wellFormed_run`: what every sequence of operations on any number of values keeps.
- Theorem {lit}`estimateSound_iff`: when the byte estimate is the number it is meant to be.
- Theorem {lit}`columns_sound_iff`: when the columns and the estimate are sound in all of a run.
-/

namespace Daqbuf
namespace Items

open Arith Netpod Slots

/-- The columns of {lit}`EventFull` -/
structure EventColumns where
  tss : List UInt64
  pulses : List UInt64
  blobs : List (List UInt8)
  scalarTypes : List ScalarType
  be : List Bool
  shapes : List DataShape
  comps : List (Option CompressionMethod)
  entryPayloadMax : ℕ
  deriving DecidableEq, Repr

/-! ## Single columns -/

section Column

variable {α β : Type*}

/-- {lit}`VecDeque::drain`: the drained entries and what is left.  It panics on a range that is not one of
the queue. -/
def drain (l : List α) (beg fin : ℕ) : Option (List α × List α) :=
  if beg ≤ fin ∧ fin ≤ l.length then some ((l.take fin).drop beg, l.take beg ++ l.drop fin) else none

/-- The function {lit}`inner` of {lit}`keep_ixs` -/
def keepIxsInner : List α → List Bool → List α
  | [], _ => []
  | x :: xs, ixs =>
      if ixs.head?.getD false then x :: keepIxsInner xs ixs.tail else keepIxsInner xs ixs.tail

/-- The entries of a column that a mask keeps, in {lit}`retain_unique_ts` -/
def retained (l : List α) (mask : List Bool) : List α :=
  (l.zip mask).filterMap fun p => if p.2 then some p.1 else none

/-- The mask that {lit}`retain_unique_ts` computes: the timestamps that are above all before. -/
def uniqueMask (tsmin : UInt64) : List UInt64 → List Bool
  | [] => []
  | x :: xs => if tsmin < x then true :: uniqueMask x xs else false :: uniqueMask tsmin xs

theorem drain_map (f : α → β) (l : List α) (beg fin : ℕ) :
    drain (l.map f) beg fin = (drain l beg fin).map (Prod.map (List.map f) (List.map f)) := by
  unfold drain
  rw [List.length_map]
  split_ifs
  · simp [List.map_take, List.map_drop]
  · rfl

theorem drain_eq_some {l taken left : List α} {beg fin : ℕ} :
    drain l beg fin = some (taken, left) ↔
      (beg ≤ fin ∧ fin ≤ l.length) ∧ (l.take fin).drop beg = taken ∧ l.take beg ++ l.drop fin = left := by
  simp [drain]

/-- Draining neither loses an entry nor makes one. -/
theorem drain_perm {l taken left : List α} {beg fin : ℕ} (hdrain : drain l beg fin = some (taken, left)) :
    List.Perm (taken ++ left) l := by
  obtain ⟨⟨hle, -⟩, rfl, rfl⟩ := drain_eq_some.mp hdrain
  have hsplit : l.take beg ++ (l.take fin).drop beg = l.take fin := by
    have htake : (l.take fin).take beg = l.take beg := by rw [List.take_take, min_eq_left hle]
    rw [← htake, List.take_append_drop]
  have hswap : ((l.take fin).drop beg ++ l.take beg).Perm (l.take beg ++ (l.take fin).drop beg) :=
    List.perm_append_comm
  rw [hsplit] at hswap
  have hmove := hswap.append_right (l.drop fin)
  rwa [List.take_append_drop, List.append_assoc] at hmove

/-- Both ways of keeping entries by a mask are the same. -/
theorem keepIxsInner_eq_retained (l : List α) (ixs : List Bool) : keepIxsInner l ixs = retained l ixs := by
  induction l generalizing ixs with
  | nil => rfl
  | cons x xs ih =>
      cases ixs with
      | nil => simpa [keepIxsInner, retained] using ih []
      | cons b bs =>
          cases b with
          | true => simpa [keepIxsInner, retained] using ih bs
          | false => simpa [keepIxsInner, retained] using ih bs

theorem retained_map (f : α → β) (l : List α) (mask : List Bool) :
    retained (l.map f) mask = (retained l mask).map f := by
  induction l generalizing mask with
  | nil => rfl
  | cons x xs ih =>
      cases mask with
      | nil => rfl
      | cons b bs =>
          cases b with
          | true => simpa [retained] using ih bs
          | false => simpa [retained] using ih bs

theorem retained_sublist (l : List α) (mask : List Bool) : (retained l mask).Sublist l := by
  induction l generalizing mask with
  | nil => exact List.Sublist.refl _
  | cons x xs ih =>
      cases mask with
      | nil => exact List.nil_sublist _
      | cons b bs =>
          cases b with
          | true => exact (ih bs).cons_cons x
          | false => exact (ih bs).cons x

end Column

namespace EventColumns

/-! ## Operations -/

/-- {lit}`empty` -/
def empty : EventColumns := ⟨[], [], [], [], [], [], [], 0⟩

/-- {lit}`len` -/
def len (c : EventColumns) : ℕ := c.tss.length

/-- {lit}`push` -/
def push (c : EventColumns) (e : RawEvent) : EventColumns :=
  { entryPayloadMax := max c.entryPayloadMax e.blob.length
    tss := c.tss ++ [e.ts]
    pulses := c.pulses ++ [e.pulse]
    blobs := c.blobs ++ [e.blob]
    scalarTypes := c.scalarTypes ++ [e.scalarType]
    be := c.be ++ [e.be]
    shapes := c.shapes ++ [e.shape]
    comps := c.comps ++ [e.comp] }

/-- {lit}`truncate_ts` -/
def truncateTs (c : EventColumns) (fin : UInt64) : EventColumns :=
  let nkeep := (c.tss.findIdx? fun ts => fin ≤ ts).getD (2 ^ 64 - 1)
  { c with
    tss := c.tss.take nkeep
    pulses := c.pulses.take nkeep
    blobs := c.blobs.take nkeep
    scalarTypes := c.scalarTypes.take nkeep
    be := c.be.take nkeep
    shapes := c.shapes.take nkeep
    comps := c.comps.take nkeep }

/-- {lit}`overwrite_all_shapes` -/
def overwriteAllShapes (c : EventColumns) (shape : DataShape) : EventColumns :=
  { c with shapes := c.shapes.map fun _ => shape }

/-- {lit}`pop_back` -/
def popBack (c : EventColumns) : EventColumns :=
  { c with
    tss := c.tss.dropLast
    pulses := c.pulses.dropLast
    blobs := c.blobs.dropLast
    scalarTypes := c.scalarTypes.dropLast
    be := c.be.dropLast
    shapes := c.shapes.dropLast
    comps := c.comps.dropLast }

/-- {lit}`keep_ixs` -/
def keepIxs (c : EventColumns) (ixs : List Bool) : EventColumns :=
  { c with
    tss := keepIxsInner c.tss ixs
    pulses := keepIxsInner c.pulses ixs
    blobs := keepIxsInner c.blobs ixs
    scalarTypes := keepIxsInner c.scalarTypes ixs
    be := keepIxsInner c.be ixs
    shapes := keepIxsInner c.shapes ixs
    comps := keepIxsInner c.comps ixs }

/-- {lit}`retain_unique_ts` -/
def retainUniqueTs (c : EventColumns) (tsmin : UInt64) : EventColumns :=
  let mask := uniqueMask tsmin c.tss
  { c with
    tss := retained c.tss mask
    pulses := retained c.pulses mask
    blobs := retained c.blobs mask
    scalarTypes := retained c.scalarTypes mask
    be := retained c.be mask
    shapes := retained c.shapes mask
    comps := retained c.comps mask }

/-- {lit}`drain_into`: the source and the destination afterwards.  It panics where a range is out of bounds;
the index into the payloads then is so, too. -/
def drainInto (src dst : EventColumns) (beg fin : ℕ) : Option (EventColumns × EventColumns) := do
  let (tss, tss') ← drain src.tss beg fin
  let (pulses, pulses') ← drain src.pulses beg fin
  let (blobs, blobs') ← drain src.blobs beg fin
  let (scalarTypes, scalarTypes') ← drain src.scalarTypes beg fin
  let (be, be') ← drain src.be beg fin
  let (shapes, shapes') ← drain src.shapes beg fin
  let (comps, comps') ← drain src.comps beg fin
  some
    ({ src with
        tss := tss', pulses := pulses', blobs := blobs', scalarTypes := scalarTypes', be := be'
        shapes := shapes', comps := comps' },
      { entryPayloadMax := blobs.foldl (fun m b => max m b.length) dst.entryPayloadMax
        tss := dst.tss ++ tss
        pulses := dst.pulses ++ pulses
        blobs := dst.blobs ++ blobs
        scalarTypes := dst.scalarTypes ++ scalarTypes
        be := dst.be ++ be
        shapes := dst.shapes ++ shapes
        comps := dst.comps ++ comps })

/-- {lit}`drain_into_new` -/
def drainIntoNew (src : EventColumns) (beg fin : ℕ) : Option (EventColumns × EventColumns) :=
  src.drainInto empty beg fin

/-- {lit}`byte_estimate`.  It overflows where it has no result. -/
def byteEstimate (c : EventColumns) : Option ℕ :=
  (checkedAdd 32 64 (c.entryPayloadMax % 2 ^ 32)).bind (checkedMul 32 (c.len % 2 ^ 32))

/-! ## The events in the columns -/

/-- The columns of a list of events -/
def ofEvents (es : EventFull) (payloadMax : ℕ) : EventColumns :=
  { tss := es.map RawEvent.ts
    pulses := es.map RawEvent.pulse
    blobs := es.map RawEvent.blob
    scalarTypes := es.map RawEvent.scalarType
    be := es.map RawEvent.be
    shapes := es.map RawEvent.shape
    comps := es.map RawEvent.comp
    entryPayloadMax := payloadMax }

/-- The rows of the columns, as far as all of them go -/
def rows (c : EventColumns) : EventFull :=
  let fs := c.tss.map RawEvent.mk
  let fs := fs.zipWith (fun f x => f x) c.pulses
  let fs := fs.zipWith (fun f x => f x) c.blobs
  let fs := fs.zipWith (fun f x => f x) c.scalarTypes
  let fs := fs.zipWith (fun f x => f x) c.be
  let fs := fs.zipWith (fun f x => f x) c.shapes
  fs.zipWith (fun f x => f x) c.comps

/-- All columns have the same length. -/
def Rectangular (c : EventColumns) : Prop :=
  c.pulses.length = c.len ∧ c.blobs.length = c.len ∧ c.scalarTypes.length = c.len ∧ c.be.length = c.len ∧
    c.shapes.length = c.len ∧ c.comps.length = c.len

/-- The number of payload bytes that are held -/
def payloadBytes (c : EventColumns) : ℕ := (c.blobs.map List.length).sum

/-- The columns are those of a list of events, and no payload is longer than the largest one. -/
def WellFormed (c : EventColumns) : Prop :=
  ∃ es payloadMax, c = ofEvents es payloadMax ∧ ∀ e ∈ es, e.blob.length ≤ payloadMax

/-- The byte estimate does not overflow: it is the number of rows times what the largest of them takes.  That
is at least the number of payload bytes. -/
def EstimateSound (c : EventColumns) : Prop :=
  c.byteEstimate = some (c.len * (64 + c.entryPayloadMax)) ∧ c.payloadBytes ≤ c.len * (64 + c.entryPayloadMax)

/-- The rows, each taken for the largest, need less than 2^32 bytes.  Where there is no row this says nothing,
and the size of a row is still computed. -/
def Fits (c : EventColumns) : Prop :=
  64 + c.entryPayloadMax % 2 ^ 32 < 2 ^ 32 ∧ c.len * (64 + c.entryPayloadMax) < 2 ^ 32

section OfEvents

variable (es ds : EventFull) (m n : ℕ)

theorem zipWith_apply_map {α β γ : Type*} (f : α → β → γ) (g : α → β) (l : List α) :
    (l.map f).zipWith (fun f x => f x) (l.map g) = l.map fun a => f a (g a) := by
  rw [List.zipWith_map, List.zipWith_self]

@[simp]
theorem rows_ofEvents : (ofEvents es m).rows = es := by
  simp only [rows, ofEvents, List.map_map, zipWith_apply_map]
  exact List.map_id es

@[simp]
theorem rows_empty : empty.rows = [] := rfl

@[simp]
theorem len_ofEvents : (ofEvents es m).len = es.length := List.length_map _

theorem rectangular_ofEvents : (ofEvents es m).Rectangular := by
  simp [Rectangular, ofEvents, len]

@[simp]
theorem push_ofEvents (e : RawEvent) : (ofEvents es m).push e = ofEvents (es ++ [e]) (max m e.blob.length) := by
  simp [push, ofEvents]

theorem truncateTs_ofEvents (fin : UInt64) : ∃ k, (ofEvents es m).truncateTs fin = ofEvents (es.take k) m :=
  ⟨_, by simp only [truncateTs, ofEvents, List.map_take]; rfl⟩

theorem overwriteAllShapes_ofEvents (shape : DataShape) :
    (ofEvents es m).overwriteAllShapes shape = ofEvents (es.map fun e => { e with shape := shape }) m := by
  simp [overwriteAllShapes, ofEvents, Function.comp_def]

theorem popBack_ofEvents : (ofEvents es m).popBack = ofEvents es.dropLast m := by
  simp only [popBack, ofEvents, List.map_dropLast]

theorem keepIxs_ofEvents (ixs : List Bool) : (ofEvents es m).keepIxs ixs = ofEvents (retained es ixs) m := by
  simp only [keepIxs, ofEvents, keepIxsInner_eq_retained, retained_map]

theorem retainUniqueTs_ofEvents (tsmin : UInt64) :
    (ofEvents es m).retainUniqueTs tsmin = ofEvents (retained es (uniqueMask tsmin (es.map RawEvent.ts))) m := by
  simp only [retainUniqueTs, ofEvents, retained_map]

/-- Draining moves the rows of a range. -/
theorem drainInto_ofEvents (beg fin : ℕ) :
    (ofEvents es m).drainInto (ofEvents ds n) beg fin =
      (drain es beg fin).map fun p =>
        (ofEvents p.2 m, ofEvents (ds ++ p.1) (p.1.foldl (fun k e => max k e.blob.length) n)) := by
  simp only [drainInto, ofEvents, drain_map]
  cases drain es beg fin with
  | none => rfl
  | some p => simp [List.foldl_map]

end OfEvents

/-! ## What the operations keep -/

section WellFormed

variable {c src dst src' dst' : EventColumns} {beg fin : ℕ}

theorem wellFormed_empty : empty.WellFormed := ⟨[], 0, rfl, nofun⟩

theorem WellFormed.rectangular (hc : c.WellFormed) : c.Rectangular := by
  obtain ⟨es, m, rfl, -⟩ := hc
  exact rectangular_ofEvents es m

theorem WellFormed.push (hc : c.WellFormed) (e : RawEvent) : (c.push e).WellFormed := by
  obtain ⟨es, m, rfl, hmax⟩ := hc
  refine ⟨es ++ [e], max m e.blob.length, push_ofEvents es m e, ?_⟩
  intro e' he'
  rcases List.mem_append.mp he' with he' | he'
  · exact (hmax e' he').trans (le_max_left _ _)
  · exact List.mem_singleton.mp he' ▸ le_max_right _ _

theorem WellFormed.truncateTs (hc : c.WellFormed) (fin : UInt64) : (c.truncateTs fin).WellFormed := by
  obtain ⟨es, m, rfl, hmax⟩ := hc
  obtain ⟨k, hk⟩ := truncateTs_ofEvents es m fin
  exact ⟨es.take k, m, hk, fun e he => hmax e (List.mem_of_mem_take he)⟩

theorem WellFormed.overwriteAllShapes (hc : c.WellFormed) (shape : DataShape) :
    (c.overwriteAllShapes shape).WellFormed := by
  obtain ⟨es, m, rfl, hmax⟩ := hc
  refine ⟨_, m, overwriteAllShapes_ofEvents es m shape, ?_⟩
  intro e he
  obtain ⟨e', he', rfl⟩ := List.mem_map.mp he
  exact hmax e' he'

theorem WellFormed.popBack (hc : c.WellFormed) : c.popBack.WellFormed := by
  obtain ⟨es, m, rfl, hmax⟩ := hc
  exact ⟨es.dropLast, m, popBack_ofEvents es m, fun e he => hmax e (List.mem_of_mem_dropLast he)⟩

theorem WellFormed.keepIxs (hc : c.WellFormed) (ixs : List Bool) : (c.keepIxs ixs).WellFormed := by
  obtain ⟨es, m, rfl, hmax⟩ := hc
  exact ⟨_, m, keepIxs_ofEvents es m ixs, fun e he => hmax e ((retained_sublist es ixs).subset he)⟩

theorem WellFormed.retainUniqueTs (hc : c.WellFormed) (tsmin : UInt64) : (c.retainUniqueTs tsmin).WellFormed := by
  obtain ⟨es, m, rfl, hmax⟩ := hc
  exact ⟨_, m, retainUniqueTs_ofEvents es m tsmin, fun e he => hmax e ((retained_sublist es _).subset he)⟩

/-- The largest payload after a drain is at least the one before, and no drained payload is longer. -/
theorem le_foldl_payload (es : EventFull) (n : ℕ) :
    n ≤ es.foldl (fun k e => max k e.blob.length) n ∧
      ∀ e ∈ es, e.blob.length ≤ es.foldl (fun k e => max k e.blob.length) n := by
  induction es generalizing n with
  | nil => exact ⟨le_rfl, nofun⟩
  | cons e es ih =>
      obtain ⟨hle, hall⟩ := ih (max n e.blob.length)
      refine ⟨(le_max_left _ _).trans hle, ?_⟩
      intro e' he'
      rcases List.mem_cons.mp he' with rfl | he'
      · exact (le_max_right _ _).trans hle
      · exact hall e' he'

/-- What a drain does with the rows: it moves some of the source behind those of the destination. -/
theorem WellFormed.drainInto (hsrc : src.WellFormed) (hdst : dst.WellFormed)
    (hdrain : src.drainInto dst beg fin = some (src', dst')) :
    src'.WellFormed ∧ dst'.WellFormed ∧
      ∃ taken, drain src.rows beg fin = some (taken, src'.rows) ∧ dst'.rows = dst.rows ++ taken := by
  obtain ⟨es, m, rfl, hes⟩ := hsrc
  obtain ⟨ds, n, rfl, hds⟩ := hdst
  rw [drainInto_ofEvents] at hdrain
  obtain ⟨⟨taken, left⟩, hrows, heq⟩ := Option.map_eq_some_iff.mp hdrain
  obtain ⟨rfl, rfl⟩ := Prod.mk.inj heq
  have hmem : ∀ e, e ∈ taken ∨ e ∈ left → e ∈ es := fun e he =>
    (drain_perm hrows).mem_iff.mp (List.mem_append.mpr he)
  obtain ⟨hn, htaken⟩ := le_foldl_payload taken n
  refine ⟨⟨left, m, rfl, fun e he => hes e (hmem e (Or.inr he))⟩, ⟨_, _, rfl, ?_⟩, taken, ?_, ?_⟩
  · intro e he
    rcases List.mem_append.mp he with he | he
    · exact (hds e he).trans hn
    · exact htaken e he
  · simpa using hrows
  · simp

/-- A drain conserves the rows. -/
theorem WellFormed.rows_drainInto (hsrc : src.WellFormed) (hdst : dst.WellFormed)
    (hdrain : src.drainInto dst beg fin = some (src', dst')) :
    (src'.rows : Multiset RawEvent) + dst'.rows = src.rows + dst.rows := by
  obtain ⟨-, -, taken, hrows, hdst'⟩ := hsrc.drainInto hdst hdrain
  have hperm : ((taken ++ src'.rows : EventFull) : Multiset RawEvent) = src.rows :=
    Multiset.coe_eq_coe.mpr (drain_perm hrows)
  rw [← Multiset.coe_add] at hperm
  rw [hdst', ← Multiset.coe_add, ← hperm]
  abel

end WellFormed

/-! ## The byte estimate -/

section Estimate

variable {c : EventColumns}

/-- No row takes more than the largest one. -/
theorem WellFormed.payloadBytes_le (hc : c.WellFormed) : c.payloadBytes ≤ c.len * (64 + c.entryPayloadMax) := by
  obtain ⟨es, m, rfl, hmax⟩ := hc
  have hsum : ((es.map RawEvent.blob).map List.length).sum ≤ (es.map RawEvent.blob).length • m := by
    rw [← List.length_map (f := List.length)]
    apply List.sum_le_card_nsmul
    intro k hk
    obtain ⟨b, hb, rfl⟩ := List.mem_map.mp hk
    obtain ⟨e, he, rfl⟩ := List.mem_map.mp hb
    exact hmax e he
  calc payloadBytes (ofEvents es m)
      ≤ es.length * m := by simpa [payloadBytes, ofEvents] using hsum
    _ ≤ es.length * (64 + m) := Nat.mul_le_mul_left _ (Nat.le_add_left _ _)
    _ = (ofEvents es m).len * (64 + m) := by rw [len_ofEvents]

/-- The estimate is sound exactly if the rows, each taken for the largest, fit. -/
theorem estimateSound_iff (hc : c.WellFormed) : c.EstimateSound ↔ c.Fits := by
  unfold EstimateSound Fits byteEstimate
  rw [and_iff_left hc.payloadBytes_le, Option.bind_eq_some_iff]
  constructor
  · rintro ⟨size, hsize, hest⟩
    obtain ⟨hfits, rfl⟩ := checkedAdd_eq_some.mp hsize
    obtain ⟨hlt, heq⟩ := checkedMul_eq_some.mp hest
    exact ⟨hfits, heq ▸ hlt⟩
  · rintro ⟨hsize, hlt⟩
    refine ⟨_, checkedAdd_of_lt hsize, ?_⟩
    rcases Nat.eq_zero_or_pos c.len with hzero | hpos
    · simp [hzero, checkedMul]
    · have hrow : 64 + c.entryPayloadMax < 2 ^ 32 := (Nat.le_mul_of_pos_left _ hpos).trans_lt hlt
      have hlen : c.len < 2 ^ 32 := (Nat.le_mul_of_pos_right _ (by omega)).trans_lt hlt
      rw [Nat.mod_eq_of_lt hlen, Nat.mod_eq_of_lt (by omega : c.entryPayloadMax < 2 ^ 32)]
      exact checkedMul_of_lt hlt

end Estimate

end EventColumns

/-! ## Runs -/

/-- The operations on values in slots; a drain is between two of them. -/
inductive EventOp where
  | empty (i : ℕ)
  | push (i : ℕ) (e : RawEvent)
  | truncateTs (i : ℕ) (fin : UInt64)
  | overwriteAllShapes (i : ℕ) (shape : DataShape)
  | popBack (i : ℕ)
  | keepIxs (i : ℕ) (ixs : List Bool)
  | retainUniqueTs (i : ℕ) (tsmin : UInt64)
  | drainInto (src dst : ℕ) (hne : src ≠ dst) (beg fin : ℕ)
  | drainIntoNew (src dst : ℕ) (hne : src ≠ dst) (beg fin : ℕ)

namespace EventOp

open EventColumns

/-- What an operation does. -/
def step : EventOp → Pool EventColumns → Option (Pool EventColumns)
  | empty i, s => modify s i fun _ => some .empty
  | push i e, s => modify s i fun c => some (c.push e)
  | truncateTs i fin, s => modify s i fun c => some (c.truncateTs fin)
  | overwriteAllShapes i shape, s => modify s i fun c => some (c.overwriteAllShapes shape)
  | popBack i, s => modify s i fun c => some c.popBack
  | keepIxs i ixs, s => modify s i fun c => some (c.keepIxs ixs)
  | retainUniqueTs i tsmin, s => modify s i fun c => some (c.retainUniqueTs tsmin)
  | drainInto src dst _ beg fin, s => modifyPair s src dst fun c d => c.drainInto d beg fin
  | drainIntoNew src dst _ beg fin, s => modifyPair s src dst fun c _ => c.drainIntoNew beg fin

/-- Nothing is held at first. -/
def start : Pool EventColumns := fun _ => .empty

variable {o : EventOp} {ops : List EventOp} {s t : Pool EventColumns}

/-- Every operation keeps the columns well formed. -/
theorem wellFormed_step (hs : ∀ i, (s i).WellFormed) (hstep : step o s = some t) : ∀ i, (t i).WellFormed := by
  have hmodify : ∀ {i : ℕ} {f : EventColumns → EventColumns}, (modify s i fun c => some (f c)) = some t →
      (f (s i)).WellFormed → ∀ k, (t k).WellFormed := by
    intro i f hmod hwf
    obtain ⟨c, hc, rfl⟩ := modify_eq_some.mp hmod
    exact (forall_update hs).mpr (Option.some.inj hc ▸ hwf)
  cases o with
  | empty i =>
      rw [step] at hstep
      exact hmodify hstep wellFormed_empty
  | push i e =>
      rw [step] at hstep
      exact hmodify hstep ((hs i).push e)
  | truncateTs i fin =>
      rw [step] at hstep
      exact hmodify hstep ((hs i).truncateTs fin)
  | overwriteAllShapes i shape =>
      rw [step] at hstep
      exact hmodify hstep ((hs i).overwriteAllShapes shape)
  | popBack i =>
      rw [step] at hstep
      exact hmodify hstep (hs i).popBack
  | keepIxs i ixs =>
      rw [step] at hstep
      exact hmodify hstep ((hs i).keepIxs ixs)
  | retainUniqueTs i tsmin =>
      rw [step] at hstep
      exact hmodify hstep ((hs i).retainUniqueTs tsmin)
  | drainInto i j hne beg fin =>
      rw [step] at hstep
      obtain ⟨src, dst, hdrain, rfl⟩ := modifyPair_eq_some.mp hstep
      obtain ⟨hsrc, hdst, -⟩ := (hs i).drainInto (hs j) hdrain
      exact (forall_update_update hne hs).mpr ⟨hsrc, hdst⟩
  | drainIntoNew i j hne beg fin =>
      rw [step] at hstep
      obtain ⟨src, dst, hdrain, rfl⟩ := modifyPair_eq_some.mp hstep
      obtain ⟨hsrc, hdst, -⟩ := (hs i).drainInto wellFormed_empty hdrain
      exact (forall_update_update hne hs).mpr ⟨hsrc, hdst⟩

/-- The columns are well formed in every state of every run. -/
theorem wellFormed_run (hreached : Reached step ops start t) : ∀ i, (t i).WellFormed :=
  forall_reached_of_step (fun _ _ _ hs hstep => wellFormed_step hs hstep) (fun _ => wellFormed_empty) t hreached

/-- Rectangular columns, drains that conserve the rows, and a sound byte estimate -/
structure ColumnsSound (s : Pool EventColumns) : Prop where
  rectangular : ∀ i, (s i).Rectangular
  rows_drainInto : ∀ i j beg fin src dst, (s i).drainInto (s j) beg fin = some (src, dst) →
    (src.rows : Multiset RawEvent) + dst.rows = (s i).rows + (s j).rows
  rows_drainIntoNew : ∀ i beg fin src dst, (s i).drainIntoNew beg fin = some (src, dst) →
    (src.rows : Multiset RawEvent) + dst.rows = (s i).rows
  estimate : ∀ i, (s i).EstimateSound

/-- The columns and the estimates are sound all along a run exactly if in each of its states each value fits
the 32 bits of the estimate. -/
theorem columns_sound_iff (ops : List EventOp) :
    (∀ t, Reached step ops start t → ColumnsSound t) ↔ ∀ t, Reached step ops start t → ∀ i, (t i).Fits := by
  apply forall₂_congr
  intro t hreached
  have hwf := wellFormed_run hreached
  constructor
  · intro hsound i
    exact (estimateSound_iff (hwf i)).mp (hsound.estimate i)
  · intro hfits
    constructor
    · exact fun i => (hwf i).rectangular
    · exact fun i j beg fin src dst hdrain => (hwf i).rows_drainInto (hwf j) hdrain
    · intro i beg fin src dst hdrain
      simpa using (hwf i).rows_drainInto wellFormed_empty hdrain
    · exact fun i => (estimateSound_iff (hwf i)).mpr (hfits i)

/-! ## A large payload among many rows -/

theorem start_zero : start 0 = ofEvents [] 0 := rfl

/-- Events that are pushed one after the other into a slot are what the slot holds. -/
theorem run_push (es : EventFull) {ds : EventFull} {m : ℕ} (hs : s 0 = ofEvents ds m) :
    ∃ t n, run step (es.map (push 0)) s = some t ∧ t 0 = ofEvents (ds ++ es) n := by
  induction es generalizing s ds m with
  | nil => exact ⟨s, m, rfl, by simpa using hs⟩
  | cons e es ih =>
      have hstep : step (push 0 e) s = some (Function.update s 0 ((s 0).push e)) := rfl
      have hnext : Function.update s 0 ((s 0).push e) 0 = ofEvents (ds ++ [e]) (max m e.blob.length) := by
        rw [Function.update_self, hs, push_ofEvents]
      obtain ⟨t, n, hrun, ht⟩ := ih hnext
      refine ⟨t, n, ?_, by simpa using ht⟩
      rw [List.map_cons, run_cons_of_step hstep, hrun]

/-- Events overflow the estimate if one of them is too large for their number. -/
theorem not_columnsSound_push {es : EventFull} {e : RawEvent} (he : e ∈ es)
    (hlarge : 2 ^ 32 ≤ es.length * (64 + e.blob.length)) :
    ¬ ∀ t, Reached step (es.map (push 0)) start t → ColumnsSound t := by
  intro hall
  obtain ⟨t, n, hrun, ht⟩ := run_push es start_zero
  have hreached : Reached step (es.map (push 0)) start t := ⟨_, List.prefix_rfl, hrun⟩
  have hwf := wellFormed_run hreached 0
  obtain ⟨-, hlt⟩ := (estimateSound_iff hwf).mp ((hall t hreached).estimate 0)
  obtain ⟨fs, m, hfs, hbound⟩ := hwf
  have hrows : fs = es := by
    have hrows := congrArg rows (hfs.symm.trans ht)
    simpa using hrows
  have hmax : e.blob.length ≤ m := hbound e (hrows ▸ he)
  have hlen : (t 0).len = es.length := by rw [hfs, len_ofEvents, hrows]
  rw [hlen, hfs] at hlt
  exact absurd (hlarge.trans (Nat.mul_le_mul_left _ (Nat.add_le_add_left hmax _))) (not_le.mpr hlt)

/-- An event with a payload of zeros -/
def zeros (n : ℕ) : RawEvent := ⟨0, 0, List.replicate n 0, .u8, false, .scalar, none⟩

theorem length_zeros (n : ℕ) : (zeros n).blob.length = n := List.length_replicate

/-- One large payload, and so many events without one. -/
def oneLarge (large few : ℕ) : EventFull := zeros large :: List.replicate few (zeros 0)

theorem length_oneLarge (large few : ℕ) : (oneLarge large few).length = few + 1 := by
  rw [oneLarge, List.length_cons, List.length_replicate]

theorem not_columnsSound_oneLarge {large few : ℕ} (hlarge : 2 ^ 32 ≤ (few + 1) * (64 + large)) :
    ¬ ∀ t, Reached step ((oneLarge large few).map (push 0)) start t → ColumnsSound t := by
  have hmem : zeros large ∈ oneLarge large few := List.mem_cons_self
  apply not_columnsSound_push hmem
  rwa [length_oneLarge, length_zeros]

/-- One payload of 5 MB among 1000 rows overflows the estimate. -/
theorem not_columnsSound_large : ¬ ∀ ops t, Reached step ops start t → ColumnsSound t := by
  intro hall
  have hlarge : 2 ^ 32 ≤ (999 + 1) * (64 + 5000000) := by norm_num
  exact not_columnsSound_oneLarge hlarge (hall _)

end EventOp

end Items
end Daqbuf
