import Daqbuf.Items.ContainerEvents
import Daqbuf.Slots.Pool
/-!
# The Cached Byte Estimate

A container caches its byte estimate when it is asked for it, and only {lit}`push_back` and {lit}`clear` touch the
cache again.  The other operations that change the events leave it behind.

Main results:

- Theorem {lit}`sizeOfEvents_eq_zero_iff`: below the word size, only the estimate of no events is zero.
- Theorem {lit}`estimatesExact_step`: when an operation keeps the estimates of all containers exact.
- Theorem {lit}`estimatesExact_iff_along`: when they are exact in all of a run.
-/

namespace Daqbuf
namespace Items

open Slots

variable {V : Type*} [EventValueType V]

/-! ## Size of events -/

/-- The byte estimate of a list of events -/
def sizeOfEvents (evs : List (EventSingle V)) : UInt32 :=
  8 * UInt32.ofNat evs.length + (evs.map fun ev => EventValueType.byteEstimate ev.val).sum

theorem sizeOfEvents_append (evs evs' : List (EventSingle V)) :
    sizeOfEvents (evs ++ evs') = sizeOfEvents evs + sizeOfEvents evs' := by
  simp only [sizeOfEvents, List.length_append, List.map_append, List.sum_append, UInt32.ofNat_add, UInt32.mul_add]
  ac_rfl

@[simp]
theorem sizeOfEvents_nil : sizeOfEvents ([] : List (EventSingle V)) = 0 := rfl

theorem sizeOfEvents_cons (ev : EventSingle V) (evs : List (EventSingle V)) :
    sizeOfEvents (ev :: evs) = sizeOfEvents [ev] + sizeOfEvents evs :=
  sizeOfEvents_append [ev] evs

/-- The estimate is that of the bytes, modulo the word size. -/
theorem toNat_sizeOfEvents (evs : List (EventSingle V)) :
    (sizeOfEvents evs).toNat =
      (evs.map fun ev => 8 + (EventValueType.byteEstimate ev.val).toNat).sum % 2 ^ 32 := by
  induction evs with
  | nil => rfl
  | cons ev evs ih =>
      have hone : (sizeOfEvents [ev]).toNat = (8 + (EventValueType.byteEstimate ev.val).toNat) % 2 ^ 32 := by
        simp [sizeOfEvents]
      rw [sizeOfEvents_cons, UInt32.toNat_add, hone, ih, List.map_cons, List.sum_cons, ← Nat.add_mod]

/-- Where it does not overflow, only the estimate of no events is zero. -/
theorem sizeOfEvents_eq_zero_iff {evs : List (EventSingle V)}
    (hfits : (evs.map fun ev => 8 + (EventValueType.byteEstimate ev.val).toNat).sum < 2 ^ 32) :
    sizeOfEvents evs = 0 ↔ evs = [] := by
  constructor
  · intro hzero
    have hsum := toNat_sizeOfEvents evs
    rw [hzero, Nat.mod_eq_of_lt hfits] at hsum
    cases evs with
    | nil => rfl
    | cons ev evs =>
        rw [List.map_cons, List.sum_cons, UInt32.toNat_zero] at hsum
        omega
  · rintro rfl
    rfl

-- an event whose estimate wraps around to zero
example : sizeOfEvents [{ ts := 1, val := List.replicate 357913941 true }] = 0 := by
  simp only [sizeOfEvents, EventValueType.byteEstimate, List.map_cons, List.map_nil, List.length_replicate]
  rfl

namespace ContainerEvents

/-- The byte estimate that is computed from the events that are held. -/
def recomputedEstimate (c : ContainerEvents V) : UInt32 := ({ c with byteEstimateCache := none }).byteEstimate.1

/-- The byte estimate is that of the events that are held. -/
def EstimateExact (c : ContainerEvents V) : Prop := c.byteEstimate.1 = c.recomputedEstimate

/-- No byte estimate is cached. -/
def Uncached (c : ContainerEvents V) : Prop := c.byteEstimateCache = none

instance (c : ContainerEvents V) : Decidable c.EstimateExact := inferInstanceAs (Decidable (_ = _))

section Exact

variable {c src dst : ContainerEvents V} {evs : List (EventSingle V)} {beg fin : ℕ}

theorem recomputedEstimate_eq (c : ContainerEvents V) : c.recomputedEstimate = sizeOfEvents c.evs := rfl

theorem estimateExact_of_uncached (hc : c.Uncached) : c.EstimateExact := by
  obtain ⟨evs, cache⟩ := c
  obtain rfl : cache = none := hc
  exact rfl

theorem estimateExact_iff_of_cached {x : UInt32} (hc : c.byteEstimateCache = some x) :
    c.EstimateExact ↔ x = sizeOfEvents c.evs := by
  rw [EstimateExact, recomputedEstimate_eq, byteEstimate, hc]

/-- Where the cache stays as it is, the estimate stays exact exactly if the size of the events stays, or if
nothing is cached. -/
theorem estimateExact_with_evs (hc : c.EstimateExact) :
    ({ c with evs := evs } : ContainerEvents V).EstimateExact ↔
      sizeOfEvents c.evs = sizeOfEvents evs ∨ c.Uncached := by
  obtain ⟨evs', cache⟩ := c
  cases cache with
  | none => exact iff_of_true (estimateExact_of_uncached rfl) (Or.inr rfl)
  | some x =>
      have hcached (evs : List (EventSingle V)) :
          ({ evs := evs, byteEstimateCache := some x } : ContainerEvents V).EstimateExact ↔ x = sizeOfEvents evs :=
        estimateExact_iff_of_cached rfl
      have huncached : ¬ ({ evs := evs', byteEstimateCache := some x } : ContainerEvents V).Uncached := nofun
      rw [or_iff_left huncached, hcached, (hcached evs').mp hc]

/-- Where some events are taken out, the estimate stays exact exactly if they count for nothing, or if nothing is
cached. -/
theorem estimateExact_without {out : List (EventSingle V)} (hc : c.EstimateExact)
    (hout : sizeOfEvents c.evs = sizeOfEvents out + sizeOfEvents evs) :
    ({ c with evs := evs } : ContainerEvents V).EstimateExact ↔ sizeOfEvents out = 0 ∨ c.Uncached := by
  rw [estimateExact_with_evs hc, hout, UInt32.add_eq_right]

theorem estimateExact_new : (new : ContainerEvents V).EstimateExact := estimateExact_of_uncached rfl

theorem estimateExact_pushBack (c : ContainerEvents V) (ts : ℕ) (val : V) : (c.pushBack ts val).EstimateExact :=
  estimateExact_of_uncached rfl

theorem estimateExact_clear (c : ContainerEvents V) : c.clear.EstimateExact :=
  (estimateExact_iff_of_cached rfl).mpr sizeOfEvents_nil.symm

/-- Asking for the estimate keeps it. -/
theorem estimateExact_byteEstimate (hc : c.EstimateExact) : c.byteEstimate.2.EstimateExact := by
  cases hcache : c.byteEstimateCache with
  | none =>
      have hnext : c.byteEstimate.2 = { c with byteEstimateCache := some (sizeOfEvents c.evs) } := by
        rw [byteEstimate, hcache]
        rfl
      rw [hnext]
      exact (estimateExact_iff_of_cached rfl).mpr rfl
  | some x =>
      have hnext : c.byteEstimate.2 = c := by rw [byteEstimate, hcache]
      rwa [hnext]

theorem estimateExact_truncateFront (len : ℕ) (hc : c.EstimateExact) :
    (c.truncateFront len).EstimateExact ↔ sizeOfEvents (c.evs.take (c.len - len)) = 0 ∨ c.Uncached := by
  unfold truncateFront
  split_ifs with hlt
  · apply estimateExact_without hc
    rw [← sizeOfEvents_append, List.take_append_drop]
  · rw [Nat.sub_eq_zero_of_le (not_lt.mp hlt), List.take_zero]
    exact iff_of_true hc (Or.inl rfl)

/-- The events that are repeated are taken out. -/
theorem sizeOfEvents_keepUnique (tsmin : ℕ) (evs : List (EventSingle V)) :
    sizeOfEvents evs = sizeOfEvents (repeated tsmin evs) + sizeOfEvents (keepUnique tsmin evs) := by
  induction evs generalizing tsmin with
  | nil => rfl
  | cons ev evs ih =>
      rw [keepUnique, repeated]
      split_ifs
      · rw [sizeOfEvents_cons, sizeOfEvents_cons ev (keepUnique _ _), ih ev.ts]
        ac_rfl
      · rw [sizeOfEvents_cons, sizeOfEvents_cons ev (repeated _ _), ih tsmin, UInt32.add_assoc]

theorem estimateExact_retainUniqueTs (tsmin : ℕ) (hc : c.EstimateExact) :
    (c.retainUniqueTs tsmin).EstimateExact ↔ sizeOfEvents (repeated tsmin c.evs) = 0 ∨ c.Uncached :=
  estimateExact_without hc (sizeOfEvents_keepUnique tsmin c.evs)

/-- A drain keeps the estimate of the source exact exactly if what it drains counts for nothing, or if nothing is
cached. -/
theorem estimateExact_src (dst : ContainerEvents V) (hsrc : src.EstimateExact) (hle : beg ≤ fin) :
    (src.drainInto dst beg fin).2.1.EstimateExact ↔
      sizeOfEvents ((src.evs.take fin).drop beg) = 0 ∨ src.Uncached := by
  have hsplit : src.evs = src.evs.take beg ++ ((src.evs.take fin).drop beg ++ src.evs.drop fin) := by
    calc src.evs = (src.evs.take fin).take beg ++ (src.evs.take fin).drop beg ++ src.evs.drop fin := by
          rw [List.take_append_drop, List.take_append_drop]
      _ = _ := by rw [List.take_take, Nat.min_eq_left hle, List.append_assoc]
  apply estimateExact_without hsrc
  conv_lhs => rw [hsplit]
  simp only [sizeOfEvents_append]
  ac_rfl

/-- A drain keeps the estimate of the destination exact exactly if what it drains counts for nothing, or if nothing is
cached. -/
theorem estimateExact_dst (src : ContainerEvents V) (hdst : dst.EstimateExact) (beg fin : ℕ) :
    (src.drainInto dst beg fin).2.2.EstimateExact ↔
      sizeOfEvents ((src.evs.take fin).drop beg) = 0 ∨ dst.Uncached := by
  rw [drainInto, estimateExact_with_evs hdst, sizeOfEvents_append, eq_comm, UInt32.add_eq_left]

end Exact

end ContainerEvents

/-! ## Runs -/

/-- The operations on containers in slots; a drain is between two of them. -/
inductive ContainerOp (V : Type*) where
  | fromConstituents (i : ℕ) (evs : List (EventSingle V))
  | clone (src dst : ℕ)
  | pushBack (i : ℕ) (ts : ℕ) (val : V)
  | clear (i : ℕ)
  | byteEstimate (i : ℕ)
  | truncateFront (i : ℕ) (len : ℕ)
  | retainUniqueTs (i : ℕ) (tsmin : ℕ)
  | drainInto (src dst : ℕ) (hne : src ≠ dst) (beg fin : ℕ)
  | drainIntoNew (src dst : ℕ) (hne : src ≠ dst) (beg fin : ℕ)

namespace ContainerOp

open ContainerEvents

/-- What an operation does.  A drain of a range that is out of bounds panics. -/
def step : ContainerOp V → Pool (ContainerEvents V) → Option (Pool (ContainerEvents V))
  | fromConstituents i evs, s => modify s i fun _ => some { evs := evs }
  | clone src dst, s => modify s dst fun _ => some (s src)
  | pushBack i ts val, s => modify s i fun c => some (c.pushBack ts val)
  | clear i, s => modify s i fun c => some c.clear
  | byteEstimate i, s => modify s i fun c => some c.byteEstimate.2
  | truncateFront i len, s => modify s i fun c => some (c.truncateFront len)
  | retainUniqueTs i tsmin, s => modify s i fun c => some (c.retainUniqueTs tsmin)
  | drainInto src dst _ beg fin, s =>
      modifyPair s src dst fun c d => if beg ≤ fin ∧ fin ≤ c.len then some (c.drainInto d beg fin).2 else none
  | drainIntoNew src dst _ beg fin, s =>
      modifyPair s src dst fun c _ => if beg ≤ fin ∧ fin ≤ c.len then some (c.drainInto .new beg fin).2 else none

/-- An operation meets no cached estimate, if the events that it removes or moves count for anything. -/
def NothingStale : ContainerOp V → Pool (ContainerEvents V) → Prop
  | truncateFront i len, s => sizeOfEvents ((s i).evs.take ((s i).len - len)) = 0 ∨ (s i).Uncached
  | retainUniqueTs i tsmin, s => sizeOfEvents (repeated tsmin (s i).evs) = 0 ∨ (s i).Uncached
  | drainInto src dst _ beg fin, s =>
      sizeOfEvents (((s src).evs.take fin).drop beg) = 0 ∨ (s src).Uncached ∧ (s dst).Uncached
  | drainIntoNew src _ _ beg fin, s => sizeOfEvents (((s src).evs.take fin).drop beg) = 0 ∨ (s src).Uncached
  | _, _ => True

/-- All containers are empty at first. -/
def start : Pool (ContainerEvents V) := fun _ => .new

/-- Every container has an exact estimate. -/
def EstimatesExact (s : Pool (ContainerEvents V)) : Prop := ∀ i, (s i).EstimateExact

variable {o : ContainerOp V} {ops : List (ContainerOp V)} {s t : Pool (ContainerEvents V)}

/-- An operation keeps the estimates exact exactly if it meets no cached estimate that it makes stale. -/
theorem estimatesExact_step (hs : EstimatesExact s) (hstep : step o s = some t) :
    EstimatesExact t ↔ NothingStale o s := by
  have hmodify : ∀ {i : ℕ} {f : ContainerEvents V → ContainerEvents V}, (modify s i fun c => some (f c)) = some t →
      (EstimatesExact t ↔ (f (s i)).EstimateExact) := by
    intro i f hmod
    obtain ⟨c, hc, rfl⟩ := modify_eq_some.mp hmod
    obtain rfl := Option.some.inj hc
    exact forall_update hs
  cases o with
  | fromConstituents i evs =>
      rw [step] at hstep
      exact iff_of_true ((hmodify hstep).mpr (estimateExact_of_uncached rfl)) trivial
  | clone src dst =>
      rw [step] at hstep
      exact iff_of_true ((hmodify hstep).mpr (hs src)) trivial
  | pushBack i ts val =>
      rw [step] at hstep
      exact iff_of_true ((hmodify hstep).mpr (estimateExact_pushBack _ ts val)) trivial
  | clear i =>
      rw [step] at hstep
      exact iff_of_true ((hmodify hstep).mpr (estimateExact_clear _)) trivial
  | byteEstimate i =>
      rw [step] at hstep
      exact iff_of_true ((hmodify hstep).mpr (estimateExact_byteEstimate (hs i))) trivial
  | truncateFront i len =>
      rw [step] at hstep
      exact (hmodify hstep).trans (estimateExact_truncateFront len (hs i))
  | retainUniqueTs i tsmin =>
      rw [step] at hstep
      exact (hmodify hstep).trans (estimateExact_retainUniqueTs tsmin (hs i))
  | drainInto i j hne beg fin =>
      rw [step] at hstep
      obtain ⟨src, dst, hdrain, rfl⟩ := modifyPair_eq_some.mp hstep
      obtain ⟨⟨hle, -⟩, hdrain⟩ := Option.ite_none_right_eq_some.mp hdrain
      obtain ⟨rfl, rfl⟩ := Prod.mk.inj (Option.some.inj hdrain)
      have hsrc := estimateExact_src (s j) (hs i) hle
      have hdst := estimateExact_dst (s i) (hs j) beg fin
      rw [NothingStale, or_and_left, ← hsrc, ← hdst]
      exact forall_update_update hne hs
  | drainIntoNew i j hne beg fin =>
      rw [step] at hstep
      obtain ⟨src, dst, hdrain, rfl⟩ := modifyPair_eq_some.mp hstep
      obtain ⟨⟨hle, -⟩, hdrain⟩ := Option.ite_none_right_eq_some.mp hdrain
      obtain ⟨rfl, rfl⟩ := Prod.mk.inj (Option.some.inj hdrain)
      have hsrc := estimateExact_src .new (hs i) hle
      have hdst := (estimateExact_dst (s i) estimateExact_new beg fin).mpr (Or.inr rfl)
      exact (forall_update_update hne hs).trans ((and_iff_left hdst).trans hsrc)

/-- The estimates of all containers are exact all along a run exactly if no operation of it makes one stale. -/
theorem estimatesExact_iff_along (ops : List (ContainerOp V)) :
    (∀ t, Reached step ops start t → EstimatesExact t) ↔ Along step NothingStale ops start :=
  forall_reached_iff_along (fun _ _ _ hs hstep => estimatesExact_step hs hstep) fun _ => estimateExact_new

/-- A container that is asked for its estimate and then drained still has the old one. -/
theorem not_estimatesExact_drained :
    ¬ ∀ (ops : List (ContainerOp UInt8)) t, Reached step ops start t → EstimatesExact t := by
  intro hall
  let ops : List (ContainerOp UInt8) :=
    [pushBack 0 1 7, byteEstimate 0, drainInto 0 1 (by decide) 0 1]
  obtain ⟨t, ht⟩ : ∃ t, run step ops start = some t := ⟨_, rfl⟩
  have hexact := hall ops t ⟨ops, List.prefix_rfl, ht⟩ 0
  have hstale : (run step ops start).map (fun t => decide (t 0).EstimateExact) = some false := by decide
  rw [ht, Option.map_some, decide_eq_true hexact] at hstale
  cases hstale

end ContainerOp

end Items
end Daqbuf
