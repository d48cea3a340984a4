import Daqbuf.Netpod.Range
/-!
# Stream Items and Mergeable Containers

The items that the streams of this program carry, and the interface through which the generic stream
stages look into the containers inside of them and cut them.

Main results:

- Theorems {lit}`datas_append`, {lit}`errors_append` and {lit}`completes_append`: what a sequence of
  stream items carries is read off piece by piece.
-/

namespace Daqbuf
namespace Items

open Netpod

/-! ## Stream items -/

/-- {lit}`RangeCompletableItem` -/
inductive RangeCompletableItem (T : Type*) where
  | rangeComplete
  | data (x : T)
  deriving DecidableEq, Repr

/-- {lit}`log::Level` -/
inductive Level where
  | error | warn | info | debug | trace
  deriving DecidableEq, Repr

/-- {lit}`LogItem`, without the wall-clock time of its creation. -/
structure LogItem where
  origin : String
  level : Level
  msg : String
  deriving DecidableEq, Repr

/-- {lit}`RangeFilterStats` -/
structure RangeFilterStats where
  recvEmpty : ℕ := 0
  itemsNoPruneHigh : ℕ := 0
  itemsAllPruneHigh : ℕ := 0
  itemsPartPruneHigh : ℕ := 0
  itemsPruneLow : ℕ := 0
  deriving DecidableEq, Repr

/-- {lit}`DiskStats`; each kind holds one duration. -/
inductive DiskStats where
  | openStats (duration : ℕ)
  | seekStats (duration : ℕ)
  | readStats (duration : ℕ)
  | readExactStats (duration : ℕ)
  deriving DecidableEq, Repr

/-- {lit}`StatsItem` -/
inductive StatsItem where
  | eventDataReadStats (parsedBytes : ℕ)
  | rangeFilterStats (stats : RangeFilterStats)
  | diskStats (stats : DiskStats)
  | warnings
  | binning
  deriving DecidableEq, Repr

/-- {lit}`StreamItem` -/
inductive StreamItem (T : Type*) where
  | dataItem (x : T)
  | log (x : LogItem)
  | stats (x : StatsItem)
  deriving DecidableEq, Repr

/-- {lit}`SitemErrTy`: an error made from a text, or from a variant of a module's own error type
(whose text is generated), which may hold another error. -/
inductive SitemErr where
  | fromString (msg : String)
  | fromVariant (module : String) (variant : String)
  | fromNested (module : String) (variant : String) (inner : SitemErr)
  deriving DecidableEq, Repr

/-- {lit}`Sitemty` -/
abbrev Sitemty (T : Type*) := Except SitemErr (StreamItem (RangeCompletableItem T))

/-- {lit}`sitem_data` -/
@[match_pattern]
abbrev sitemData {T : Type*} (x : T) : Sitemty T := .ok (.dataItem (.data x))

/-- The range-complete item. -/
@[match_pattern]
abbrev sitemRangeComplete {T : Type*} : Sitemty T := .ok (.dataItem .rangeComplete)

/-- {lit}`sitem_err_from_string` for a text -/
abbrev sitemErrFromString {T : Type*} (msg : String) : Sitemty T := .error (.fromString msg)

/-! ## What a sequence of stream items carries -/

section Carries

variable {T : Type*}

/-- The data of a stream item. -/
def data? : Sitemty T → Option T
  | sitemData x => some x
  | _ => none

/-- The error of a stream item. -/
def error? : Sitemty T → Option SitemErr
  | .error e => some e
  | _ => none

/-- Whether a stream item is the range-complete marker. -/
def isRangeComplete : Sitemty T → Bool
  | sitemRangeComplete => true
  | _ => false

/-- The data items, in order. -/
def datas (xs : List (Sitemty T)) : List T := xs.filterMap data?

/-- The errors, in order. -/
def errors (xs : List (Sitemty T)) : List SitemErr := xs.filterMap error?

/-- The number of range-complete markers. -/
def completes (xs : List (Sitemty T)) : ℕ := xs.countP isRangeComplete

@[simp]
theorem datas_nil : datas ([] : List (Sitemty T)) = [] := rfl

@[simp]
theorem errors_nil : errors ([] : List (Sitemty T)) = [] := rfl

@[simp]
theorem completes_nil : completes ([] : List (Sitemty T)) = 0 := rfl

@[simp]
theorem datas_append (xs ys : List (Sitemty T)) : datas (xs ++ ys) = datas xs ++ datas ys :=
  List.filterMap_append

@[simp]
theorem errors_append (xs ys : List (Sitemty T)) : errors (xs ++ ys) = errors xs ++ errors ys :=
  List.filterMap_append

@[simp]
theorem completes_append (xs ys : List (Sitemty T)) :
    completes (xs ++ ys) = completes xs + completes ys :=
  List.countP_append

@[simp]
theorem datas_cons (x : Sitemty T) (xs : List (Sitemty T)) :
    datas (x :: xs) = (data? x).toList ++ datas xs := by
  cases hx : data? x <;> simp [datas, hx]

@[simp]
theorem errors_cons (x : Sitemty T) (xs : List (Sitemty T)) :
    errors (x :: xs) = (error? x).toList ++ errors xs := by
  cases hx : error? x <;> simp [errors, hx]

@[simp]
theorem completes_cons (x : Sitemty T) (xs : List (Sitemty T)) :
    completes (x :: xs) = completes xs + if isRangeComplete x then 1 else 0 :=
  List.countP_cons

@[simp] theorem data?_data (x : T) : data? (sitemData x) = some x := rfl
@[simp] theorem data?_rangeComplete : data? (sitemRangeComplete : Sitemty T) = none := rfl
@[simp] theorem data?_log (x : LogItem) : data? (.ok (.log x) : Sitemty T) = none := rfl
@[simp] theorem data?_stats (x : StatsItem) : data? (.ok (.stats x) : Sitemty T) = none := rfl
@[simp] theorem data?_error (e : SitemErr) : data? (.error e : Sitemty T) = none := rfl
@[simp] theorem error?_ok (x : StreamItem (RangeCompletableItem T)) :
    error? (.ok x : Sitemty T) = none := rfl
@[simp] theorem error?_error (e : SitemErr) : error? (.error e : Sitemty T) = some e := rfl
@[simp] theorem isRangeComplete_data (x : T) : isRangeComplete (sitemData x) = false := rfl
@[simp] theorem isRangeComplete_rangeComplete :
    isRangeComplete (sitemRangeComplete : Sitemty T) = true := rfl
@[simp] theorem isRangeComplete_log (x : LogItem) :
    isRangeComplete (.ok (.log x) : Sitemty T) = false := rfl
@[simp] theorem isRangeComplete_stats (x : StatsItem) :
    isRangeComplete (.ok (.stats x) : Sitemty T) = false := rfl
@[simp] theorem isRangeComplete_error (e : SitemErr) :
    isRangeComplete (.error e : Sitemty T) = false := rfl

/-- Data items carry their data and nothing else. -/
@[simp]
theorem datas_map_data (xs : List T) : datas (xs.map fun x => sitemData x) = xs := by
  induction xs with
  | nil => rfl
  | cons x xs ih => simp [ih]

@[simp]
theorem errors_map_data (xs : List T) : errors (xs.map fun x => sitemData x) = [] := by
  induction xs with
  | nil => rfl
  | cons x xs ih => simp [ih]

@[simp]
theorem completes_map_data (xs : List T) : completes (xs.map fun x => sitemData x) = 0 := by
  induction xs with
  | nil => rfl
  | cons x xs ih => simp [ih]

/-- No data and no second marker comes after a range-complete marker. -/
def CompleteIsLast (xs : List (Sitemty T)) : Prop :=
  ∀ pre post, xs = pre ++ sitemRangeComplete :: post → datas post = [] ∧ completes post = 0

/-- Nothing comes after a marker that is not there. -/
theorem completeIsLast_of_completes_eq_zero {xs : List (Sitemty T)} (hnone : completes xs = 0) :
    CompleteIsLast xs := by
  rintro pre post rfl
  simp at hnone

/-- A marker behind which nothing comes is the last, if none comes before it. -/
theorem completeIsLast_append_cons {xs ys : List (Sitemty T)} (hnone : completes xs = 0)
    (hdatas : datas ys = []) (hcompletes : completes ys = 0) :
    CompleteIsLast (xs ++ sitemRangeComplete :: ys) := by
  intro pre post hsplit
  rcases List.append_eq_append_iff.mp hsplit with ⟨zs, rfl, hzs⟩ | ⟨zs, rfl, hzs⟩
  · cases zs with
    | nil =>
        simp only [List.nil_append, List.cons.injEq, true_and] at hzs
        exact hzs ▸ ⟨hdatas, hcompletes⟩
    | cons z zs =>
        simp only [List.cons_append, List.cons.injEq] at hzs
        rw [hzs.2] at hcompletes
        simp at hcompletes
  · cases zs with
    | nil =>
        simp only [List.nil_append, List.cons.injEq, true_and] at hzs
        exact hzs ▸ ⟨hdatas, hcompletes⟩
    | cons z zs =>
        simp only [List.cons_append, List.cons.injEq] at hzs
        rw [← hzs.1] at hnone
        simp at hnone

end Carries

/-! ## Mergeable containers -/

/-- {lit}`DrainIntoDstResult` -/
inductive DrainIntoDstResult where
  | done
  | partially
  | notCompatible
  deriving DecidableEq, Repr

/-- {lit}`DrainIntoNewResult` -/
inductive DrainIntoNewResult (T : Type*) where
  | done (x : T)
  | partially (x : T)
  | notCompatible
  deriving DecidableEq, Repr

/-- {lit}`MergeableTy` with its supertraits {lit}`WithLen` and {lit}`ByteEstimate`.  A method that
takes {lit}`&mut self`, or that caches in a cell, returns the new value of the container.  Ranges of
indices are given by their two ends; {lit}`drainInto` returns the source and the destination. -/
class MergeableTy (T : Type*) where
  len : T → ℕ
  byteEstimate : T → UInt32 × T
  tsMin : T → Option ℕ
  tsMax : T → Option ℕ
  findLowestIndexGt : T → ℕ → Option ℕ
  findLowestIndexGe : T → ℕ → Option ℕ
  findHighestIndexLt : T → ℕ → Option ℕ
  drainInto : T → T → ℕ → ℕ → DrainIntoDstResult × T × T
  drainIntoNew : T → ℕ → ℕ → DrainIntoNewResult T × T
  isMonotonic : T → Bool

end Items
end Daqbuf
