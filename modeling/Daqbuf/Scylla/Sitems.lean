import Daqbuf.Scylla.LspMerge
/-!
# Items with an Error Type

What the items of a stream carry, for every type of the errors, and the macro {lit}`on_sitemty_data` that maps their
data.

Main results:

- Theorems {lit}`datas2_append`, {lit}`errors2_append` and {lit}`notes2_append`: what a sequence of items carries is
  read off piece by piece.
- Theorem {lit}`shapes_eq`: items of one shape carry the same notes and errors.
-/

namespace Daqbuf
namespace Scylla

open Items Poll

variable {T T' E : Type*}

/-- The data of an item -/
def data2? : Sitemty2 T E → Option T
  | .ok (.dataItem (.data x)) => some x
  | _ => none

/-- The error of an item -/
def error2? : Sitemty2 T E → Option E
  | .error e => some e
  | _ => none

/-- The log entry or the statistics of an item -/
def note2? : Sitemty2 T E → Option (LogItem ⊕ StatsItem)
  | .ok (.log x) => some (.inl x)
  | .ok (.stats x) => some (.inr x)
  | _ => none

/-- The data of the items, in order -/
def datas2 (xs : List (Sitemty2 T E)) : List T := xs.filterMap data2?

/-- The errors of the items, in order -/
def errors2 (xs : List (Sitemty2 T E)) : List E := xs.filterMap error2?

/-- The log entries and statistics of the items, in order -/
def notes2 (xs : List (Sitemty2 T E)) : List (LogItem ⊕ StatsItem) := xs.filterMap note2?

/-- {lit}`on_sitemty_data`: other items stay as they are. -/
def onSitemtyData (f : T → Sitemty2 T' E) : Sitemty2 T E → Sitemty2 T' E
  | .ok (.dataItem (.data x)) => f x
  | .ok (.dataItem .rangeComplete) => .ok (.dataItem .rangeComplete)
  | .ok (.log x) => .ok (.log x)
  | .ok (.stats x) => .ok (.stats x)
  | .error e => .error e

/-- An item without its data -/
def shape (x : Sitemty2 T E) : Sitemty2 Unit E := onSitemtyData (fun _ => sitem2Data ()) x

/-! ## Laws -/

section Laws

variable (x : T) (l : LogItem) (t : StatsItem) (e : E) (xs ys : List (Sitemty2 T E))

@[simp] theorem data2?_data : data2? (sitem2Data x : Sitemty2 T E) = some x := rfl
@[simp] theorem data2?_complete : data2? (.ok (.dataItem .rangeComplete) : Sitemty2 T E) = none := rfl
@[simp] theorem data2?_log : data2? (.ok (.log l) : Sitemty2 T E) = none := rfl
@[simp] theorem data2?_stats : data2? (.ok (.stats t) : Sitemty2 T E) = none := rfl
@[simp] theorem data2?_error : data2? (.error e : Sitemty2 T E) = none := rfl
@[simp] theorem error2?_ok (x : StreamItem (RangeCompletableItem T)) : error2? (.ok x : Sitemty2 T E) = none := rfl
@[simp] theorem error2?_error : error2? (.error e : Sitemty2 T E) = some e := rfl
@[simp] theorem note2?_data (x : RangeCompletableItem T) : note2? (.ok (.dataItem x) : Sitemty2 T E) = none := rfl
@[simp] theorem note2?_log : note2? (.ok (.log l) : Sitemty2 T E) = some (.inl l) := rfl
@[simp] theorem note2?_stats : note2? (.ok (.stats t) : Sitemty2 T E) = some (.inr t) := rfl
@[simp] theorem note2?_error : note2? (.error e : Sitemty2 T E) = none := rfl

@[simp] theorem datas2_nil : datas2 ([] : List (Sitemty2 T E)) = [] := rfl
@[simp] theorem errors2_nil : errors2 ([] : List (Sitemty2 T E)) = [] := rfl
@[simp] theorem notes2_nil : notes2 ([] : List (Sitemty2 T E)) = [] := rfl

@[simp]
theorem datas2_append : datas2 (xs ++ ys) = datas2 xs ++ datas2 ys := List.filterMap_append

@[simp]
theorem errors2_append : errors2 (xs ++ ys) = errors2 xs ++ errors2 ys := List.filterMap_append

@[simp]
theorem notes2_append : notes2 (xs ++ ys) = notes2 xs ++ notes2 ys := List.filterMap_append

@[simp]
theorem datas2_cons (x : Sitemty2 T E) : datas2 (x :: xs) = (data2? x).toList ++ datas2 xs := by
  cases hx : data2? x <;> simp [datas2, hx]

@[simp]
theorem errors2_cons (x : Sitemty2 T E) : errors2 (x :: xs) = (error2? x).toList ++ errors2 xs := by
  cases hx : error2? x <;> simp [errors2, hx]

@[simp]
theorem notes2_cons (x : Sitemty2 T E) : notes2 (x :: xs) = (note2? x).toList ++ notes2 xs := by
  cases hx : note2? x <;> simp [notes2, hx]

/-- Data items carry their data and nothing else. -/
@[simp]
theorem datas2_map_data {S : Type*} (f : S → T) (cs : List S) :
    datas2 (cs.map fun c => (sitem2Data (f c) : Sitemty2 T E)) = cs.map f := by
  induction cs with
  | nil => rfl
  | cons c cs ih => simp [ih]

@[simp]
theorem errors2_map_data {S : Type*} (f : S → T) (cs : List S) :
    errors2 (cs.map fun c => (sitem2Data (f c) : Sitemty2 T E)) = [] := by
  induction cs with
  | nil => rfl
  | cons c cs ih => simp [ih]

@[simp]
theorem notes2_map_data {S : Type*} (f : S → T) (cs : List S) :
    notes2 (cs.map fun c => (sitem2Data (f c) : Sitemty2 T E)) = [] := by
  induction cs with
  | nil => rfl
  | cons c cs ih => simp [ih]

end Laws

/-- Without data, an item carries its error and its note. -/
theorem error2?_shape (x : Sitemty2 T E) : error2? (shape x) = error2? x := by
  cases x with
  | error e => rfl
  | ok x =>
      cases x with
      | dataItem d => cases d <;> rfl
      | log l => rfl
      | stats t => rfl

theorem note2?_shape (x : Sitemty2 T E) : note2? (shape x) = note2? x := by
  cases x with
  | error e => rfl
  | ok x =>
      cases x with
      | dataItem d => cases d <;> rfl
      | log l => rfl
      | stats t => rfl

/-- Items of the same shape carry the same errors and notes. -/
theorem shapes_eq {xs : List (Sitemty2 T E)} {ys : List (Sitemty2 T' E)} (hshape : xs.map shape = ys.map shape) :
    errors2 xs = errors2 ys ∧ notes2 xs = notes2 ys := by
  constructor
  · calc
      errors2 xs = errors2 (xs.map shape) := by simp [errors2, List.filterMap_map, error2?_shape]
      _ = errors2 (ys.map shape) := by rw [hshape]
      _ = errors2 ys := by simp [errors2, List.filterMap_map, error2?_shape]
  · calc
      notes2 xs = notes2 (xs.map shape) := by simp [notes2, List.filterMap_map, note2?_shape]
      _ = notes2 (ys.map shape) := by rw [hshape]
      _ = notes2 ys := by simp [notes2, List.filterMap_map, note2?_shape]

end Scylla
end Daqbuf
