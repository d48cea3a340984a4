import Daqbuf.Netpod.Time
/-!
# Insert Queues

The items that the writers push for the insert workers, and the queues they push them to.  A queue is
kept with everything that was ever pushed to it: taking items from its front is the worker's part.

The type of the stored data and the number type of the bins are parameters.  Readings of the monotonic
clock ({lit}`Instant`) are natural numbers of nanoseconds.
-/

namespace Daqbuf

namespace Serieswriter

open Netpod

/-! ## Items -/

/-- {lit}`MspItem`: the entry that makes a partition known to the readers. -/
structure MspItem where
  series : ℕ
  tsMsp : ℕ
  tsNet : ℕ
  deriving DecidableEq, Repr

/-- {lit}`InsertItem` -/
structure InsertItem (D : Type) where
  series : ℕ
  tsMsp : ℕ
  tsLsp : ℕ
  val : D
  tsNet : ℕ
  deriving DecidableEq, Repr

/-- The time of the event, as a reader puts it together. -/
def InsertItem.ts {D : Type} (item : InsertItem D) : ℕ := nsOfMs item.tsMsp + item.tsLsp

/-- {lit}`QueryItem`, as far as the writers of event values push it -/
inductive QueryItem (D : Type) where
  | insert (item : InsertItem D)
  | msp (item : MspItem)
  deriving DecidableEq, Repr

section Inserts

variable {D : Type}

/-- The event values among the items of a queue. -/
def inserts : List (QueryItem D) → List (InsertItem D)
  | [] => []
  | .insert item :: rest => item :: inserts rest
  | .msp _ :: rest => inserts rest

@[simp]
theorem inserts_nil : inserts ([] : List (QueryItem D)) = [] := rfl

@[simp]
theorem inserts_insert (item : InsertItem D) (rest : List (QueryItem D)) :
    inserts (.insert item :: rest) = item :: inserts rest := rfl

@[simp]
theorem inserts_msp (item : MspItem) (rest : List (QueryItem D)) :
    inserts (.msp item :: rest) = inserts rest := rfl

@[simp]
theorem inserts_append (xs ys : List (QueryItem D)) : inserts (xs ++ ys) = inserts xs ++ inserts ys := by
  induction xs with
  | nil => rfl
  | cons x xs ih => cases x <;> simp [ih]

/-- Every partition with an event value has its entry in the queue, before the value. -/
def Indexed (qu : List (QueryItem D)) : Prop :=
  ∀ pre item post, qu = pre ++ .insert item :: post →
    ∃ m, .msp m ∈ pre ∧ m.series = item.series ∧ m.tsMsp = item.tsMsp

theorem Indexed.nil : Indexed ([] : List (QueryItem D)) := by
  intro pre item post heq
  simp at heq

/-- Any entry of a partition can be pushed. -/
theorem Indexed.push_msp {qu : List (QueryItem D)} (hix : Indexed qu) (m : MspItem) :
    Indexed (qu ++ [.msp m]) := by
  intro pre item post heq
  rcases List.eq_nil_or_concat post with rfl | ⟨post, last, rfl⟩
  · have hlast := (List.append_inj' heq rfl).2
    simp at hlast
  · rw [List.concat_eq_append, ← List.cons_append, ← List.append_assoc] at heq
    exact hix pre item post (List.append_inj' heq rfl).1

/-- A value can be pushed once its partition has an entry. -/
theorem Indexed.push_insert {qu : List (QueryItem D)} (hix : Indexed qu) {item : InsertItem D}
    (hentry : ∃ m, .msp m ∈ qu ∧ m.series = item.series ∧ m.tsMsp = item.tsMsp) :
    Indexed (qu ++ [.insert item]) := by
  intro pre other post heq
  rcases List.eq_nil_or_concat post with rfl | ⟨post, last, rfl⟩
  · rcases List.append_inj' heq rfl with ⟨rfl, hlast⟩
    obtain rfl : item = other := by simpa using hlast
    exact hentry
  · rw [List.concat_eq_append, ← List.cons_append, ← List.append_assoc] at heq
    exact hix pre other post (List.append_inj' heq rfl).1

end Inserts

/-! ## Queues -/

/-- {lit}`InsertDeques`, as far as the writers push to it -/
structure InsertDeques (Q : Type) where
  stRf1Qu : List Q
  stRf3Qu : List Q
  mtRf3Qu : List Q
  ltRf3Qu : List Q

/-- {lit}`InsertDeques::new` -/
def InsertDeques.new {Q : Type} : InsertDeques Q where
  stRf1Qu := []
  stRf3Qu := []
  mtRf3Qu := []
  ltRf3Qu := []

/-- {lit}`InsertDeques::deque` -/
def InsertDeques.deque {Q : Type} (iqdqs : InsertDeques Q) : RetentionTime → List Q
  | .short => iqdqs.stRf3Qu
  | .medium => iqdqs.mtRf3Qu
  | .long => iqdqs.ltRf3Qu

end Serieswriter
end Daqbuf
