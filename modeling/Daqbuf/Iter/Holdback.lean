import Mathlib
/-!
# Rows that are Held Back

A stream of batches, with marks and other items between them.  It is handed on with the rows held back until there are
enough of them, or the stream ends; marks and other items are handed on at once.  Of a batch that breaks off the rows
are held, and another item is handed on in its place.  A stream that fails is ended by another item.

Main results:

- Theorem {lit}`rowsOf_holdBack`: the rows that come out, with those that are lost, are those that went in.
- Theorem {lit}`delivers_iff`: all rows come out, with the mark behind them, exactly if nothing is held when the mark
  comes or the stream fails, and nothing follows the mark.
-/

namespace Iter

/-- An item of a stream of rows -/
inductive Item (α : Type*) where
  | rows (rs : List α)
  | broken (rs : List α)
  | mark
  | other
  deriving DecidableEq

variable {α : Type*} {thr : ℕ} {held : List α} {failed : Bool} {xs : List (Item α)}

/-- All rows of a stream, in order -/
def rowsOf : List (Item α) → List α
  | [] => []
  | .rows rs :: xs => rs ++ rowsOf xs
  | .broken rs :: xs => rs ++ rowsOf xs
  | .mark :: xs => rowsOf xs
  | .other :: xs => rowsOf xs

/-- How a stream is handed on, of which some rows are held already -/
def holdBack (thr : ℕ) (failed : Bool) : List α → List (Item α) → List (Item α)
  | held, [] => [if failed then .other else .rows held]
  | held, .rows rs :: xs =>
      if thr ≤ (held ++ rs).length then .rows (held ++ rs) :: holdBack thr failed [] xs
      else holdBack thr failed (held ++ rs) xs
  | held, .broken rs :: xs => .other :: holdBack thr failed (held ++ rs) xs
  | held, .mark :: xs => .mark :: holdBack thr failed held xs
  | held, .other :: xs => .other :: holdBack thr failed held xs

/-- The rows that are held when the stream fails -/
def lost (thr : ℕ) (failed : Bool) : List α → List (Item α) → List α
  | held, [] => if failed then held else []
  | held, .rows rs :: xs => lost thr failed (if thr ≤ (held ++ rs).length then [] else held ++ rs) xs
  | held, .broken rs :: xs => lost thr failed (held ++ rs) xs
  | held, .mark :: xs => lost thr failed held xs
  | held, .other :: xs => lost thr failed held xs

/-- The rows that come out, with those that are lost, are those that went in. -/
theorem rowsOf_holdBack (thr : ℕ) (failed : Bool) (held : List α) (xs : List (Item α)) :
    rowsOf (holdBack thr failed held xs) ++ lost thr failed held xs = held ++ rowsOf xs := by
  induction xs generalizing held with
  | nil => cases failed <;> simp [holdBack, lost, rowsOf]
  | cons x xs ih =>
      cases x with
      | rows rs =>
          rw [holdBack, lost]
          split
          · rw [rowsOf, List.append_assoc, ih, rowsOf]
            simp only [List.nil_append, List.append_assoc]
          · rw [ih, rowsOf, List.append_assoc]
      | broken rs => simp only [holdBack, lost, rowsOf, ih, List.append_assoc]
      | mark => exact ih held
      | other => exact ih held

/-- A mark comes out where one goes in. -/
theorem mark_mem_holdBack : Item.mark ∈ holdBack thr failed held xs ↔ Item.mark ∈ xs := by
  induction xs generalizing held with
  | nil => cases failed <;> simp [holdBack]
  | cons x xs ih =>
      cases x with
      | rows rs =>
          rw [holdBack]
          split
          · simp [ih]
          · simp [ih]
      | broken rs => simp [holdBack, ih]
      | mark => simp [holdBack]
      | other => simp [holdBack, ih]

/-! ## Delivery -/

/-- There is one mark, and no row behind it. -/
def MarkedOnce (xs : List (Item α)) : Prop :=
  ∃ pre post, xs = pre ++ .mark :: post ∧ .mark ∉ pre ∧ .mark ∉ post ∧ rowsOf post = []

/-- All rows come out, and if there is a mark, it comes out once and behind them. -/
structure Delivers (thr : ℕ) (failed : Bool) (held : List α) (xs : List (Item α)) : Prop where
  rows : rowsOf (holdBack thr failed held xs) = held ++ rowsOf xs
  mark : .mark ∈ xs → MarkedOnce (holdBack thr failed held xs)

/-- Nothing is held when the mark comes or the stream fails, and neither rows nor another mark follow the mark, given
how many rows are held at the start. -/
def Clean (thr : ℕ) (failed : Bool) : ℕ → List (Item α) → Prop
  | n, [] => failed = true → n = 0
  | n, .rows rs :: xs => Clean thr failed (if thr ≤ n + rs.length then 0 else n + rs.length) xs
  | n, .broken rs :: xs => Clean thr failed (n + rs.length) xs
  | n, .mark :: xs => n = 0 ∧ rowsOf xs = [] ∧ .mark ∉ xs
  | n, .other :: xs => Clean thr failed n xs

theorem markedOnce_mark : MarkedOnce (.mark :: xs) ↔ .mark ∉ xs ∧ rowsOf xs = [] := by
  constructor
  · rintro ⟨pre, post, heq, hpre, hpost, hrows⟩
    cases pre with
    | nil =>
        obtain rfl := List.cons.inj heq |>.2
        exact ⟨hpost, hrows⟩
    | cons y pre =>
        obtain rfl := List.cons.inj heq |>.1
        exact absurd List.mem_cons_self hpre
  · rintro ⟨hmark, hrows⟩
    exact ⟨[], xs, rfl, List.not_mem_nil, hmark, hrows⟩

theorem markedOnce_cons {x : Item α} (hx : x ≠ .mark) : MarkedOnce (x :: xs) ↔ MarkedOnce xs := by
  constructor
  · rintro ⟨pre, post, heq, hpre, hpost, hrows⟩
    cases pre with
    | nil => exact absurd (List.cons.inj heq).1 hx
    | cons y pre =>
        exact ⟨pre, post, (List.cons.inj heq).2, fun h => hpre (List.mem_cons_of_mem y h), hpost, hrows⟩
  · rintro ⟨pre, post, rfl, hpre, hpost, hrows⟩
    refine ⟨x :: pre, post, rfl, ?_, hpost, hrows⟩
    rw [List.mem_cons, not_or]
    exact ⟨hx.symm, hpre⟩

theorem markedOnce_other : MarkedOnce (.other :: xs) ↔ MarkedOnce xs := markedOnce_cons nofun

theorem markedOnce_rows {rs : List α} : MarkedOnce (.rows rs :: xs) ↔ MarkedOnce xs := markedOnce_cons nofun

/-- At a mark nothing may be held or follow. -/
theorem delivers_mark :
    Delivers thr failed held (.mark :: xs) ↔ held = [] ∧ rowsOf xs = [] ∧ .mark ∉ xs := by
  constructor
  · rintro ⟨hrows, hmark⟩
    obtain ⟨hnone, hnil⟩ := markedOnce_mark.mp (hmark List.mem_cons_self)
    rw [holdBack, rowsOf, hnil, rowsOf] at hrows
    obtain ⟨hheld, hxs⟩ := List.append_eq_nil_iff.mp hrows.symm
    exact ⟨hheld, hxs, fun h => hnone (mark_mem_holdBack.mpr h)⟩
  · rintro ⟨rfl, hxs, hnone⟩
    have hall := rowsOf_holdBack thr failed [] xs
    rw [hxs] at hall
    have hnil := (List.append_eq_nil_iff.mp hall).1
    constructor
    · rw [holdBack, rowsOf, hnil, rowsOf, hxs]
      rfl
    · intro _
      exact markedOnce_mark.mpr ⟨fun h => hnone (mark_mem_holdBack.mp h), hnil⟩

theorem delivers_other : Delivers thr failed held (.other :: xs) ↔ Delivers thr failed held xs := by
  have hmark : Item.mark ∈ Item.other :: xs ↔ Item.mark ∈ xs := by simp
  constructor
  · intro ⟨hrows, honce⟩
    exact ⟨hrows, fun h => markedOnce_other.mp (honce (hmark.mpr h))⟩
  · intro ⟨hrows, honce⟩
    exact ⟨hrows, fun h => markedOnce_other.mpr (honce (hmark.mp h))⟩

/-- The rows of a batch that breaks off are held. -/
theorem delivers_broken {rs : List α} :
    Delivers thr failed held (.broken rs :: xs) ↔ Delivers thr failed (held ++ rs) xs := by
  have hmark : Item.mark ∈ Item.broken rs :: xs ↔ Item.mark ∈ xs := by simp
  have hassoc : held ++ rowsOf (.broken rs :: xs) = held ++ rs ++ rowsOf xs := by
    rw [rowsOf, List.append_assoc]
  constructor
  · intro ⟨hrows, honce⟩
    rw [hassoc] at hrows
    exact ⟨hrows, fun h => markedOnce_other.mp (honce (hmark.mpr h))⟩
  · intro ⟨hrows, honce⟩
    rw [← hassoc] at hrows
    exact ⟨hrows, fun h => markedOnce_other.mpr (honce (hmark.mp h))⟩

/-- Behind a batch, either everything was handed on or the batch is held, too. -/
theorem delivers_rows {rs : List α} :
    Delivers thr failed held (.rows rs :: xs) ↔
      Delivers thr failed (if thr ≤ (held ++ rs).length then [] else held ++ rs) xs := by
  have hmark : Item.mark ∈ Item.rows rs :: xs ↔ Item.mark ∈ xs := by simp
  have hassoc : held ++ rowsOf (.rows rs :: xs) = held ++ rs ++ rowsOf xs := by
    rw [rowsOf, List.append_assoc]
  split
  · rename_i hle
    have hback : holdBack thr failed held (.rows rs :: xs) =
        .rows (held ++ rs) :: holdBack thr failed [] xs := by
      rw [holdBack, if_pos hle]
    constructor
    · intro ⟨hrows, honce⟩
      rw [hback] at hrows honce
      rw [rowsOf, hassoc] at hrows
      exact ⟨List.append_cancel_left hrows, fun h => markedOnce_rows.mp (honce (hmark.mpr h))⟩
    · intro ⟨hrows, honce⟩
      constructor
      · rw [hback, rowsOf, hrows, hassoc]
        rfl
      · intro h
        rw [hback]
        exact markedOnce_rows.mpr (honce (hmark.mp h))
  · rename_i hlt
    have hback : holdBack thr failed held (.rows rs :: xs) = holdBack thr failed (held ++ rs) xs := by
      rw [holdBack, if_neg hlt]
    constructor
    · intro ⟨hrows, honce⟩
      rw [hback] at hrows honce
      rw [hassoc] at hrows
      exact ⟨hrows, fun h => honce (hmark.mpr h)⟩
    · intro ⟨hrows, honce⟩
      constructor
      · rw [hback, hrows, hassoc]
      · intro h
        rw [hback]
        exact honce (hmark.mp h)

/-- At the end of the stream nothing may be held if it failed. -/
theorem delivers_nil : Delivers thr failed held [] ↔ (failed = true → held = []) := by
  constructor
  · rintro ⟨hrows, -⟩ rfl
    simpa [holdBack, rowsOf] using hrows.symm
  · intro h
    constructor
    · cases failed with
      | false => simp [holdBack, rowsOf]
      | true => simp [holdBack, rowsOf, h rfl]
    · exact nofun

/-- All rows come out, and the mark behind them, exactly if the stream is clean. -/
theorem delivers_iff : Delivers thr failed held xs ↔ Clean thr failed held.length xs := by
  induction xs generalizing held with
  | nil => rw [delivers_nil, Clean, List.length_eq_zero_iff]
  | cons x xs ih =>
      cases x with
      | rows rs =>
          rw [delivers_rows, ih, Clean, List.length_append]
          split <;> simp
      | broken rs => rw [delivers_broken, ih, Clean, List.length_append]
      | mark => rw [delivers_mark, Clean, List.length_eq_zero_iff]
      | other => rw [delivers_other, ih, Clean]

end Iter
