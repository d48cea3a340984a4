import Mathlib
/-!
# Tables with Unique Constraints

A table whose rows differ in their primary keys, and also in a second key.  Rows are inserted unless there is a
conflict, which is then ignored.

Main results:

- Theorem {lit}`Table.insertAll_rows`: a statement adds the rows that it reports.
- Theorem {lit}`Table.insertAll_sublist`: the rows that it reports are among those that it proposes.
-/

namespace Daqbuf
namespace Dbpg

/-- Rows with a primary key and a second unique key -/
structure Table {α ι κ : Type} (pk : α → ι) (key : α → κ) where
  rows : List α
  pk_nodup : (rows.map pk).Nodup
  key_nodup : (rows.map key).Nodup

namespace Table

variable {α ι κ : Type} {pk : α → ι} {key : α → κ} {t : Table pk key} {r : α} {rs : List α}

/-- A row that is no conflict -/
def Free (t : Table pk key) (r : α) : Prop := pk r ∉ t.rows.map pk ∧ key r ∉ t.rows.map key

instance [DecidableEq ι] [DecidableEq κ] : Decidable (t.Free r) := inferInstanceAs (Decidable (_ ∧ _))

/-- The table with one more row -/
def add (t : Table pk key) (r : α) (h : t.Free r) : Table pk key where
  rows := t.rows ++ [r]
  pk_nodup := by
    rw [List.map_append]
    exact List.nodup_append'.mpr ⟨t.pk_nodup, List.nodup_singleton _, List.disjoint_singleton.mpr h.1⟩
  key_nodup := by
    rw [List.map_append]
    exact List.nodup_append'.mpr ⟨t.key_nodup, List.nodup_singleton _, List.disjoint_singleton.mpr h.2⟩

/-- The table after each row was changed in other columns than the keys -/
def update (t : Table pk key) (f : α → α) (hpk : ∀ r, pk (f r) = pk r) (hkey : ∀ r, key (f r) = key r) :
    Table pk key where
  rows := t.rows.map f
  pk_nodup := by
    rw [List.map_map, funext (f := pk ∘ f) hpk]
    exact t.pk_nodup
  key_nodup := by
    rw [List.map_map, funext (f := key ∘ f) hkey]
    exact t.key_nodup

variable [DecidableEq ι] [DecidableEq κ]

/-- Inserts rows, in order, where there is no conflict: the table, and the rows that were inserted -/
def insertAll (t : Table pk key) : List α → Table pk key × List α
  | [] => (t, [])
  | r :: rs =>
      if h : t.Free r then
        let x := (t.add r h).insertAll rs
        (x.1, r :: x.2)
      else t.insertAll rs

theorem insertAll_cons_free (h : t.Free r) :
    t.insertAll (r :: rs) = (((t.add r h).insertAll rs).1, r :: ((t.add r h).insertAll rs).2) := dif_pos h

theorem insertAll_cons_taken (h : ¬ t.Free r) : t.insertAll (r :: rs) = t.insertAll rs := dif_neg h

/-- A statement adds the rows that it reports. -/
theorem insertAll_rows : (t.insertAll rs).1.rows = t.rows ++ (t.insertAll rs).2 := by
  induction rs generalizing t with
  | nil => exact (List.append_nil _).symm
  | cons r rs ih =>
      by_cases h : t.Free r
      · rw [insertAll_cons_free h]
        exact ih.trans (List.append_assoc _ _ _)
      · rw [insertAll_cons_taken h]
        exact ih

theorem insertAll_sublist : (t.insertAll rs).2.Sublist rs := by
  induction rs generalizing t with
  | nil => exact List.Sublist.slnil
  | cons r rs ih =>
      by_cases h : t.Free r
      · rw [insertAll_cons_free h]
        exact ih.cons_cons r
      · rw [insertAll_cons_taken h]
        exact ih.cons r

theorem rows_sublist_insertAll : t.rows.Sublist (t.insertAll rs).1.rows := by
  rw [insertAll_rows]
  exact List.sublist_append_left _ _

end Table

end Dbpg
end Daqbuf
