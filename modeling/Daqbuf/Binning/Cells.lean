import Mathlib
/-!
# Cells of a Grid

A machine that walks over the cells of a grid.  It is given pieces in order, each of which lies in one cell
and has a count.  It adds up the counts of the active cell, and puts the cell out when it moves on: always,
once it has seen a piece, if cells without a count are wanted, and else if the cell has a count.  The counts
are numbers modulo a fixed size.

Main results:

- Theorem {lit}`Cells.increasing_out`: the cells that are put out increase.
- Theorem {lit}`Cells.mem_out_iff`: without the empty cells, those are put out that have a count.
- Theorem {lit}`Cells.contiguous_iff`: with the empty cells, there is no gap exactly when no piece skips a cell
  that the one before does not reach.
- Theorem {lit}`Cells.below_iff`: with the empty cells, all are below a bound exactly when all pieces end below it.
-/

namespace Daqbuf
namespace Binning

/-- A piece: the cell that it lies in, the cell that its end falls in, and its count. -/
structure Piece where
  cell : ℕ
  next : ℕ
  cnt : ℕ
  deriving DecidableEq, Repr

/-- A piece lies in its cell, and possibly reaches up to the next one. -/
structure Piece.Valid (p : Piece) : Prop where
  cell_le : p.cell ≤ p.next
  next_le : p.next ≤ p.cell + 1

/-- The state of the machine -/
structure Cells where
  active : ℕ
  opened : Bool
  cnt : ℕ
  out : List ℕ
  deriving DecidableEq, Repr

namespace Cells

variable {size : ℕ} {empties : Bool} {s : Cells} {p : Piece} {ps : List Piece}

/-- The machine at its start -/
def init (active : ℕ) : Cells := ⟨active, false, 0, []⟩

/-- The active cell has to be put out. -/
def Emits (empties : Bool) (s : Cells) : Prop := s.cnt ≠ 0 ∨ (empties ∧ s.opened)

instance : Decidable (s.Emits empties) := inferInstanceAs (Decidable (_ ∨ _))

/-- Puts the active cell out and goes on to the given one. -/
def leave (empties : Bool) (k : ℕ) (s : Cells) : Cells where
  active := k
  opened := s.opened
  cnt := 0
  out := if s.Emits empties then s.out ++ [s.active] else s.out

/-- Goes on to the given cell, if it is not the active one. -/
def moveTo (empties : Bool) (k : ℕ) (s : Cells) : Cells := if s.active < k then s.leave empties k else s

/-- Takes a count into the active cell. -/
def take (size cnt : ℕ) (s : Cells) : Cells := { s with cnt := (s.cnt + cnt) % size, opened := true }

/-- Takes a piece. -/
def ingest (size : ℕ) (empties : Bool) (s : Cells) (p : Piece) : Cells :=
  if p.cell < s.active then s else ((s.moveTo empties p.cell).take size p.cnt).moveTo empties p.next

/-- The cells put out, and the one that is active. -/
def visited (s : Cells) : List ℕ := s.out ++ [s.active]

/-- The pieces come one after the other. -/
def Ordered (ps : List Piece) : Prop := ps.Pairwise fun p q => p.next ≤ q.cell

theorem active_moveTo {k : ℕ} (hk : s.active ≤ k) : (s.moveTo empties k).active = k := by
  unfold moveTo
  split
  · rfl
  · omega

@[simp]
theorem opened_moveTo {k : ℕ} : (s.moveTo empties k).opened = s.opened := by
  unfold moveTo
  split <;> rfl

@[simp]
theorem active_take {cnt : ℕ} : (s.take size cnt).active = s.active := rfl

@[simp]
theorem opened_take {cnt : ℕ} : (s.take size cnt).opened = true := rfl

@[simp]
theorem visited_take {cnt : ℕ} : (s.take size cnt).visited = s.visited := rfl

/-- A piece at the active cell or behind it leaves the machine in the cell that its end falls in. -/
theorem active_ingest (hp : p.Valid) (hle : s.active ≤ p.cell) : (s.ingest size empties p).active = p.next := by
  rw [ingest, if_neg (by omega)]
  apply active_moveTo
  rw [active_take, active_moveTo hle]
  exact hp.cell_le

theorem opened_ingest (hle : s.active ≤ p.cell) : (s.ingest size empties p).opened = true := by
  rw [ingest, if_neg (by omega)]
  simp

theorem ordered_cons : Ordered (p :: ps) ↔ (∀ q ∈ ps, p.next ≤ q.cell) ∧ Ordered ps := List.pairwise_cons

/-! ## The cells increase -/

theorem pairwise_visited_moveTo {k : ℕ} (hs : s.visited.Pairwise (· < ·)) :
    (s.moveTo empties k).visited.Pairwise (· < ·) := by
  unfold moveTo
  split
  · rename_i hlt
    obtain ⟨hout, -, hactive⟩ := List.pairwise_append.mp hs
    have hbelow : ∀ a ∈ s.out, a < s.active := fun a ha => hactive a ha s.active (List.mem_singleton_self _)
    apply List.pairwise_append.mpr
    refine ⟨?_, List.pairwise_singleton _ _, ?_⟩
    · unfold leave
      dsimp only
      split
      · exact hs
      · exact hout
    · intro a ha b hb
      rw [List.mem_singleton.mp hb]
      unfold leave at ha
      dsimp only at ha
      split at ha
      · rcases List.mem_append.mp ha with ha | ha
        · exact (hbelow a ha).trans hlt
        · rw [List.mem_singleton.mp ha]
          exact hlt
      · exact (hbelow a ha).trans hlt
  · exact hs

/-- A piece keeps the visited cells increasing. -/
theorem pairwise_visited_ingest (hs : s.visited.Pairwise (· < ·)) :
    (s.ingest size empties p).visited.Pairwise (· < ·) := by
  unfold ingest
  split
  · exact hs
  · apply pairwise_visited_moveTo
    rw [visited_take]
    exact pairwise_visited_moveTo hs

/-- The visited cells increase. -/
theorem pairwise_visited_foldl (hs : s.visited.Pairwise (· < ·)) :
    (ps.foldl (ingest size empties) s).visited.Pairwise (· < ·) := by
  induction ps generalizing s with
  | nil => exact hs
  | cons p ps ih => exact ih (pairwise_visited_ingest hs)

/-- The cells that are put out in the end increase. -/
theorem increasing_out (a k : ℕ) :
    ((ps.foldl (ingest size empties) (init a)).leave empties k).out.Pairwise (· < ·) := by
  have hs : (ps.foldl (ingest size empties) (init a)).visited.Pairwise (· < ·) :=
    pairwise_visited_foldl (List.pairwise_singleton _ _)
  unfold leave
  dsimp only
  split
  · exact hs
  · exact (List.pairwise_append.mp hs).1

/-- The machine never goes back. -/
theorem active_le_active_moveTo {k : ℕ} : s.active ≤ (s.moveTo empties k).active := by
  unfold moveTo
  split
  · rename_i hlt
    exact hlt.le
  · exact le_rfl

theorem active_le_active_ingest : s.active ≤ (s.ingest size empties p).active := by
  unfold ingest
  split
  · exact le_rfl
  · exact active_le_active_moveTo.trans (active_le_active_moveTo (s := (s.moveTo empties p.cell).take size p.cnt))

theorem le_visited_moveTo {a k : ℕ} (hs : ∀ j ∈ s.visited, a ≤ j) :
    ∀ j ∈ (s.moveTo empties k).visited, a ≤ j := by
  have hactive : a ≤ s.active := hs s.active (List.mem_append_right _ (List.mem_singleton_self _))
  unfold moveTo
  split
  · intro j hj
    rcases List.mem_append.mp hj with hj | hj
    · apply hs j
      unfold leave at hj
      dsimp only at hj
      split at hj
      · exact hj
      · exact List.mem_append_left _ hj
    · have hjk : j = k := List.mem_singleton.mp hj
      omega
  · exact hs

theorem le_visited_foldl {a : ℕ} (hs : ∀ j ∈ s.visited, a ≤ j) :
    ∀ j ∈ (ps.foldl (ingest size empties) s).visited, a ≤ j := by
  induction ps generalizing s with
  | nil => exact hs
  | cons p ps ih =>
      apply ih
      unfold ingest
      split
      · exact hs
      · apply le_visited_moveTo
        rw [visited_take]
        exact le_visited_moveTo hs

/-- What is put out in the end is at the first cell or behind it. -/
theorem le_of_mem_out {a k j : ℕ}
    (hj : j ∈ ((ps.foldl (ingest size empties) (init a)).leave empties k).out) : a ≤ j := by
  have hvisited : ∀ j ∈ (ps.foldl (ingest size empties) (init a)).visited, a ≤ j :=
    le_visited_foldl (by simp [visited, init])
  apply hvisited j
  unfold leave at hj
  dsimp only at hj
  split at hj
  · exact hj
  · exact List.mem_append_left _ hj

/-- The pieces in front of the first cell make no difference. -/
theorem foldl_filter {a : ℕ} (ha : a ≤ s.active) :
    ps.foldl (ingest size empties) s =
      (ps.filter fun p => a ≤ p.cell).foldl (ingest size empties) s := by
  induction ps generalizing s with
  | nil => rfl
  | cons p ps ih =>
      by_cases hp : a ≤ p.cell
      · rw [List.filter_cons_of_pos (by simpa using hp)]
        exact ih (ha.trans active_le_active_ingest)
      · rw [List.filter_cons_of_neg (by simpa using hp)]
        have hskip : s.ingest size empties p = s := if_pos (by omega)
        rw [List.foldl_cons, hskip]
        exact ih ha

/-! ## With the empty cells -/

/-- The cells follow one another without a gap. -/
def Contiguous (ks : List ℕ) : Prop := ks.IsChain fun j k => k = j + 1

/-- No piece skips a cell that the piece before does not reach. -/
def Gapless (ps : List Piece) : Prop := ps.IsChain fun p q => q.cell ≤ p.next + 1

/-- Once a piece was seen, the active cell is put out whenever it is left. -/
theorem visited_moveTo {k : ℕ} (hs : s.opened = true) :
    (s.moveTo true k).visited = if s.active < k then s.visited ++ [k] else s.visited := by
  have hemits : s.Emits true := .inr ⟨rfl, hs⟩
  unfold moveTo
  split
  · simp only [visited, leave, if_pos hemits]
  · rfl

theorem contiguous_visited_moveTo {k : ℕ} (hs : s.opened = true) (hk : s.active ≤ k) :
    Contiguous (s.moveTo true k).visited ↔ Contiguous s.visited ∧ k ≤ s.active + 1 := by
  rw [visited_moveTo hs]
  split
  · rename_i hlt
    have hlast : s.visited.getLast? = some s.active := List.getLast?_concat
    rw [Contiguous, Contiguous, List.isChain_append]
    simp only [hlast, List.isChain_singleton, List.head?_cons, Option.mem_some_iff, forall_eq', true_and]
    apply and_congr_right
    intro
    omega
  · exact (and_iff_left (by omega)).symm

theorem below_visited_moveTo {k n : ℕ} (hs : s.opened = true) (hk : s.active ≤ k) :
    (∀ j ∈ (s.moveTo true k).visited, j < n) ↔ (∀ j ∈ s.visited, j < n) ∧ k < n := by
  rw [visited_moveTo hs]
  split
  · rw [List.forall_mem_append, List.forall_mem_singleton]
  · have hactive : s.active ∈ s.visited := List.mem_append_right _ (List.mem_singleton_self _)
    have heq : k = s.active := by omega
    subst heq
    exact (and_iff_left_of_imp fun h => h _ hactive).symm

theorem contiguous_visited_ingest (hp : p.Valid) (hs : s.opened = true) (hle : s.active ≤ p.cell) :
    Contiguous (s.ingest size true p).visited ↔ Contiguous s.visited ∧ p.cell ≤ s.active + 1 := by
  have hmove : ((s.moveTo true p.cell).take size p.cnt).active = p.cell := active_moveTo hle
  rw [ingest, if_neg (by omega), contiguous_visited_moveTo opened_take (by rw [hmove]; exact hp.cell_le), hmove,
    visited_take, contiguous_visited_moveTo hs hle]
  exact and_iff_left hp.next_le

theorem below_visited_ingest {n : ℕ} (hp : p.Valid) (hs : s.opened = true) (hle : s.active ≤ p.cell) :
    (∀ j ∈ (s.ingest size true p).visited, j < n) ↔ (∀ j ∈ s.visited, j < n) ∧ p.next < n := by
  have hmove : ((s.moveTo true p.cell).take size p.cnt).active = p.cell := active_moveTo hle
  have hnext := hp.cell_le
  rw [ingest, if_neg (by omega), below_visited_moveTo opened_take (by rw [hmove]; exact hnext), visited_take,
    below_visited_moveTo hs hle, and_assoc]
  apply and_congr_right
  intro
  omega

/-- The machine goes through the pieces without a gap exactly when they leave none. -/
theorem contiguous_visited_foldl (hps : ∀ q ∈ ps, q.Valid) (hord : Ordered (p :: ps)) (hs : s.opened = true)
    (hactive : s.active = p.next) :
    Contiguous (ps.foldl (ingest size true) s).visited ↔ Contiguous s.visited ∧ Gapless (p :: ps) := by
  induction ps generalizing s p with
  | nil => exact (and_iff_left (List.isChain_singleton _)).symm
  | cons q ps ih =>
      obtain ⟨hnext, hord'⟩ := ordered_cons.mp hord
      have hq := hps q List.mem_cons_self
      have hle : s.active ≤ q.cell := hactive.trans_le (hnext q List.mem_cons_self)
      have hrest := ih (s := s.ingest size true q) (fun x hx => hps x (List.mem_cons_of_mem _ hx)) hord'
        (opened_ingest hle) (active_ingest hq hle)
      rw [List.foldl_cons, hrest, contiguous_visited_ingest hq hs hle, hactive, and_assoc]
      rw [Gapless, Gapless, List.isChain_cons_cons]

/-- The machine stays below a bound exactly when the pieces end below it. -/
theorem below_visited_foldl {n : ℕ} (hps : ∀ q ∈ ps, q.Valid) (hord : Ordered (p :: ps)) (hs : s.opened = true)
    (hactive : s.active = p.next) :
    (∀ j ∈ (ps.foldl (ingest size true) s).visited, j < n) ↔
      (∀ j ∈ s.visited, j < n) ∧ ∀ q ∈ ps, q.next < n := by
  induction ps generalizing s p with
  | nil => simp
  | cons q ps ih =>
      obtain ⟨hnext, hord'⟩ := ordered_cons.mp hord
      have hq := hps q List.mem_cons_self
      have hle : s.active ≤ q.cell := hactive.trans_le (hnext q List.mem_cons_self)
      have hrest := ih (s := s.ingest size true q) (fun x hx => hps x (List.mem_cons_of_mem _ hx)) hord'
        (opened_ingest hle) (active_ingest hq hle)
      rw [List.foldl_cons, hrest, below_visited_ingest hq hs hle, and_assoc, List.forall_mem_cons]

/-- The first piece opens the machine, and leaves no gap. -/
theorem visited_ingest_init {a : ℕ} (hle : a ≤ p.cell) :
    ((init a).ingest size true p).visited = if p.cell < p.next then [p.cell, p.next] else [p.cell] := by
  have hmove : (init a).moveTo true p.cell = init p.cell := by
    unfold moveTo
    split
    · rfl
    · have heq : a = p.cell := by
        simp only [init, not_lt] at *
        omega
      rw [heq]
  rw [ingest, if_neg (by simpa [init] using hle), hmove, visited_moveTo opened_take]
  rfl

theorem opened_foldl (hs : s.opened = true) : (ps.foldl (ingest size empties) s).opened = true := by
  induction ps generalizing s with
  | nil => exact hs
  | cons p ps ih =>
      apply ih
      unfold ingest
      split
      · exact hs
      · simp

/-- Once a piece was seen, the active cell is put out in the end. -/
theorem out_leave_foldl {a k : ℕ} (hle : a ≤ p.cell) :
    (((p :: ps).foldl (ingest size true) (init a)).leave true k).out =
      ((p :: ps).foldl (ingest size true) (init a)).visited := by
  have hfirst : ((init a).ingest size true p).opened = true := opened_ingest hle
  rw [List.foldl_cons]
  exact if_pos (.inr ⟨rfl, opened_foldl hfirst⟩)

/-- With the empty cells, there is no gap in what is put out exactly when no piece skips a cell. -/
theorem contiguous_iff {a k : ℕ} (hps : ∀ p ∈ ps, p.Valid) (hord : Ordered ps) (hle : ∀ p ∈ ps, a ≤ p.cell) :
    Contiguous ((ps.foldl (ingest size true) (init a)).leave true k).out ↔ Gapless ps := by
  cases ps with
  | nil => exact iff_of_true List.isChain_nil List.isChain_nil
  | cons p ps =>
      have hp := hps p List.mem_cons_self
      have hpa := hle p List.mem_cons_self
      have hfold : Contiguous (ps.foldl (ingest size true) ((init a).ingest size true p)).visited ↔
          Contiguous ((init a).ingest size true p).visited ∧ Gapless (p :: ps) :=
        contiguous_visited_foldl (fun q hq => hps q (List.mem_cons_of_mem _ hq)) hord (opened_ingest hpa)
          (active_ingest hp hpa)
      have hfirst : Contiguous ((init a).ingest size true p).visited := by
        rw [visited_ingest_init hpa]
        split
        · have hnext := hp.next_le
          exact List.isChain_pair.mpr (by omega)
        · exact List.isChain_singleton _
      rw [out_leave_foldl hpa, List.foldl_cons, hfold]
      exact and_iff_right hfirst

/-- With the empty cells, what is put out is below a bound exactly when all pieces end below it. -/
theorem below_iff {a k n : ℕ} (hps : ∀ p ∈ ps, p.Valid) (hord : Ordered ps) (hle : ∀ p ∈ ps, a ≤ p.cell) :
    (∀ j ∈ ((ps.foldl (ingest size true) (init a)).leave true k).out, j < n) ↔ ∀ p ∈ ps, p.next < n := by
  cases ps with
  | nil => exact iff_of_true nofun nofun
  | cons p ps =>
      have hp := hps p List.mem_cons_self
      have hpa := hle p List.mem_cons_self
      have hfold : (∀ j ∈ (ps.foldl (ingest size true) ((init a).ingest size true p)).visited, j < n) ↔
          (∀ j ∈ ((init a).ingest size true p).visited, j < n) ∧ ∀ q ∈ ps, q.next < n :=
        below_visited_foldl (fun q hq => hps q (List.mem_cons_of_mem _ hq)) hord (opened_ingest hpa)
          (active_ingest hp hpa)
      have hfirst : (∀ j ∈ ((init a).ingest size true p).visited, j < n) ↔ p.next < n := by
        have hcell := hp.cell_le
        rw [visited_ingest_init hpa]
        split
        · rw [List.forall_mem_cons, List.forall_mem_singleton]
          omega
        · rw [List.forall_mem_singleton]
          omega
      rw [out_leave_foldl hpa, List.foldl_cons, hfold, hfirst, List.forall_mem_cons]

/-! ## Without the empty cells -/

/-- The count of a cell -/
def count (size : ℕ) (ps : List Piece) (k : ℕ) : ℕ := ((ps.filter fun p => p.cell = k).map Piece.cnt).sum % size

/-- A cell is put out, or will be once some more is counted in it. -/
def Counts (size : ℕ) (s : Cells) (w k : ℕ) : Prop :=
  k ∈ s.out ∨ ((if k = s.active then s.cnt else 0) + w) % size ≠ 0

theorem count_cons (k : ℕ) :
    count size (p :: ps) k = ((if p.cell = k then p.cnt else 0) + count size ps k) % size := by
  unfold count
  by_cases hk : p.cell = k
  · rw [List.filter_cons_of_pos (by simpa using hk), if_pos hk]
    simp
  · rw [List.filter_cons_of_neg (by simpa using hk), if_neg hk]
    simp

/-- A cell in front of all pieces has no count. -/
theorem count_eq_zero {k : ℕ} (hlt : ∀ p ∈ ps, k < p.cell) : count size ps k = 0 := by
  have hnil : ps.filter (fun p => p.cell = k) = [] := by
    apply List.filter_eq_nil_iff.mpr
    intro p hp
    have hk := hlt p hp
    simp
    omega
  rw [count, hnil]
  exact Nat.zero_mod _

theorem counts_moveTo {w k c : ℕ} (hcnt : s.cnt < size) (hw : k < c → w = 0) :
    Counts size (s.moveTo false c) w k ↔ Counts size s w k := by
  unfold moveTo
  split
  · rename_i hlt
    have hmod : s.cnt % size = s.cnt := Nat.mod_eq_of_lt hcnt
    by_cases hk : k = s.active
    · subst hk
      rw [hw hlt]
      by_cases hzero : s.cnt = 0
      · simp [Counts, leave, Emits, hzero, hlt.ne]
      · simp [Counts, leave, Emits, hzero, hlt.ne, hmod]
    · by_cases hzero : s.cnt = 0
      · simp [Counts, leave, Emits, hzero, hk]
      · simp [Counts, leave, Emits, hzero, hk]
  · rfl

theorem counts_take {w k cnt : ℕ} :
    Counts size (s.take size cnt) w k ↔ Counts size s ((if k = s.active then cnt else 0) + w) k := by
  unfold Counts take
  dsimp only
  split
  · rw [Nat.mod_add_mod, Nat.add_assoc]
  · rw [Nat.zero_add, Nat.zero_add]

theorem counts_mod {w k : ℕ} : Counts size s (w % size) k ↔ Counts size s w k := by
  rw [Counts, Nat.add_mod_mod]
  rfl

theorem cnt_lt_moveTo {k : ℕ} (hcnt : s.cnt < size) : (s.moveTo empties k).cnt < size := by
  unfold moveTo
  split
  · exact (Nat.zero_le _).trans_lt hcnt
  · exact hcnt

theorem cnt_lt_take {cnt : ℕ} (hcnt : s.cnt < size) : (s.take size cnt).cnt < size :=
  Nat.mod_lt _ ((Nat.zero_le _).trans_lt hcnt)

theorem cnt_lt_ingest (hcnt : s.cnt < size) : (s.ingest size empties p).cnt < size := by
  unfold ingest
  split
  · exact hcnt
  · exact cnt_lt_moveTo (cnt_lt_take (cnt_lt_moveTo hcnt))

/-- A piece is counted in its cell. -/
theorem counts_ingest {k : ℕ} (hp : p.Valid) (hnext : ∀ q ∈ ps, p.next ≤ q.cell) (hle : s.active ≤ p.cell)
    (hcnt : s.cnt < size) :
    Counts size (s.ingest size false p) (count size ps k) k ↔ Counts size s (count size (p :: ps) k) k := by
  have hcell := hp.cell_le
  have hlater : k < p.next → count size ps k = 0 := by
    intro hk
    apply count_eq_zero
    intro q hq
    exact hk.trans_le (hnext q hq)
  rw [ingest, if_neg (by omega), counts_moveTo (cnt_lt_take (cnt_lt_moveTo hcnt)) hlater, counts_take,
    active_moveTo hle, count_cons, counts_mod, counts_moveTo hcnt]
  · simp only [eq_comm]
  · intro hk
    rw [hlater (hk.trans_le hcell), if_neg hk.ne]

/-- Without the empty cells, those are put out that have a count. -/
theorem mem_out_foldl {j k : ℕ} (hps : ∀ p ∈ ps, p.Valid) (hord : Ordered ps) (hle : ∀ p ∈ ps, s.active ≤ p.cell)
    (hcnt : s.cnt < size) :
    j ∈ ((ps.foldl (ingest size false) s).leave false k).out ↔ Counts size s (count size ps j) j := by
  induction ps generalizing s with
  | nil =>
      have hmod : s.cnt % size = s.cnt := Nat.mod_eq_of_lt hcnt
      by_cases hj : j = s.active
      · by_cases hzero : s.cnt = 0
        · simp [Counts, leave, Emits, count, hzero]
        · simp [Counts, leave, Emits, count, hzero, hj, hmod]
      · by_cases hzero : s.cnt = 0
        · simp [Counts, leave, Emits, count, hzero]
        · simp [Counts, leave, Emits, count, hzero, hj]
  | cons p ps ih =>
      obtain ⟨hnext, hord'⟩ := ordered_cons.mp hord
      have hp := hps p List.mem_cons_self
      have hpa := hle p List.mem_cons_self
      rw [List.foldl_cons, ih (fun q hq => hps q (List.mem_cons_of_mem _ hq)) hord' ?_ (cnt_lt_ingest hcnt),
        counts_ingest hp hnext hpa hcnt]
      intro q hq
      rw [active_ingest hp hpa]
      exact hnext q hq

/-- Without the empty cells, from the start on those are put out that have a count. -/
theorem mem_out_iff {a j k : ℕ} (hsize : 0 < size) (hps : ∀ p ∈ ps, p.Valid) (hord : Ordered ps)
    (hle : ∀ p ∈ ps, a ≤ p.cell) :
    j ∈ ((ps.foldl (ingest size false) (init a)).leave false k).out ↔ count size ps j ≠ 0 := by
  have hzero : (if j = (init a).active then (init a).cnt else 0) = 0 := by
    split
    · rfl
    · rfl
  rw [mem_out_foldl hps hord hle hsize, Counts, hzero, Nat.zero_add, count, Nat.mod_mod]
  exact or_iff_right List.not_mem_nil

end Cells
end Binning
end Daqbuf
