import Daqbuf.Dbpg.SeriesByChannel
import Daqbuf.Slots.Pool
/-!
# Lookup Workers

Several workers look up the series of channels, each batch in a transaction of its own.  Where a series was used before,
the start of the transaction is appended to the times of its row, and the row stays locked until the transaction ends.
So the times are appended in the order of the locks, which need not be the order of the starts.

A statement sees what is committed, and what its own transaction has inserted.  A statement that inserts a row waits for
a transaction that has inserted a conflicting one.  A transaction can be rolled back at any time, and must be when one
of its statements fails.

Main results:

- Theorem {lit}`decision_eq_latest`: a row with a time that no other row of the channel has reached is the latest.
- Theorem {lit}`of_select_usedBefore`: a series that was used before has the latest of the times of the rows that agree
  with the query.
- Theorem {lit}`historyReadable_run`: the use history stays readable if each transaction that updates a row has begun
  after all times of the channel, and changes no other row of it.
-/

namespace Daqbuf
namespace Dbpg

open Netpod Search
open Slots (Reached Along run run_cons_of_step along_cons_of_step forall_reached_of_along)

instance instDecidableEqKey : DecidableEq (String × String × ℤ × ℤ × List ℤ × ℤ) :=
  @instDecidableEqProd _ _ inferInstance inferInstance

/-! ## Times in order -/

theorem inOrder_iff {xs : List ℕ} : inOrder xs ↔ xs.Pairwise (· < ·) := by
  rw [← List.isChain_iff_pairwise]
  induction xs with
  | nil => exact iff_of_true rfl List.IsChain.nil
  | cons x xs ih =>
      cases xs with
      | nil => exact iff_of_true rfl (List.IsChain.singleton x)
      | cons y zs =>
          rw [List.isChain_cons_cons, ← ih, inOrder]
          by_cases h : y ≤ x
          · rw [if_pos h]
            exact iff_of_false Bool.false_ne_true fun hlt => absurd hlt.1 h.not_gt
          · rw [if_neg h]
            exact (and_iff_right (Nat.lt_of_not_le h)).symm

/-! ## What is decided -/

section Decisions

variable {plan : Plan} {t : SeriesTable} {batch : List ChannelInfoQuery} {q : ChannelInfoQuery} {r : Row}
  {rows : List Row} {f : Found} {sid : UInt64}

theorem select_singleton {status : MatchingSeries} : select plan t [q] = .ok [(q, status)] ↔
    (∀ r ∈ joined t q, r.Readable) ∧ status = decision q (plan.arrange 0 (joined t q)) := by
  rw [select_ok_iff, List.forall_mem_singleton]
  apply and_congr_right
  intro _
  simp

theorem mem_unfoldSeriesRows {e : Found × ℕ} :
    e ∈ unfoldSeriesRows (read rows) ↔ ∃ r ∈ rows, readRow r = .ok e.1 ∧ e.2 ∈ r.tscs := by
  unfold unfoldSeriesRows
  rw [mem_byTime, List.mem_flatMap]
  constructor
  · rintro ⟨f, hf, he⟩
    obtain ⟨r, hr, hread⟩ := mem_read.mp hf
    obtain ⟨τ, hτ, rfl⟩ := List.mem_map.mp he
    exact ⟨r, hr, hread, (readRow_ok_iff.mp hread).2.2.2.2 ▸ hτ⟩
  · rintro ⟨r, hr, hread, hτ⟩
    refine ⟨e.1, mem_read.mpr ⟨r, hr, hread⟩, List.mem_map.mpr ⟨e.2, ?_, rfl⟩⟩
    exact (readRow_ok_iff.mp hread).2.2.2.2 ▸ hτ

theorem agrees_iff {e : Found × ℕ} (hread : readRow r = .ok e.1) :
    agrees q.scalarType q.shape e ↔ r.Agrees q := by
  obtain ⟨hscalar, hshape, -⟩ := readRow_ok_iff.mp hread
  unfold agrees Row.Agrees
  rw [hscalar, hshape, Bool.and_eq_true, decide_eq_true_iff, Option.some.injEq]
  apply and_congr_right
  intro _
  exact ⟨fun h => ⟨_, rfl, h⟩, fun ⟨shape, hsame, h⟩ => Option.some.inj hsame ▸ h⟩

/-- A row with a time that no other row of the channel has reached is the latest. -/
theorem decision_eq_latest {τ : ℕ} (hready : ∀ r ∈ rows, r.Readable) (hr : r ∈ rows) (hagrees : r.Agrees q)
    (hτ : τ ∈ r.tscs) (hlate : ∀ r' ∈ rows, ∀ τ' ∈ r'.tscs, τ ≤ τ' → r' = r) : decision q rows = .latest r.series := by
  obtain ⟨⟨f, hread⟩, -⟩ := hready r hr
  have hmem : (f, τ) ∈ unfoldSeriesRows (read rows) := mem_unfoldSeriesRows.mpr ⟨r, hr, hread, hτ⟩
  cases hlast : (unfoldSeriesRows (read rows)).getLast? with
  | none =>
      rw [List.getLast?_eq_none_iff.mp hlast] at hmem
      cases hmem
  | some last =>
      have hle : τ ≤ last.2 := le_of_getLast?_byTime hlast (mem_byTime.mp hmem)
      obtain ⟨r', hr', hread', hτ'⟩ := mem_unfoldSeriesRows.mp (List.mem_of_getLast? hlast)
      obtain rfl := hlate r' hr' last.2 hτ' hle
      unfold decision decideUnfolded
      rw [hlast]
      simp only
      rw [if_pos ((agrees_iff hread').mpr hagrees), (readRow_ok_iff.mp hread').2.2.2.1]

/-- A series that was used before has the latest of the times of the rows that agree with the query. -/
theorem of_decision_usedBefore (hready : ∀ r ∈ rows, r.Readable) (h : decision q rows = .usedBefore sid) :
    ∃ r ∈ rows, r.series = sid ∧ r.Agrees q ∧
      ∃ τ ∈ r.tscs, ∀ r' ∈ rows, r'.Agrees q → ∀ τ' ∈ r'.tscs, τ' ≤ τ := by
  have hseries := @series?_decideUnfolded q.scalarType q.shape (unfoldSeriesRows (read rows))
  unfold decision at h
  rw [h] at hseries
  obtain ⟨e, hfind, hsid⟩ := Option.map_eq_some_iff.mp hseries.symm
  obtain ⟨hmem, hagrees⟩ := mem_of_find?_reverse_byTime hfind
  obtain ⟨r, hr, hread, hτ⟩ := mem_unfoldSeriesRows.mp (mem_byTime.mpr hmem)
  refine ⟨r, hr, ?_, (agrees_iff hread).mp hagrees, e.2, hτ, ?_⟩
  · rw [(readRow_ok_iff.mp hread).2.2.2.1, hsid]
  · intro r' hr' hagrees' τ' hτ'
    obtain ⟨⟨f, hread'⟩, -⟩ := hready r' hr'
    have hmem' : (f, τ') ∈ unfoldSeriesRows (read rows) := mem_unfoldSeriesRows.mpr ⟨r', hr', hread', hτ'⟩
    exact le_of_find?_reverse_byTime hfind (mem_byTime.mp hmem') ((agrees_iff hread').mpr hagrees')

/-- A series that was used before has a row of the channel, with the type and an equivalent shape of the query, and the
latest of the times of these rows. -/
theorem of_select_usedBefore {result : List (ChannelInfoQuery × MatchingSeries)}
    (hselect : select plan t batch = .ok result) (hmem : (q, .usedBefore sid) ∈ result) :
    ∃ r ∈ t.rows, r.series = sid ∧ q.Joins r ∧ r.Agrees q ∧
      ∃ τ ∈ r.tscs, ∀ r' ∈ t.rows, q.Joins r' → r'.Agrees q → ∀ τ' ∈ r'.tscs, τ' ≤ τ := by
  obtain ⟨hready, rfl⟩ := select_ok_iff.mp hselect
  obtain ⟨x, hx, heq⟩ := List.mem_map.mp hmem
  obtain ⟨rfl, hdecision⟩ := Prod.mk.inj heq
  have hjoined : ∀ r, r ∈ plan.arrange x.2 (joined t x.1) ↔ r ∈ t.rows ∧ x.1.Joins r := by
    intro r
    rw [(plan.perm _ _).mem_iff, joined, List.mem_filter, decide_eq_true_iff]
  have hquery : x.1 ∈ batch := List.fst_mem_of_mem_zipIdx hx
  obtain ⟨r, hr, hsid, hagrees, τ, hτ, hmax⟩ := of_decision_usedBefore
    (fun r hr => hready x.1 hquery r ((plan.perm _ _).mem_iff.mp hr)) hdecision
  obtain ⟨hrow, hjoins⟩ := (hjoined r).mp hr
  exact ⟨r, hrow, hsid, hjoins, hagrees, τ, hτ, fun r' hr' hjoins' => hmax r' ((hjoined r').mpr ⟨hr', hjoins'⟩)⟩

end Decisions

/-! ## Transactions -/

/-- How far {lit}`handle_batch` has come.  With the missing queries are the rounds of their insertion that have begun,
how many rows these have inserted, and the rows that the statement of this round has yet to insert. -/
inductive Phase where
  | select
  | insertMissing (missing : List ChannelInfoQuery) (i1 totalInsertCount : ℕ) (rows : List Row)
  | updateUsedBefore
  deriving DecidableEq, Repr

/-- The rows that are yet to be inserted -/
def Phase.rows : Phase → List Row
  | insertMissing _ _ _ rows => rows
  | select | updateUsedBefore => []

/-- The transaction of a batch: when it has begun, the answers so far, and the rows that it has inserted and updated -/
structure Transaction where
  now : ℕ
  batch : List ChannelInfoQuery
  phase : Phase
  latest : List (ChannelInfoQuery × RegisteredSeries)
  usedBefore : List (ChannelInfoQuery × UInt64)
  inserted : List Row
  updated : List UInt64
  deriving DecidableEq, Repr

/-- A statement of a transaction, or a part of it: the rows are inserted and updated one at a time. -/
inductive Statement where
  | select (plan : Plan)
  | insert (seriesIds : List UInt64)
  | insertRow
  | updateRow (series : UInt64)

/-- The row that is inserted for a query -/
def ChannelInfoQuery.row (now : ℕ) (q : ChannelInfoQuery) (series : UInt64) : Row where
  series := series
  facility := q.backend
  channel := q.channel
  kind := q.kind.toDbI16
  scalarType := q.scalarType.toScyllaI32
  shapeDims := q.shape.toU32Vec.map Int.ofNat
  aggKind := 0
  tscs := [now]

/-- A result of {lit}`select` without a series -/
def doesntExist? : ChannelInfoQuery × MatchingSeries → Option ChannelInfoQuery
  | (q, .doesntExist) => some q
  | (_, .usedBefore _) | (_, .latest _) => none

def usedBefore? : ChannelInfoQuery × MatchingSeries → Option (ChannelInfoQuery × UInt64)
  | (q, .usedBefore sid) => some (q, sid)
  | (_, .doesntExist) | (_, .latest _) => none

def current? : ChannelInfoQuery × MatchingSeries → Option (ChannelInfoQuery × RegisteredSeries)
  | (q, .latest sid) => some (q, .current sid)
  | (_, .doesntExist) | (_, .usedBefore _) => none

/-- A result of the second {lit}`select`, behind the insertion -/
def created? : ChannelInfoQuery × MatchingSeries → Option (ChannelInfoQuery × RegisteredSeries)
  | (q, .usedBefore sid) | (q, .latest sid) => some (q, .created sid)
  | (_, .doesntExist) => none

namespace Transaction

variable {x y : Transaction} {o : Statement}

/-- {lit}`begin` -/
def start (now : ℕ) (batch : List ChannelInfoQuery) : Transaction := ⟨now, batch, .select, [], [], [], []⟩

/-- The table that a statement sees -/
def sees (x : Transaction) (t : SeriesTable) : SeriesTable := (t.insertAll x.inserted).1

/-- With the result of the first {lit}`select` -/
def selected (x : Transaction) (res1 : List (ChannelInfoQuery × MatchingSeries)) : Transaction :=
  { x with
    phase :=
      if res1.filterMap doesntExist? ≠ [] then .insertMissing (res1.filterMap doesntExist?) 0 0 []
      else .updateUsedBefore
    latest := res1.filterMap current?
    usedBefore := res1.filterMap usedBefore? }

/-- With the result of the second {lit}`select`, which must have a series for each query -/
def reselected (x : Transaction) (res2 : List (ChannelInfoQuery × MatchingSeries)) : Option Transaction :=
  (res2.mapM created?).map fun created => { x with phase := .updateUsedBefore, latest := x.latest ++ created }

/-- {lit}`insert_missing` makes 199 rounds at most, until it has inserted a row for each query.  The ids are in a range,
and a dimension must fit into an {lit}`int`. -/
def Inserts (missing : List ChannelInfoQuery) (i1 totalInsertCount : ℕ) (seriesIds : List UInt64) : Prop :=
  totalInsertCount ≠ missing.length ∧ i1 + 1 < 200 ∧ seriesIds.length = missing.length ∧
    (∀ series ∈ seriesIds, 1000000000000000000 ≤ series ∧ series ≤ 0x7fffffffffffffff) ∧
      ∀ q ∈ missing, ∀ d ∈ q.shape.toU32Vec, d < 2 ^ 31

instance (missing : List ChannelInfoQuery) (i1 totalInsertCount : ℕ) (seriesIds : List UInt64) :
    Decidable (Inserts missing i1 totalInsertCount seriesIds) := inferInstanceAs (Decidable (_ ∧ _))

/-- Executes a statement, unless it fails. -/
def execute (t : SeriesTable) (x : Transaction) : Statement → Option Transaction
  | .select plan =>
      match x.phase with
      | .select => (Dbpg.select plan (x.sees t) x.batch).toOption.map x.selected
      | .insertMissing missing _ totalInsertCount [] =>
          if totalInsertCount = missing.length then
            (Dbpg.select plan (x.sees t) missing).toOption.bind x.reselected
          else none
      | _ => none
  | .insert seriesIds =>
      match x.phase with
      | .insertMissing missing i1 totalInsertCount [] =>
          if Inserts missing i1 totalInsertCount seriesIds then
            some { x with
              phase := .insertMissing missing (i1 + 1) totalInsertCount
                (List.zipWith (ChannelInfoQuery.row x.now) missing seriesIds) }
          else none
      | _ => none
  | .insertRow =>
      match x.phase with
      | .insertMissing missing i1 totalInsertCount (r :: rows) =>
          if (x.sees t).Free r then
            some { x with
              phase := .insertMissing missing i1 (totalInsertCount + 1) rows
              inserted := x.inserted ++ [r] }
          else some { x with phase := .insertMissing missing i1 totalInsertCount rows }
      | _ => none
  | .updateRow series =>
      if x.phase = .updateUsedBefore ∧ series ∈ x.usedBefore.map Prod.snd ∧ series ∉ x.updated then
        some { x with updated := x.updated ++ [series] }
      else none

/-- A statement waits for another transaction. -/
def WaitsFor (x : Transaction) : Statement → Transaction → Prop
  | .insertRow, y => ∃ r ∈ x.phase.rows.head?, ∃ r' ∈ y.inserted, r'.series = r.series ∨ r'.key = r.key
  | .updateRow series, y => series ∈ y.updated
  | .select _, _ | .insert _, _ => False

instance (x : Transaction) (o : Statement) (y : Transaction) : Decidable (x.WaitsFor o y) :=
  match o with
  | .insertRow => Option.decidableExistsMem _
  | .updateRow series => inferInstanceAs (Decidable (series ∈ y.updated))
  | .select _ => .isFalse id
  | .insert _ => .isFalse id

/-- {lit}`handle_batch` has an answer for each query. -/
def Handled (x : Transaction) : Prop :=
  x.phase = .updateUsedBefore ∧ (∀ p ∈ x.usedBefore, p.2 ∈ x.updated) ∧
    x.latest.length + x.usedBefore.length = x.batch.length

instance (x : Transaction) : Decidable x.Handled := inferInstanceAs (Decidable (_ ∧ _))

end Transaction

/-- {lit}`update_used_before`: appends the start of the transaction. -/
def Row.use (now : ℕ) (sids : List UInt64) (r : Row) : Row :=
  if r.series ∈ sids then { r with tscs := r.tscs ++ [now] } else r

theorem Row.series_use (now : ℕ) (sids : List UInt64) (r : Row) : (r.use now sids).series = r.series := by
  unfold use
  split <;> rfl

theorem Row.key_use (now : ℕ) (sids : List UInt64) (r : Row) : (r.use now sids).key = r.key := by
  unfold use
  split <;> rfl

/-- {lit}`commit` -/
def Transaction.commit (x : Transaction) (t : SeriesTable) : SeriesTable :=
  ((t.update (Row.use x.now x.updated) (Row.series_use _ _) (Row.key_use _ _)).insertAll x.inserted).1

/-- The transaction changes a row of the channel of a query. -/
def Transaction.Changes (x : Transaction) (t : SeriesTable) (q : ChannelInfoQuery) : Prop :=
  (∃ r ∈ t.rows, r.series ∈ x.updated ∧ q.Joins r) ∨ ∃ r ∈ x.inserted, q.Joins r

instance (x : Transaction) (t : SeriesTable) (q : ChannelInfoQuery) : Decidable (x.Changes t q) :=
  inferInstanceAs (Decidable (_ ∨ _))

/-- The channel of a row, with the kinds -/
def Row.channelKey (r : Row) : String × String × ℤ × ℤ := (r.facility, r.channel, r.kind, r.aggKind)

/-- A transaction has begun after all times of a channel of which it updates a row, and it changes no other row of the
channel. -/
@[mk_iff]
structure Transaction.Follows (x : Transaction) (t : SeriesTable) : Prop where
  later : ∀ r ∈ t.rows, r.series ∈ x.updated → ∀ r' ∈ t.rows, r'.channelKey = r.channelKey → ∀ τ ∈ r'.tscs, τ < x.now
  alone : ∀ r ∈ t.rows, r.series ∈ x.updated → ∀ r' ∈ t.rows, r'.series ∈ x.updated →
    r'.channelKey = r.channelKey → r' = r
  unmixed : ∀ r ∈ t.rows, r.series ∈ x.updated → ∀ r' ∈ x.inserted, r'.channelKey ≠ r.channelKey

instance (x : Transaction) (t : SeriesTable) : Decidable (x.Follows t) :=
  decidable_of_iff' _ (Transaction.follows_iff x t)

/-! ## One transaction -/

section Transactions

variable {t : SeriesTable} {x y : Transaction} {o : Statement} {q : ChannelInfoQuery} {r : Row} {now : ℕ}
  {sids : List UInt64} {series : UInt64} {p : ChannelInfoQuery × UInt64}

/-- A row that is inserted can be read. -/
theorem readable_row (now : ℕ) (q : ChannelInfoQuery) (series : UInt64) : (q.row now series).Readable := by
  obtain ⟨shape, hshape⟩ : ∃ shape, DataShape.fromScyllaShapeDims (q.shape.toU32Vec.map Int.ofNat) = some shape := by
    cases q.shape <;> exact ⟨_, rfl⟩
  refine ⟨⟨⟨series, q.kind, q.scalarType, shape, [now]⟩, ?_⟩, rfl⟩
  rw [readRow_ok_iff]
  exact ⟨ScalarType.fromScyllaI32_toScyllaI32 _, hshape, SeriesKind.fromDbI16_toDbI16 _, rfl, rfl⟩

theorem tscs_use : (r.use now sids).tscs = if r.series ∈ sids then r.tscs ++ [now] else r.tscs := by
  unfold Row.use
  split <;> rfl

/-- What the key of a row says is the same after an update. -/
theorem joins_use : q.Joins (r.use now sids) ↔ q.Joins r := by
  unfold Row.use
  split <;> rfl

theorem agrees_use : (r.use now sids).Agrees q ↔ r.Agrees q := by
  unfold Row.use
  split <;> rfl

/-- A time behind all others of the row keeps it readable. -/
theorem Row.Readable.use (h : r.Readable) (hlate : r.series ∈ sids → ∀ τ ∈ r.tscs, τ < now) :
    (r.use now sids).Readable := by
  unfold Row.use
  split
  case isFalse => exact h
  case isTrue hsid =>
      obtain ⟨⟨f, hread⟩, horder⟩ := h
      obtain ⟨hscalar, hshape, hkind, hseries, -⟩ := readRow_ok_iff.mp hread
      refine ⟨⟨{ f with tscs := r.tscs ++ [now] }, readRow_ok_iff.mpr ⟨hscalar, hshape, hkind, hseries, rfl⟩⟩, ?_⟩
      rw [inOrder_iff, List.pairwise_append]
      refine ⟨inOrder_iff.mp horder, List.pairwise_singleton _ _, fun τ hτ now' hnow => ?_⟩
      rw [List.mem_singleton.mp hnow]
      exact hlate hsid τ hτ

/-- The rows of a query are of one channel. -/
theorem ChannelInfoQuery.Joins.channelKey_eq {r' : Row} (h' : q.Joins r') (h : q.Joins r) :
    r'.channelKey = r.channelKey := by
  obtain ⟨hfacility, hchannel, hkind, hagg⟩ := h
  obtain ⟨hfacility', hchannel', hkind', hagg'⟩ := h'
  unfold Row.channelKey
  rw [hfacility, hchannel, hkind, hagg, hfacility', hchannel', hkind', hagg']

namespace Transaction

/-- The rows of a transaction can be read, and a series that was used before has a row. -/
structure Valid (x : Transaction) (t : SeriesTable) : Prop where
  fresh : x.phase = .select → x.inserted = []
  proposed : ∀ r ∈ x.phase.rows, r.Readable
  inserted : ∀ r ∈ x.inserted, r.Readable
  used : ∀ p ∈ x.usedBefore, ∃ r ∈ t.rows, r.series = p.2 ∧ p.1.Joins r ∧ r.Agrees p.1

theorem valid_start {batch : List ChannelInfoQuery} : (start now batch).Valid t where
  fresh _ := rfl
  proposed := List.forall_mem_nil _
  inserted := List.forall_mem_nil _
  used := List.forall_mem_nil _

theorem mem_usedBefore? {res : List (ChannelInfoQuery × MatchingSeries)} (hp : p ∈ res.filterMap usedBefore?) :
    (p.1, .usedBefore p.2) ∈ res := by
  obtain ⟨⟨q, status⟩, hmem, hp⟩ := List.mem_filterMap.mp hp
  cases status with
  | doesntExist => cases hp
  | latest sid => cases hp
  | usedBefore sid =>
      cases hp
      exact hmem

theorem Valid.selected {plan : Plan} {res1 : List (ChannelInfoQuery × MatchingSeries)} (h : x.Valid t)
    (hphase : x.phase = .select) (hselect : select plan (x.sees t) x.batch = .ok res1) : (x.selected res1).Valid t where
  fresh hselect := by
    unfold Transaction.selected at hselect
    split at hselect <;> cases hselect
  proposed := by
    unfold Transaction.selected
    split <;> exact List.forall_mem_nil _
  inserted := h.inserted
  used p hp := by
    have hsees : x.sees t = t := by
      unfold sees
      rw [h.fresh hphase]
      rfl
    rw [hsees] at hselect
    obtain ⟨r, hr, hsid, hjoins, hagrees, -⟩ := of_select_usedBefore hselect (mem_usedBefore? hp)
    exact ⟨r, hr, hsid, hjoins, hagrees⟩

theorem Valid.reselected {res2 : List (ChannelInfoQuery × MatchingSeries)} (h : x.Valid t)
    (hres : x.reselected res2 = some y) : y.Valid t := by
  obtain ⟨created, -, rfl⟩ := Option.map_eq_some_iff.mp hres
  exact ⟨nofun, List.forall_mem_nil _, h.inserted, h.used⟩

theorem Valid.execute (h : x.Valid t) (hexecute : x.execute t o = some y) : y.Valid t := by
  cases o with
  | select plan =>
      unfold Transaction.execute at hexecute
      simp only at hexecute
      split at hexecute
      case h_1 hphase =>
          obtain ⟨res1, hres, rfl⟩ := Option.map_eq_some_iff.mp hexecute
          exact h.selected hphase (toOption_eq_some.mp hres)
      case h_2 hphase =>
          split at hexecute
          case isFalse => cases hexecute
          case isTrue =>
              obtain ⟨res2, -, hres⟩ := Option.bind_eq_some_iff.mp hexecute
              exact h.reselected hres
      case h_3 => cases hexecute
  | insert seriesIds =>
      unfold Transaction.execute at hexecute
      simp only at hexecute
      split at hexecute
      case h_1 missing i1 totalInsertCount hphase =>
          split at hexecute
          case isFalse => cases hexecute
          case isTrue =>
              cases hexecute
              refine ⟨nofun, fun r hr => ?_, h.inserted, h.used⟩
              rw [Phase.rows, ← List.map_uncurry_zip_eq_zipWith] at hr
              obtain ⟨z, -, rfl⟩ := List.mem_map.mp hr
              exact readable_row _ _ _
      case h_2 => cases hexecute
  | insertRow =>
      unfold Transaction.execute at hexecute
      simp only at hexecute
      split at hexecute
      case h_1 missing i1 totalInsertCount r rows hphase =>
          have hproposed := h.proposed
          rw [hphase, Phase.rows, List.forall_mem_cons] at hproposed
          split at hexecute
          case isTrue =>
              cases hexecute
              refine ⟨nofun, hproposed.2, ?_, h.used⟩
              rw [List.forall_mem_append, List.forall_mem_singleton]
              exact ⟨h.inserted, hproposed.1⟩
          case isFalse =>
              cases hexecute
              exact ⟨nofun, hproposed.2, h.inserted, h.used⟩
      case h_2 => cases hexecute
  | updateRow series =>
      unfold Transaction.execute at hexecute
      simp only at hexecute
      split at hexecute
      case isFalse => cases hexecute
      case isTrue hupdate =>
          cases hexecute
          exact ⟨h.fresh, h.proposed, h.inserted, h.used⟩

/-- A row of the table behind a commit was there before, or the transaction has inserted it. -/
theorem mem_commit (hr : r ∈ (x.commit t).rows) :
    (∃ r₀ ∈ t.rows, r = r₀.use x.now x.updated) ∨ r ∈ x.inserted := by
  unfold commit at hr
  rw [Table.insertAll_rows] at hr
  rcases List.mem_append.mp hr with hold | hnew
  · obtain ⟨r₀, hr₀, rfl⟩ := List.mem_map.mp hold
    exact .inl ⟨r₀, hr₀, rfl⟩
  · exact .inr (Table.insertAll_sublist.subset hnew)

theorem use_mem_commit (hr : r ∈ t.rows) : r.use x.now x.updated ∈ (x.commit t).rows :=
  Table.rows_sublist_insertAll.subset (List.mem_map_of_mem hr)

/-- A commit of another transaction deletes no row. -/
theorem Valid.commit (h : y.Valid t) : y.Valid (x.commit t) where
  fresh := h.fresh
  proposed := h.proposed
  inserted := h.inserted
  used p hp := by
    obtain ⟨r, hr, hseries, hjoins, hagrees⟩ := h.used p hp
    refine ⟨_, use_mem_commit hr, ?_, joins_use.mpr hjoins, agrees_use.mpr hagrees⟩
    rw [Row.series_use, hseries]

/-- A channel that a transaction does not change has the same rows behind its commit. -/
theorem joined_commit (h : ¬ x.Changes t q) : joined (x.commit t) q = joined t q := by
  obtain ⟨hold, hnew⟩ := not_or.mp h
  unfold joined Transaction.commit
  rw [Table.insertAll_rows, List.filter_append]
  have hnone : ((t.update (Row.use x.now x.updated) (Row.series_use _ _) (Row.key_use _ _)).insertAll
      x.inserted).2.filter (fun r => q.Joins r) = [] := by
    rw [List.filter_eq_nil_iff]
    intro r hr hjoins
    exact hnew ⟨r, Table.insertAll_sublist.subset hr, of_decide_eq_true hjoins⟩
  have hsame : ((fun r => decide (q.Joins r)) ∘ Row.use x.now x.updated) = fun r => decide (q.Joins r) := by
    funext r
    exact decide_eq_decide.mpr joins_use
  rw [hnone, List.append_nil, Table.update, List.filter_map, hsame]
  refine (List.map_congr_left fun r hr => ?_).trans (List.map_id _)
  obtain ⟨hrow, hjoins⟩ := List.mem_filter.mp hr
  exact if_neg fun hsid => hold ⟨r, hrow, hsid, of_decide_eq_true hjoins⟩

/-- The rows can be read behind the commit of a transaction that follows the history. -/
theorem Valid.readable_commit (h : x.Valid t) (hready : ∀ r ∈ t.rows, r.Readable) (hfollows : x.Follows t) :
    ∀ r ∈ (x.commit t).rows, r.Readable := by
  intro r hr
  rcases mem_commit hr with ⟨r₀, hr₀, rfl⟩ | hnew
  · exact (hready r₀ hr₀).use fun hsid => hfollows.later r₀ hr₀ hsid r₀ hr₀ rfl
  · exact h.inserted r hnew

/-- A series that a transaction has updated is the latest behind its commit. -/
theorem Valid.latest_commit {plan : Plan} (h : x.Valid t) (hready : ∀ r ∈ t.rows, r.Readable)
    (hfollows : x.Follows t) (hhandled : x.Handled) (hp : p ∈ x.usedBefore) :
    select plan (x.commit t) [p.1] = .ok [(p.1, .latest p.2)] := by
  have hreadable := h.readable_commit hready hfollows
  have hjoined : ∀ r ∈ joined (x.commit t) p.1, r ∈ (x.commit t).rows ∧ p.1.Joins r := by
    intro r hr
    exact ⟨(List.mem_filter.mp hr).1, of_decide_eq_true (List.mem_filter.mp hr).2⟩
  have harranged {r : Row} : r ∈ plan.arrange 0 (joined (x.commit t) p.1) ↔ r ∈ joined (x.commit t) p.1 :=
    (plan.perm _ _).mem_iff
  obtain ⟨r₀, hr₀, hseries, hjoins, hagrees⟩ := h.used p hp
  have hsid : r₀.series ∈ x.updated := hseries ▸ hhandled.2.1 p hp
  rw [select_singleton]
  refine ⟨fun r hr => hreadable r (hjoined r hr).1, Eq.symm ?_⟩
  rw [← hseries, ← Row.series_use x.now x.updated r₀]
  apply decision_eq_latest (τ := x.now) (fun r hr => hreadable r (hjoined r (harranged.mp hr)).1)
  · exact harranged.mpr (List.mem_filter.mpr ⟨use_mem_commit hr₀, decide_eq_true (joins_use.mpr hjoins)⟩)
  · exact agrees_use.mpr hagrees
  · rw [tscs_use, if_pos hsid]
    exact List.mem_append_right _ (List.mem_singleton_self _)
  · intro r hr τ hτ hle
    obtain ⟨hrow, hjoinsr⟩ := hjoined r (harranged.mp hr)
    rcases mem_commit hrow with ⟨r₁, hr₁, rfl⟩ | hnew
    · have hsame := (joins_use.mp hjoinsr).channelKey_eq hjoins
      by_cases hsid₁ : r₁.series ∈ x.updated
      · rw [hfollows.alone r₀ hr₀ hsid r₁ hr₁ hsid₁ hsame]
      · rw [tscs_use, if_neg hsid₁] at hτ
        exact absurd (hfollows.later r₀ hr₀ hsid r₁ hr₁ hsame τ hτ) hle.not_gt
    · exact absurd (hjoinsr.channelKey_eq hjoins) (hfollows.unmixed r₀ hr₀ hsid r hnew)

end Transaction

end Transactions

/-! ## Workers -/

/-- The committed table, the transactions of the workers, and what the last commit of a channel has answered if it was
an update -/
structure Workers (n : ℕ) where
  table : SeriesTable
  transactions : Fin n → Option Transaction
  lastUpdated : List (ChannelInfoQuery × UInt64)

/-- What happens next -/
inductive WorkerEvent (n : ℕ) where
  | start (w : Fin n) (now : ℕ) (batch : List ChannelInfoQuery)
  | execute (w : Fin n) (statement : Statement)
  | commit (w : Fin n)
  | rollback (w : Fin n)

namespace Workers

variable {n : ℕ} {s s' : Workers n} {w : Fin n} {x : Transaction}

/-- {lit}`start_lookup_workers` -/
def new (n : ℕ) (table : SeriesTable) : Workers n := ⟨table, fun _ => none, []⟩

/-- Sets the transaction of a worker. -/
def put (s : Workers n) (w : Fin n) (x : Option Transaction) : Workers n :=
  { s with transactions := Function.update s.transactions w x }

/-- No other transaction is in the way of a statement. -/
def Proceeds (s : Workers n) (w : Fin n) (x : Transaction) (o : Statement) : Prop :=
  ∀ v, v ≠ w → ∀ y ∈ s.transactions v, ¬ x.WaitsFor o y

instance (s : Workers n) (w : Fin n) (x : Transaction) (o : Statement) : Decidable (s.Proceeds w x o) :=
  inferInstanceAs (Decidable (∀ _, _))

/-- A step of {lit}`Worker::work` -/
def step : WorkerEvent n → Workers n → Option (Workers n)
  | .start w now batch, s =>
      match s.transactions w with
      | none => some (s.put w (some (.start now batch)))
      | some _ => none
  | .execute w o, s =>
      match s.transactions w with
      | none => none
      | some x => if s.Proceeds w x o then (x.execute s.table o).map fun y => s.put w (some y) else none
  | .commit w, s =>
      match s.transactions w with
      | none => none
      | some x =>
          if x.Handled then
            some ⟨x.commit s.table, Function.update s.transactions w none,
              x.usedBefore ++ s.lastUpdated.filter fun p => ¬ x.Changes s.table p.1⟩
          else none
  | .rollback w, s => (s.transactions w).map fun _ => s.put w none

/-- The times of each series are strictly increasing, every lookup succeeds, and what the last commit of a channel has
answered is decided to be the latest. -/
structure HistoryReadable (s : Workers n) : Prop where
  increasing : ∀ r ∈ s.table.rows, r.tscs.Pairwise (· < ·)
  lookups : ∀ plan batch, ∃ result, select plan s.table batch = .ok result
  latest : ∀ p ∈ s.lastUpdated, ∀ plan, select plan s.table [p.1] = .ok [(p.1, .latest p.2)]

/-- A transaction that commits follows the history. -/
def Follows : WorkerEvent n → Workers n → Prop
  | .commit w, s => ∀ x ∈ s.transactions w, x.Follows s.table
  | .start _ _ _, _ | .execute _ _, _ | .rollback _, _ => True

instance : ∀ (e : WorkerEvent n) (s : Workers n), Decidable (Follows e s)
  | .commit _, _ => inferInstanceAs (Decidable (∀ _ ∈ _, _))
  | .start _ _ _, _ | .execute _ _, _ | .rollback _, _ => .isTrue trivial

/-- The rows and the answers in every state of the workers -/
structure Valid (s : Workers n) : Prop where
  readable : ∀ r ∈ s.table.rows, r.Readable
  latest : ∀ p ∈ s.lastUpdated, ∀ plan, select plan s.table [p.1] = .ok [(p.1, .latest p.2)]
  transactions : ∀ w, ∀ x ∈ s.transactions w, x.Valid s.table

theorem Valid.historyReadable (h : s.Valid) : s.HistoryReadable where
  increasing r hr := inOrder_iff.mp (h.readable r hr).2
  lookups _ _ := ⟨_, select_ok_iff.mpr ⟨fun _ _ r hr => h.readable r (List.mem_filter.mp hr).1, rfl⟩⟩
  latest := h.latest

theorem forall_update {P : Transaction → Prop} {y : Option Transaction} (hs : ∀ v, ∀ x ∈ s.transactions v, P x)
    (hy : ∀ x ∈ y, P x) : ∀ v, ∀ x ∈ Function.update s.transactions w y v, P x :=
  (Function.forall_update_iff s.transactions fun (_ : Fin n) (o : Option Transaction) => ∀ x ∈ o, P x).mpr
    ⟨hy, fun v _ => hs v⟩

/-- Only the transaction of one worker changes. -/
theorem Valid.put (h : s.Valid) {y : Option Transaction} (hy : ∀ x ∈ y, x.Valid s.table) : (s.put w y).Valid where
  readable := h.readable
  latest := h.latest
  transactions := forall_update h.transactions hy

theorem Valid.commit (h : s.Valid) (hx : s.transactions w = some x) (hhandled : x.Handled)
    (hfollows : x.Follows s.table) :
    (⟨x.commit s.table, Function.update s.transactions w none,
      x.usedBefore ++ s.lastUpdated.filter fun p => ¬ x.Changes s.table p.1⟩ : Workers n).Valid where
  readable := (h.transactions w x hx).readable_commit h.readable hfollows
  latest := by
    intro p hp plan
    rcases List.mem_append.mp hp with hnew | hold
    · exact (h.transactions w x hx).latest_commit h.readable hfollows hhandled hnew
    · obtain ⟨hp, hkept⟩ := List.mem_filter.mp hold
      have hlatest := h.latest p hp plan
      rw [select_singleton] at hlatest ⊢
      rwa [Transaction.joined_commit (of_decide_eq_true hkept)]
  transactions := forall_update (fun v y hy => (h.transactions v y hy).commit) nofun

theorem Valid.step {e : WorkerEvent n} (h : s.Valid) (hfollows : Follows e s) (hstep : step e s = some s') :
    s'.Valid := by
  cases e with
  | start w now batch =>
      unfold Workers.step at hstep
      simp only at hstep
      cases hx : s.transactions w with
      | some x => rw [hx] at hstep; cases hstep
      | none =>
          rw [hx] at hstep
          cases hstep
          exact h.put fun x hx => Option.mem_some.mp hx ▸ Transaction.valid_start
  | execute w o =>
      unfold Workers.step at hstep
      simp only at hstep
      cases hx : s.transactions w with
      | none => rw [hx] at hstep; cases hstep
      | some x =>
          rw [hx] at hstep
          simp only at hstep
          split at hstep
          case isFalse => cases hstep
          case isTrue =>
              obtain ⟨y, hexecute, rfl⟩ := Option.map_eq_some_iff.mp hstep
              exact h.put fun x' hx' => Option.mem_some.mp hx' ▸ (h.transactions w x hx).execute hexecute
  | commit w =>
      unfold Workers.step at hstep
      simp only at hstep
      cases hx : s.transactions w with
      | none => rw [hx] at hstep; cases hstep
      | some x =>
          rw [hx] at hstep
          simp only at hstep
          split at hstep
          case isFalse => cases hstep
          case isTrue hhandled =>
              cases hstep
              exact h.commit hx hhandled (hfollows x hx)
  | rollback w =>
      obtain ⟨x, -, rfl⟩ := Option.map_eq_some_iff.mp hstep
      exact h.put nofun

theorem valid_new {table : SeriesTable} (hready : ∀ r ∈ table.rows, r.Readable) : (new n table).Valid where
  readable := hready
  latest := List.forall_mem_nil _
  transactions := nofun

/-! ## Two workers that overlap -/

/-- The first select of a transaction finds a series that was used before. -/
theorem step_select {now : ℕ} {q : ChannelInfoQuery} {sid : UInt64} {plan : Plan}
    (hx : s.transactions w = some (.start now [q])) (hselect : select plan s.table [q] = .ok [(q, .usedBefore sid)]) :
    step (.execute w (.select plan)) s =
      some (s.put w (some ⟨now, [q], .updateUsedBefore, [], [(q, sid)], [], []⟩)) := by
  have hproceeds : s.Proceeds w (.start now [q]) (.select plan) := fun _ _ _ _ hwaits => hwaits
  have hexecute : (Transaction.start now [q]).execute s.table (.select plan) =
      (select plan s.table [q]).toOption.map (Transaction.start now [q]).selected := rfl
  unfold step
  simp only
  rw [hx]
  simp only
  rw [if_pos hproceeds, hexecute, hselect]
  rfl

/-- The rows of a query in the order of the table -/
def inTurn : Plan := ⟨fun _ rows => rows, fun _ _ => List.Perm.refl _⟩

def exampleQuery (channel : String) : ChannelInfoQuery := ⟨"backend", channel, .channelData, .f64, .scalar⟩

def exampleRow (series : UInt64) (channel : String) (scalarType : ℤ) (time : ℕ) : Row :=
  ⟨series, "backend", channel, 2, scalarType, [], 0, [time]⟩

def exampleFound (series : UInt64) (scalarType : ScalarType) (time : ℕ) : Found :=
  ⟨series, .channelData, scalarType, .scalar, [time]⟩

/-- Two channels that have changed from {lit}`f64` to {lit}`i32` -/
def exampleTable : SeriesTable :=
  ⟨[exampleRow 10 "c" 12 1, exampleRow 11 "c" 7 2, exampleRow 20 "d" 12 1, exampleRow 21 "d" 7 2],
    by decide +kernel, by decide +kernel⟩

theorem readable_exampleRow {series : UInt64} {channel : String} {scalarType : ℤ} {time : ℕ}
    (h : scalarType = 12 ∨ scalarType = 7) : (exampleRow series channel scalarType time).Readable := by
  rcases h with rfl | rfl
  · exact ⟨⟨exampleFound series .f64 time, rfl⟩, rfl⟩
  · exact ⟨⟨exampleFound series .i32 time, rfl⟩, rfl⟩

theorem readable_exampleTable : ∀ r ∈ exampleTable.rows, r.Readable := by
  unfold exampleTable
  simp only [List.forall_mem_cons]
  exact ⟨readable_exampleRow (.inl rfl), readable_exampleRow (.inr rfl), readable_exampleRow (.inl rfl),
    readable_exampleRow (.inr rfl), List.forall_mem_nil _⟩

theorem select_exampleTable (channel : String) (sid sid' : UInt64)
    (h : joined exampleTable (exampleQuery channel) = [exampleRow sid channel 12 1, exampleRow sid' channel 7 2]) :
    select inTurn exampleTable [exampleQuery channel] = .ok [(exampleQuery channel, .usedBefore sid)] := by
  rw [select_singleton]
  refine ⟨fun r hr => readable_exampleTable r (List.mem_filter.mp hr).1, ?_⟩
  have hunfold : unfoldSeriesRows (read (inTurn.arrange 0 (joined exampleTable (exampleQuery channel)))) =
      [(exampleFound sid .f64 1, 1), (exampleFound sid' .i32 2, 2)] := by
    rw [h]
    exact List.mergeSort_of_pairwise (List.pairwise_pair.mpr rfl)
  unfold decision
  rw [hunfold]
  rfl

/-- Worker 0 starts before worker 1, and commits after it. -/
def overlap (q₀ q₁ : ChannelInfoQuery) (sid₀ sid₁ : UInt64) : List (WorkerEvent 2) :=
  [.start 0 3 [q₀], .start 1 4 [q₁], .execute 0 (.select inTurn), .execute 1 (.select inTurn),
    .execute 1 (.updateRow sid₁), .commit 1, .execute 0 (.updateRow sid₀), .commit 0]

/-- The workers of the overlap, when both have selected -/
def selected (q₀ q₁ : ChannelInfoQuery) (sid₀ sid₁ : UInt64) : Workers 2 :=
  ((((new 2 exampleTable).put 0 (some (.start 3 [q₀]))).put 1 (some (.start 4 [q₁]))).put 0
    (some ⟨3, [q₀], .updateUsedBefore, [], [(q₀, sid₀)], [], []⟩)).put 1
      (some ⟨4, [q₁], .updateUsedBefore, [], [(q₁, sid₁)], [], []⟩)

theorem run_overlap {q₀ q₁ : ChannelInfoQuery} {sid₀ sid₁ : UInt64}
    (h₀ : select inTurn exampleTable [q₀] = .ok [(q₀, .usedBefore sid₀)])
    (h₁ : select inTurn exampleTable [q₁] = .ok [(q₁, .usedBefore sid₁)]) :
    run step (overlap q₀ q₁ sid₀ sid₁) (new 2 exampleTable) =
      run step [.execute 1 (.updateRow sid₁), .commit 1, .execute 0 (.updateRow sid₀), .commit 0]
        (selected q₀ q₁ sid₀ sid₁) := by
  unfold overlap
  rw [run_cons_of_step rfl, run_cons_of_step rfl, run_cons_of_step (step_select rfl h₀),
    run_cons_of_step (step_select rfl h₁)]
  rfl

theorem along_overlap :
    Along step Follows (overlap (exampleQuery "c") (exampleQuery "d") 10 20) (new 2 exampleTable) := by
  have h₀ := select_exampleTable "c" 10 11 (by decide +kernel)
  have h₁ := select_exampleTable "d" 20 21 (by decide +kernel)
  unfold overlap
  rw [along_cons_of_step rfl, along_cons_of_step rfl, along_cons_of_step (step_select rfl h₀),
    along_cons_of_step (step_select rfl h₁)]
  decide +kernel

/-! ## The use history -/

/-- The use history stays readable if each transaction that commits follows it. -/
theorem historyReadable_run (table : SeriesTable) (hready : ∀ r ∈ table.rows, r.Readable) (es : List (WorkerEvent n))
    (halong : Along step Follows es (new n table)) :
    ∀ s, Reached step es (new n table) s → s.HistoryReadable := by
  intro s hs
  have hvalid := forall_reached_of_along (fun e s s' h hfollows hstep => h.step hfollows hstep) (valid_new hready)
    halong
  exact (hvalid s hs).historyReadable

/-- Workers that overlap at different channels -/
theorem historyReadable_overlap :
    ∃ s, run step (overlap (exampleQuery "c") (exampleQuery "d") 10 20) (new 2 exampleTable) = some s ∧
      s.HistoryReadable := by
  have hsome : (run step (overlap (exampleQuery "c") (exampleQuery "d") 10 20) (new 2 exampleTable)).isSome := by
    rw [run_overlap (select_exampleTable "c" 10 11 (by decide +kernel))
      (select_exampleTable "d" 20 21 (by decide +kernel))]
    decide +kernel
  obtain ⟨s, hs⟩ := Option.isSome_iff_exists.mp hsome
  exact ⟨s, hs, historyReadable_run exampleTable readable_exampleTable _ along_overlap s ⟨_, List.prefix_rfl, hs⟩⟩

/-- Workers that overlap at the same channel -/
theorem not_historyReadable :
    ¬ ∀ s, Reached step (overlap (exampleQuery "c") (exampleQuery "c") 10 10) (new 2 exampleTable) s →
      s.HistoryReadable := by
  intro h
  have hselect := select_exampleTable "c" 10 11 (by decide +kernel)
  have hrun : ((run step (overlap (exampleQuery "c") (exampleQuery "c") 10 10) (new 2 exampleTable)).map
      fun s => s.table.rows.map Row.tscs) = some [[1, 4, 3], [2], [1], [2]] := by
    rw [run_overlap hselect hselect]
    decide +kernel
  obtain ⟨s, hs, htscs⟩ := Option.map_eq_some_iff.mp hrun
  have hincreasing := (h s ⟨_, List.prefix_rfl, hs⟩).increasing
  rw [← List.forall_mem_map (f := Row.tscs), htscs] at hincreasing
  revert hincreasing
  decide

end Workers

end Dbpg
end Daqbuf
