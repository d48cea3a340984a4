import Daqbuf.Poll.Machine
import Daqbuf.Scylla.MspLspIter
import Daqbuf.Serieswriter.Queue
/-!
# Reading the Index of Written Bins

{lit}`BinWriteIndexRtStream` reads the index one partition after the other, with one query at a time.  The first query
begins at the bin of the begin of the range, and the last one ends at the key behind the last bin, which is computed
from the end of the range and the length of a bin, in nanoseconds.

The database is what answers the queries.

Main results:

- Theorem {lit}`BinWriteIndexRtStream.yields_queries`: the queries from one bin to another.
- Theorem {lit}`BinWriteIndexRtStream.run_issued`: what is issued in a run.
- Theorem {lit}`queriesExact_iff`: when the queries are for the bins that overlap the range.
- Theorem {lit}`not_queriesExact_nanosecond`: a range that ends behind the begin of a bin.
-/

namespace Daqbuf
namespace Scylla

open Series Iter Poll
open Netpod (RetentionTime)

/-! ## The stream -/

/-- {lit}`BinWriteIndexRead`; {lit}`lsp_max` is exclusive. -/
structure BinWriteIndexRead where
  rt : RetentionTime
  series : ℕ
  pbp : PrebinnedPartitioning
  msp : ℕ
  lspMin : ℕ
  lspMax : ℕ
  deriving DecidableEq, Repr

/-- The keys that a query is for -/
def BinWriteIndexRead.keys (q : BinWriteIndexRead) : List (ℕ × ℕ) :=
  MspChunkerItem.keys ⟨q.msp, q.lspMin, q.lspMax⟩

/-- {lit}`BinWriteIndexEntry` -/
structure BinWriteIndexEntry where
  lsp : ℕ
  binlen : ℕ
  deriving DecidableEq, Repr

/-- {lit}`BinWriteIndexSet` -/
structure BinWriteIndexSet where
  msp : ℕ
  entries : List BinWriteIndexEntry
  deriving DecidableEq, Repr

/-- {lit}`BinWriteIndexRtStream`, with the query of its future -/
structure BinWriteIndexRtStream where
  rt : RetentionTime
  series : ℕ
  pbp : PrebinnedPartitioning
  msp : ℕ
  lspMin : ℕ
  mspEnd : ℕ
  lspEnd : ℕ
  fut1 : Option BinWriteIndexRead
  deriving DecidableEq, Repr

/-- What a poll of the stream does: it can issue a query, and give an item, an error or the end. -/
inductive IndexOutput (E : Type) where
  | issued (q : BinWriteIndexRead)
  | item (set : BinWriteIndexSet)
  | error (e : E)
  | done

namespace BinWriteIndexRtStream

/-- The end of the range that {lit}`new` computes, in milliseconds.  The sum of nanoseconds wraps around. -/
def endMs (pbp : PrebinnedPartitioning) (fin : ℕ) : ℕ := (fin + (pbp.binLen - 1) * 1000000) % 2 ^ 64 / 1000000

/-- {lit}`new`, of a range in nanoseconds -/
def new (rt : RetentionTime) (series : ℕ) (pbp : PrebinnedPartitioning) (beg fin : ℕ) : BinWriteIndexRtStream where
  rt := rt
  series := series
  pbp := pbp
  msp := (pbp.mspLsp (beg / 1000000)).1
  lspMin := (pbp.mspLsp (beg / 1000000)).2
  mspEnd := (pbp.mspLsp (endMs pbp fin)).1
  lspEnd := (pbp.mspLsp (endMs pbp fin)).2
  fut1 := none

/-- {lit}`make_next_query_fut` -/
def makeNextQueryFut (s : BinWriteIndexRtStream) : Option (BinWriteIndexRead × BinWriteIndexRtStream) :=
  if s.msp ≤ s.mspEnd then
    let next := (s.msp + 1) % 2 ^ 32
    let lspMax := if s.mspEnd < next then s.lspEnd else s.pbp.patchLen
    some (⟨s.rt, s.series, s.pbp, s.msp, s.lspMin, lspMax⟩, { s with msp := next, lspMin := 0 })
  else none

section Poll

variable {E : Type}

/-- What {lit}`poll_next` does with its future, which is pending or has an answer -/
def pollFut (s : BinWriteIndexRtStream) (q : BinWriteIndexRead) :
    Option (Except E (List BinWriteIndexEntry)) → List (IndexOutput E) × BinWriteIndexRtStream
  | some (.ok entries) => ([.item ⟨q.msp, entries⟩], { s with fut1 := none })
  | some (.error e) => ([.error e], { s with fut1 := none })
  | none => ([], { s with fut1 := some q })

/-- {lit}`poll_next` -/
def pollNext (answer : Option (Except E (List BinWriteIndexEntry))) (s : BinWriteIndexRtStream) :
    List (IndexOutput E) × BinWriteIndexRtStream :=
  match s.fut1 with
  | some q => s.pollFut q answer
  | none =>
      match s.makeNextQueryFut with
      | some (q, s) => (.issued q :: (s.pollFut q answer).1, (s.pollFut q answer).2)
      | none => ([.done], s)

/-- The stream is polled again and again, and its queries are answered at any of these polls, or fail. -/
def machine : Machine BinWriteIndexRtStream (Option (Except E (List BinWriteIndexEntry))) (IndexOutput E) where
  step := pollNext

end Poll

end BinWriteIndexRtStream

/-- The queries among the outputs -/
def issued {E : Type} : List (IndexOutput E) → List BinWriteIndexRead
  | [] => []
  | .issued q :: rest => q :: issued rest
  | .item _ :: rest | .error _ :: rest | .done :: rest => issued rest

theorem issued_append {E : Type} (xs ys : List (IndexOutput E)) : issued (xs ++ ys) = issued xs ++ issued ys := by
  induction xs with
  | nil => rfl
  | cons x xs ih => cases x <;> simp [issued, ih]

/-! ## Runs -/

namespace BinWriteIndexRtStream

section Runs

variable {E : Type} {s : BinWriteIndexRtStream} {queries : List BinWriteIndexRead}

/-- The stream without its future -/
def idle (s : BinWriteIndexRtStream) : BinWriteIndexRtStream := { s with fut1 := none }

/-- The number of answers until the end, for the queries that are left -/
def owed (s : BinWriteIndexRtStream) (queries : List BinWriteIndexRead) : ℕ :=
  queries.length + (if s.fut1.isSome then 1 else 0)

/-- The number of polls with an answer -/
def answered (answers : List (Option (Except E (List BinWriteIndexEntry)))) : ℕ :=
  (answers.filter Option.isSome).length

theorem idle_of_eq_none (hfut : s.fut1 = none) : s.idle = s := by
  rw [idle, ← hfut]

theorem fut1_of_makeNextQueryFut {q : BinWriteIndexRead} {t : BinWriteIndexRtStream}
    (hnext : s.makeNextQueryFut = some (q, t)) : t.fut1 = s.fut1 := by
  rw [makeNextQueryFut] at hnext
  split at hnext
  · cases hnext
    rfl
  · cases hnext

/-- A poll issues the next query where none is left to be answered. -/
theorem pollNext_spec (hyields : Yields makeNextQueryFut s.idle queries)
    (answer : Option (Except E (List BinWriteIndexEntry))) :
    ∃ rest, Yields makeNextQueryFut (pollNext answer s).2.idle rest ∧
      issued (pollNext answer s).1 ++ rest = queries ∧
      (pollNext answer s).2.owed rest ≤ s.owed queries - (if answer.isSome then 1 else 0) := by
  cases hfut : s.fut1 with
  | some q =>
      have hpoll : pollNext answer s = s.pollFut q answer := by
        rw [pollNext, hfut]
      rw [hpoll]
      rcases answer with - | (e | entries)
      · exact ⟨queries, hyields, rfl, by simp [pollFut, owed, hfut]⟩
      · exact ⟨queries, hyields, rfl, by simp [pollFut, owed, hfut]⟩
      · exact ⟨queries, hyields, rfl, by simp [pollFut, owed, hfut]⟩
  | none =>
      rw [idle_of_eq_none hfut] at hyields
      cases hyields with
      | done hnext =>
          have hpoll : pollNext answer s = ([.done], s) := by
            rw [pollNext, hfut]
            dsimp only
            rw [hnext]
          rw [hpoll]
          exact ⟨[], by rw [idle_of_eq_none hfut]; exact .done hnext, rfl, by simp [owed, hfut]⟩
      | @item _ t q rest hnext hrest =>
          have hpoll : pollNext answer s = (.issued q :: (t.pollFut q answer).1, (t.pollFut q answer).2) := by
            rw [pollNext, hfut]
            dsimp only
            rw [hnext]
          have hidle := (idle_of_eq_none ((fut1_of_makeNextQueryFut hnext).trans hfut)).symm
          rw [hidle] at hrest
          rw [hpoll]
          rcases answer with - | (e | entries)
          · exact ⟨rest, hrest, rfl, by simp [pollFut, owed, hfut]⟩
          · exact ⟨rest, hrest, rfl, by simp [pollFut, owed, hfut]⟩
          · exact ⟨rest, hrest, rfl, by simp [pollFut, owed, hfut]⟩

/-- In every run the queries are issued in order, and all of them once enough of them are answered. -/
theorem run_issued (hyields : Yields makeNextQueryFut s.idle queries)
    (answers : List (Option (Except E (List BinWriteIndexEntry)))) :
    ∃ rest, issued (machine.run answers s).1 ++ rest = queries ∧ rest.length ≤ s.owed queries - answered answers := by
  induction answers generalizing s queries with
  | nil => exact ⟨queries, rfl, by simp [owed, answered]⟩
  | cons answer answers ih =>
      rcases pollNext_spec hyields answer with ⟨next, hnext, hissued, howed⟩
      rcases ih hnext with ⟨rest, hrest, hlen⟩
      refine ⟨rest, ?_, ?_⟩
      · rw [Machine.run_cons, issued_append, List.append_assoc]
        exact (congrArg _ hrest).trans hissued
      · have hanswered : answered (answer :: answers) = (if answer.isSome then 1 else 0) + answered answers := by
          cases answer with
          | none => exact (Nat.zero_add _).symm
          | some _ => exact Nat.add_comm _ _
        rw [hanswered]
        omega

/-- The queries that the stream issues -/
structure Issues (E : Type) (s : BinWriteIndexRtStream) (queries : List BinWriteIndexRead) : Prop where
  inOrder : ∀ answers, issued ((machine (E := E)).run answers s).1 <+: queries
  all : ∀ answers, queries.length ≤ answered answers → issued ((machine (E := E)).run answers s).1 = queries

theorem issues_of_yields (hfut : s.fut1 = none) (hyields : Yields makeNextQueryFut s queries) :
    Issues E s queries := by
  rw [← idle_of_eq_none hfut] at hyields
  constructor
  · intro answers
    rcases run_issued hyields answers with ⟨rest, hrest, -⟩
    exact ⟨rest, hrest⟩
  · intro answers hle
    rcases run_issued hyields answers with ⟨rest, hrest, hlen⟩
    have howed : s.owed queries = queries.length := by simp [owed, hfut]
    obtain rfl : rest = [] := List.eq_nil_of_length_eq_zero (by omega)
    rw [← hrest, List.append_nil]

theorem Issues.unique {queries' : List BinWriteIndexRead} (h : Issues E s queries) (h' : Issues E s queries') :
    queries = queries' := by
  set answers : List (Option (Except E (List BinWriteIndexEntry))) :=
    List.replicate (queries.length + queries'.length) (some (.ok [])) with hanswers
  have hlen : answered answers = queries.length + queries'.length := by
    rw [answered, hanswers, List.filter_replicate_of_pos rfl, List.length_replicate]
  exact (h.all answers (by omega)).symm.trans (h'.all answers (by omega))

end Runs

/-! ## The queries -/

section Queries

variable {p : PrebinnedPartitioning} {beg fin k n : ℕ} (rt : RetentionTime) (series : ℕ)

/-- The stream that is to read from one bin to another -/
def between (p : PrebinnedPartitioning) (k n : ℕ) : BinWriteIndexRtStream where
  rt := rt
  series := series
  pbp := p
  msp := k / p.patchLen
  lspMin := k % p.patchLen
  mspEnd := n / p.patchLen
  lspEnd := n % p.patchLen
  fut1 := none

/-- The queries are for the series, and their partitions increase. -/
structure Ordered (p : PrebinnedPartitioning) (queries : List BinWriteIndexRead) : Prop where
  series_eq : ∀ q ∈ queries, q.rt = rt ∧ q.series = series ∧ q.pbp = p
  increasing : queries.Pairwise fun q q' => q.msp < q'.msp

/-- Before the last partition, the query is for the rest of the partition. -/
theorem next_partition (hn : n / p.patchLen < 2 ^ 32) (hpart : k / p.patchLen < n / p.patchLen) :
    (between rt series p k n).makeNextQueryFut =
      some (⟨rt, series, p, k / p.patchLen, k % p.patchLen, p.patchLen⟩,
        between rt series p (p.patchLen * (k / p.patchLen + 1)) n) := by
  have hnext : (k / p.patchLen + 1) % 2 ^ 32 = k / p.patchLen + 1 := Nat.mod_eq_of_lt (by omega)
  simp only [makeNextQueryFut, between, hnext, if_pos hpart.le, if_neg (Nat.not_lt.mpr (Nat.succ_le_of_lt hpart)),
    Nat.mul_div_cancel_left _ p.patchLen_pos, Nat.mul_mod_right]

/-- In the last partition, the query is for what is left, and there is no other one. -/
theorem yields_last (hn : n / p.patchLen + 1 < 2 ^ 32) (hpart : k / p.patchLen = n / p.patchLen) :
    Yields makeNextQueryFut (between rt series p k n)
      [⟨rt, series, p, k / p.patchLen, k % p.patchLen, n % p.patchLen⟩] := by
  have hnext : (k / p.patchLen + 1) % 2 ^ 32 = n / p.patchLen + 1 := by
    rw [hpart, Nat.mod_eq_of_lt hn]
  have hstep : (between rt series p k n).makeNextQueryFut =
      some (⟨rt, series, p, k / p.patchLen, k % p.patchLen, n % p.patchLen⟩,
        { between rt series p k n with msp := n / p.patchLen + 1, lspMin := 0 }) := by
    simp only [makeNextQueryFut, between, hnext, if_pos hpart.le, if_pos (Nat.lt_succ_self _)]
  exact Yields.item hstep (Yields.done (if_neg (Nat.not_le.mpr (Nat.lt_succ_self _))))

/-- The queries from one bin to another, one for each partition -/
theorem yields_queries (hle : k ≤ n) (hn : n / p.patchLen + 1 < 2 ^ 32) :
    ∃ queries, Yields makeNextQueryFut (between rt series p k n) queries ∧ Ordered rt series p queries ∧
      (∀ q ∈ queries, k / p.patchLen ≤ q.msp) ∧ queries.flatMap BinWriteIndexRead.keys = keysFrom p k n := by
  induction hcount : n / p.patchLen - k / p.patchLen generalizing k with
  | zero =>
      have hpart : k / p.patchLen = n / p.patchLen :=
        le_antisymm (Nat.div_le_div_right hle) (Nat.le_of_sub_eq_zero hcount)
      refine ⟨_, yields_last rt series hn hpart, ⟨by simp, List.pairwise_singleton _ _⟩, by simp, ?_⟩
      rw [List.flatMap_cons, List.flatMap_nil, List.append_nil]
      exact MspChunkerItem.keys_last hle hpart
  | succ count ih =>
      have hpart : k / p.patchLen < n / p.patchLen := by omega
      have hstep := next_partition rt series (by omega) hpart
      have hnext : p.patchLen * (k / p.patchLen + 1) ≤ n :=
        (Nat.mul_le_mul_left _ hpart).trans (Nat.mul_div_le n p.patchLen)
      have hdiv : p.patchLen * (k / p.patchLen + 1) / p.patchLen = k / p.patchLen + 1 :=
        Nat.mul_div_cancel_left _ p.patchLen_pos
      have hlt' : k < p.patchLen * (k / p.patchLen + 1) := Nat.lt_mul_div_succ k p.patchLen_pos
      rcases ih hnext (by omega) with ⟨queries, hyields, hordered, hmsp, hrest⟩
      rw [hdiv] at hmsp
      refine ⟨_, Yields.item hstep hyields, ⟨?_, ?_⟩, ?_, ?_⟩
      · exact List.forall_mem_cons.mpr ⟨⟨rfl, rfl, rfl⟩, hordered.series_eq⟩
      · exact List.pairwise_cons.mpr ⟨fun q hq => hmsp q hq, hordered.increasing⟩
      · exact List.forall_mem_cons.mpr ⟨le_rfl, fun q hq => (Nat.le_succ _).trans (hmsp q hq)⟩
      · rw [List.flatMap_cons, hrest]
        exact (congrArg (· ++ keysFrom p _ n) (MspChunkerItem.keys_rest p k)).trans (keysFrom_append hlt'.le hnext)

/-- The end of the range, where the sum does not wrap around -/
theorem endMs_of_lt (hfits : fin + (p.binLen - 1) * 1000000 < 2 ^ 64) :
    endMs p fin = fin / 1000000 + (p.binLen - 1) := by
  rw [endMs, Nat.mod_eq_of_lt hfits, Nat.add_mul_div_right _ _ (by decide)]

theorem new_eq (hle : beg ≤ fin) (hfits : fin + (p.binLen - 1) * 1000000 < 2 ^ 64) :
    new rt series p beg fin = between rt series p (firstIx p beg) (endIx p fin) := by
  have hbin := p.binLen_le
  rw [new, endMs_of_lt hfits, p.mspLsp_of_representable (p.representable_of_lt (by omega)),
    p.mspLsp_of_representable (p.representable_of_lt (by omega))]
  rfl

/-- Where the sum wraps around, the end is the first key of all. -/
theorem mspLsp_endMs_of_le (hfin : fin < 2 ^ 64) (hwraps : 2 ^ 64 ≤ fin + (p.binLen - 1) * 1000000) :
    p.mspLsp (endMs p fin) = (0, 0) := by
  have hbin := p.binLen_le
  have hpos := p.binLen_pos
  have hlt : endMs p fin < p.binLen := by
    rw [endMs]
    omega
  rw [p.mspLsp_of_representable (p.representable_of_lt (by omega)), Nat.div_eq_of_lt hlt,
    PrebinnedPartitioning.keyAt, Nat.zero_div, Nat.zero_mod]

/-- A stream that ends at the first key of all has at most one query, which is for no key. -/
theorem yields_nothing {s : BinWriteIndexRtStream} (hmsp : s.mspEnd = 0) (hlsp : s.lspEnd = 0) :
    ∃ queries, Yields makeNextQueryFut s queries ∧ Ordered s.rt s.series s.pbp queries ∧
      queries.flatMap BinWriteIndexRead.keys = [] := by
  rcases Nat.eq_zero_or_pos s.msp with hzero | hpos
  · have hstep : s.makeNextQueryFut =
        some (⟨s.rt, s.series, s.pbp, 0, s.lspMin, 0⟩, { s with msp := 1, lspMin := 0 }) := by
      simp [makeNextQueryFut, hzero, hmsp, hlsp]
    have hend : makeNextQueryFut { s with msp := 1, lspMin := 0 } = none := by
      simp [makeNextQueryFut, hmsp]
    refine ⟨_, Yields.item hstep (Yields.done hend), ⟨by simp, List.pairwise_singleton _ _⟩, ?_⟩
    simp [BinWriteIndexRead.keys, MspChunkerItem.keys]
  · have hend : s.makeNextQueryFut = none := if_neg (by omega)
    exact ⟨[], Yields.done hend, ⟨by simp, List.Pairwise.nil⟩, rfl⟩

end Queries

end BinWriteIndexRtStream

/-! ## Covering a range -/

section Covering

variable {E : Type} {rt : RetentionTime} {series : ℕ} {p : PrebinnedPartitioning} {beg fin : ℕ}

/-- The queries that are issued are finitely many, disjoint and in order, and they are for the keys that
{lit}`MspLspIter` enumerates, which are those of the bins that overlap the range. -/
structure QueriesExact (E : Type) (rt : RetentionTime) (series : ℕ) (p : PrebinnedPartitioning) (beg fin : ℕ)
    (queries : List BinWriteIndexRead) (keys : List (ℕ × ℕ)) : Prop where
  issues : BinWriteIndexRtStream.Issues E (BinWriteIndexRtStream.new rt series p beg fin) queries
  ordered : BinWriteIndexRtStream.Ordered rt series p queries
  yields : Yields MspLspIter.next (MspLspIter.newCovering beg fin p) keys
  bins : ∀ key, key ∈ keys ↔ ∃ k, Overlaps p beg fin k ∧ p.keyAt k = key
  concat : queries.flatMap BinWriteIndexRead.keys = keys

/-- Nothing is asked for where the sum for the end wraps around. -/
theorem issues_nothing (E : Type) (rt : RetentionTime) (series beg : ℕ) (hfin : fin < 2 ^ 64)
    (hwraps : 2 ^ 64 ≤ fin + (p.binLen - 1) * 1000000) :
    ∃ queries, BinWriteIndexRtStream.Issues E (BinWriteIndexRtStream.new rt series p beg fin) queries ∧
      BinWriteIndexRtStream.Ordered rt series p queries ∧ queries.flatMap BinWriteIndexRead.keys = [] := by
  have hend := BinWriteIndexRtStream.mspLsp_endMs_of_le hfin hwraps
  rcases BinWriteIndexRtStream.yields_nothing (s := BinWriteIndexRtStream.new rt series p beg fin)
    (congrArg Prod.fst hend) (congrArg Prod.snd hend) with ⟨queries, hyields, hordered, hkeys⟩
  exact ⟨queries, BinWriteIndexRtStream.issues_of_yields rfl hyields, hordered, hkeys⟩

/-- The bin of the begin of a range that is not empty overlaps it. -/
theorem overlaps_firstIx (hlt : beg < fin) : Overlaps p beg fin (firstIx p beg) := by
  refine (overlaps_iff hlt).mpr ⟨le_rfl, lt_of_le_of_lt ?_ hlt⟩
  rw [firstIx, Nat.div_div_eq_div_mul, mul_comm p.binLen]
  exact Nat.mul_div_le beg _

theorem not_overlaps_self (k : ℕ) : ¬ Overlaps p beg beg k :=
  fun ⟨_, hbeg, hfin, _⟩ => absurd hbeg (not_le.mpr hfin)

/-- The queries are for exactly the bins that overlap the range, if and only if the range ends as it should, and a range
that is not empty ends so early that the length of a bin can be added to its end. -/
theorem queriesExact_iff (hle : beg ≤ fin) (hfin : fin < 2 ^ 64) :
    (∃ queries keys, QueriesExact E rt series p beg fin queries keys) ↔
      EndsOnMs p beg fin ∧ (beg < fin → fin + (p.binLen - 1) * 1000000 < 2 ^ 64) := by
  have hyields := MspLspIter.yields_newCovering (p := p) hle hfin
  constructor
  · intro ⟨queries, keys, h⟩
    obtain rfl := hyields.unique h.yields
    refine ⟨(forall_mem_keysFrom_iff hle).mp h.bins, fun hlt => ?_⟩
    by_contra hwraps
    rcases issues_nothing E rt series beg hfin (not_lt.mp hwraps) with
      ⟨queries', hissues, -, hnothing⟩
    obtain rfl := h.issues.unique hissues
    have hmem := (h.bins _).mpr ⟨_, overlaps_firstIx hlt, rfl⟩
    rw [← h.concat, hnothing] at hmem
    exact List.not_mem_nil hmem
  · intro ⟨hends, hfits⟩
    have hbins := (forall_mem_keysFrom_iff hle).mpr hends
    rcases Nat.lt_or_ge (fin + (p.binLen - 1) * 1000000) (2 ^ 64) with hlt | hwraps
    · rcases BinWriteIndexRtStream.yields_queries rt series (firstIx_le_endIx hle) (endIx_succ_fits hfin) with
        ⟨queries, hqueries, hordered, -, hkeys⟩
      rw [← BinWriteIndexRtStream.new_eq rt series hle hlt] at hqueries
      exact ⟨queries, _, BinWriteIndexRtStream.issues_of_yields rfl hqueries, hordered, hyields, hbins, hkeys⟩
    · -- the range is empty, and no bin overlaps it
      obtain rfl : beg = fin := le_antisymm hle (not_lt.mp fun hlt => absurd (hfits hlt) (not_lt.mpr hwraps))
      rcases issues_nothing E rt series beg hfin hwraps with
        ⟨queries, hissues, hordered, hnothing⟩
      have hnil : keysFrom p (firstIx p beg) (endIx p beg) = [] := by
        refine List.eq_nil_iff_forall_not_mem.mpr fun key hkey => ?_
        rcases (hbins key).mp hkey with ⟨k, hk, -⟩
        exact not_overlaps_self k hk
      exact ⟨queries, _, hissues, hordered, hyields, hbins, hnothing.trans hnil.symm⟩

/-- A range that ends in a bin, over the end of a partition -/
theorem queriesExact_iff_sec1 :
    (∃ queries keys, QueriesExact Unit .short 7 .sec1 1199500000000 1201500000000 queries keys) ↔
      EndsOnMs .sec1 1199500000000 1201500000000 ∧
        (1199500000000 < 1201500000000 →
          1201500000000 + (PrebinnedPartitioning.binLen .sec1 - 1) * 1000000 < 2 ^ 64) :=
  queriesExact_iff (by decide) (by decide)

/-- The range from 1 s to 2 s and a nanosecond overlaps the bin that begins at 2 s, and no query is for that one. -/
theorem not_queriesExact_nanosecond :
    ¬ ∃ queries keys, QueriesExact Unit .short 7 .sec1 1000000000 2000000001 queries keys := by
  intro ⟨queries, keys, h⟩
  obtain rfl := (MspLspIter.yields_newCovering (by decide) (by decide)).unique h.yields
  exact absurd ((forall_mem_keysFrom_iff (by decide)).mp h.bins) (by decide)

end Covering

end Scylla
end Daqbuf
