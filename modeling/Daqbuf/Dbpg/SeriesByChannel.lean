import Daqbuf.Dbpg.Table
import Daqbuf.Netpod.Types
import Daqbuf.Search.LastMatch
/-!
# Series of Channels

The table of the series, and how a worker looks up the series of a batch of channels.  A channel may have several
rows, for different types and shapes; each row lists the times since when it has been in use, and the row of the
latest time decides.

Times are natural numbers.  The id of a series stands for the 64 bits of the column.

Main results:

- Theorem {lit}`select_ok_iff`: the rows found for a batch must be readable, and then each query gets its decision.
- Theorem {lit}`series?_decideUnfolded`: the series found is that of the last entry that matches.
-/

namespace Daqbuf
namespace Dbpg

open Netpod Search

/-! ## Rows and queries -/

/-- A row of {lit}`series_by_channel` -/
structure Row where
  series : UInt64
  facility : String
  channel : String
  kind : ℤ
  scalarType : ℤ
  shapeDims : List ℤ
  aggKind : ℤ
  tscs : List ℕ
  deriving DecidableEq, Repr

/-- The columns of {lit}`series_by_channel_nondup_02` -/
def Row.key (r : Row) : String × String × ℤ × ℤ × List ℤ × ℤ :=
  (r.facility, r.channel, r.kind, r.scalarType, r.shapeDims, r.aggKind)

/-- The table {lit}`series_by_channel` -/
abbrev SeriesTable := Table Row.series Row.key

/-- {lit}`ChannelInfoQuery` -/
structure ChannelInfoQuery where
  backend : String
  channel : String
  kind : SeriesKind
  scalarType : ScalarType
  shape : DataShape
  deriving DecidableEq, Repr

/-- {lit}`MatchingSeries` -/
inductive MatchingSeries where
  | doesntExist
  | usedBefore (series : UInt64)
  | latest (series : UInt64)
  deriving DecidableEq, Repr

/-- {lit}`RegisteredSeries` -/
inductive RegisteredSeries where
  | created (series : UInt64)
  | updated (series : UInt64)
  | current (series : UInt64)
  deriving DecidableEq, Repr

/-- {lit}`to_series` -/
def RegisteredSeries.toSeries : RegisteredSeries → UInt64
  | created s | updated s | current s => s

/-- The errors of the worker, without those of the database -/
inductive SeriesError where
  | createSeriesFail
  | seriesMissing
  | dbConsistencySeries (text : String)
  | scalarType (k : ℤ)
  | shape
  | seriesKind (k : ℤ)
  deriving DecidableEq, Repr

/-- How the worker stops: with an error, or because it unwraps one of the database. -/
inductive Fault where
  | error (e : SeriesError)
  | panicked
  deriving DecidableEq, Repr

/-- {lit}`shape_equiv` -/
def shapeEquiv : DataShape → DataShape → Bool
  | .scalar, .scalar => true
  | .wave _, .wave _ => true
  | .image _ _, .image _ _ => true
  | _, _ => false

/-- What is read of a row -/
structure Found where
  series : UInt64
  kind : SeriesKind
  scalarType : ScalarType
  shape : DataShape
  tscs : List ℕ
  deriving DecidableEq, Repr

/-- Reads a row. -/
def readRow (r : Row) : Except SeriesError Found :=
  match ScalarType.fromScyllaI32 r.scalarType with
  | none => .error (.scalarType r.scalarType)
  | some scalarType =>
      match DataShape.fromScyllaShapeDims r.shapeDims with
      | none => .error .shape
      | some shape =>
          match SeriesKind.fromDbI16 r.kind with
          | none => .error (.seriesKind r.kind)
          | some kind => .ok ⟨r.series, kind, scalarType, shape, r.tscs⟩

/-! ## The decision -/

/-- {lit}`assert_order` for one row: each time is later than the one before it. -/
def inOrder : List ℕ → Bool
  | x :: y :: zs => if y ≤ x then false else inOrder (y :: zs)
  | _ => true

/-- {lit}`assert_order` -/
def assertOrder (v : List (List ℕ)) : Except SeriesError Unit :=
  if v.all inOrder then .ok () else .error (.dbConsistencySeries "tscs not in order")

/-- {lit}`unfold_series_rows` -/
def unfoldSeriesRows (acc : List Found) : List (Found × ℕ) :=
  byTime Prod.snd (acc.flatMap fun g => g.tscs.map fun h => (g, h))

/-- An entry of the wanted type and of an equivalent shape -/
def agrees (scalarType : ScalarType) (shape : DataShape) (e : Found × ℕ) : Bool :=
  e.1.scalarType = scalarType && shapeEquiv e.1.shape shape

/-- What {lit}`decide_matching_via_db` makes of the unfolded rows -/
def decideUnfolded (scalarType : ScalarType) (shape : DataShape) (unfolded : List (Found × ℕ)) : MatchingSeries :=
  match unfolded.getLast? with
  | none => .doesntExist
  | some last =>
      if agrees scalarType shape last then .latest last.1.series
      else
        match unfolded.reverse.find? (agrees scalarType shape) with
        | some e => .usedBefore e.1.series
        | none => .doesntExist

/-- {lit}`decide_matching_via_db` -/
def decideMatchingViaDb (scalarType : ScalarType) (shape : DataShape) (acc : List Found) :
    Except SeriesError MatchingSeries :=
  match assertOrder (acc.map (·.tscs)) with
  | .error e => .error e
  | .ok () => .ok (decideUnfolded scalarType shape (unfoldSeriesRows acc))

/-! ## The select statement -/

/-- A row that the select statement joins with a query -/
def ChannelInfoQuery.Joins (q : ChannelInfoQuery) (r : Row) : Prop :=
  r.facility = q.backend ∧ r.channel = q.channel ∧ r.kind = q.kind.toDbI16 ∧ r.aggKind = 0

instance (q : ChannelInfoQuery) (r : Row) : Decidable (q.Joins r) := inferInstanceAs (Decidable (_ ∧ _))

/-- The rows that the select statement joins with a query -/
def joined (t : SeriesTable) (q : ChannelInfoQuery) : List Row := t.rows.filter fun r => q.Joins r

/-- In which order a statement gives the rows of a query.  The statement only says that those of the first query come
first. -/
structure Plan where
  arrange : ℕ → List Row → List Row
  perm : ∀ rid rows, (arrange rid rows).Perm rows

/-- The result of the select statement: the position of a query, with a row -/
def selectRows (plan : Plan) (t : SeriesTable) (batch : List ChannelInfoQuery) : List (ℕ × Row) :=
  batch.zipIdx.flatMap fun x => (plan.arrange x.2 (joined t x.1)).map fun r => (x.2, r)

/-- The inner loop of {lit}`select`: takes the rows of a query. -/
def takeRid (rid : ℕ) : List (ℕ × Row) → Except SeriesError (List Found × List (ℕ × Row))
  | [] => .ok ([], [])
  | row :: rows =>
      if row.1 = rid then
        match readRow row.2 with
        | .error e => .error e
        | .ok found =>
            match takeRid rid rows with
            | .error e => .error e
            | .ok x => .ok (found :: x.1, x.2)
      else .ok ([], row :: rows)

/-- The outer loop of {lit}`select` -/
def selectLoop : List (ChannelInfoQuery × ℕ) → List (ℕ × Row) →
    Except SeriesError (List (ChannelInfoQuery × MatchingSeries))
  | [], _ => .ok []
  | job :: jobs, rows =>
      match takeRid job.2 rows with
      | .error e => .error e
      | .ok x =>
          match decideMatchingViaDb job.1.scalarType job.1.shape x.1 with
          | .error e => .error e
          | .ok status =>
              match selectLoop jobs x.2 with
              | .error e => .error e
              | .ok result => .ok ((job.1, status) :: result)

/-- {lit}`select`.  A batch has fewer queries than {lit}`i32` can count. -/
def select (plan : Plan) (t : SeriesTable) (batch : List ChannelInfoQuery) :
    Except SeriesError (List (ChannelInfoQuery × MatchingSeries)) :=
  selectLoop batch.zipIdx (selectRows plan t batch)

/-! ## What is looked up -/

/-- A row that can be read, with its times in order -/
def Row.Readable (r : Row) : Prop := (∃ f, readRow r = .ok f) ∧ inOrder r.tscs

/-- What is read of rows -/
def read (rows : List Row) : List Found := rows.filterMap fun r => (readRow r).toOption

/-- The decision for a query, from its rows in some order -/
def decision (q : ChannelInfoQuery) (rows : List Row) : MatchingSeries :=
  decideUnfolded q.scalarType q.shape (unfoldSeriesRows (read rows))

variable {plan : Plan} {t : SeriesTable} {batch : List ChannelInfoQuery} {q : ChannelInfoQuery} {r : Row} {rows : List Row}
  {f : Found} {rid : ℕ}

theorem readRow_ok_iff : readRow r = .ok f ↔
    ScalarType.fromScyllaI32 r.scalarType = some f.scalarType ∧
      DataShape.fromScyllaShapeDims r.shapeDims = some f.shape ∧ SeriesKind.fromDbI16 r.kind = some f.kind ∧
        r.series = f.series ∧ r.tscs = f.tscs := by
  unfold readRow
  cases hscalar : ScalarType.fromScyllaI32 r.scalarType with
  | none => exact iff_of_false nofun fun h => nomatch h.1
  | some scalarType =>
      cases hshape : DataShape.fromScyllaShapeDims r.shapeDims with
      | none => exact iff_of_false nofun fun h => nomatch h.2.1
      | some shape =>
          cases hkind : SeriesKind.fromDbI16 r.kind with
          | none => exact iff_of_false nofun fun h => nomatch h.2.2.1
          | some kind =>
              cases f
              simp only [Except.ok.injEq, Found.mk.injEq, Option.some.injEq]
              tauto

theorem toOption_eq_some {α ε : Type} {x : Except ε α} {a : α} : x.toOption = some a ↔ x = .ok a := by
  cases x with
  | error e => exact iff_of_false nofun nofun
  | ok b => exact ⟨fun h => congrArg _ (Option.some.inj h), fun h => congrArg _ (Except.ok.inj h)⟩

theorem mem_read : f ∈ read rows ↔ ∃ r ∈ rows, readRow r = .ok f := by
  unfold read
  rw [List.mem_filterMap]
  apply exists_congr
  intro r
  exact and_congr_right fun _ => toOption_eq_some

theorem read_cons (h : readRow r = .ok f) : read (r :: rows) = f :: read rows := by
  unfold read
  apply List.filterMap_cons_some
  rw [h]
  rfl

/-- The inner loop takes the rows of its query, if these can be read. -/
theorem takeRid_ok_iff {rest : List (ℕ × Row)} {x : List Found × List (ℕ × Row)} (hrest : ∀ y ∈ rest, y.1 ≠ rid) :
    takeRid rid (rows.map (fun r => (rid, r)) ++ rest) = .ok x ↔
      (∀ r ∈ rows, ∃ f, readRow r = .ok f) ∧ x = (read rows, rest) := by
  induction rows generalizing x with
  | nil =>
      rw [and_iff_right (List.forall_mem_nil _), List.map_nil, List.nil_append]
      cases rest with
      | nil => exact ⟨fun h => (Except.ok.inj h).symm, fun h => congrArg _ h.symm⟩
      | cons y rest =>
          rw [takeRid, if_neg (hrest y List.mem_cons_self)]
          exact ⟨fun h => (Except.ok.inj h).symm, fun h => congrArg _ h.symm⟩
  | cons r rows ih =>
      rw [List.map_cons, List.cons_append, takeRid, if_pos rfl, List.forall_mem_cons]
      cases hread : readRow r with
      | error e => exact iff_of_false nofun fun h => nomatch h.1.1
      | ok f =>
          rw [read_cons hread]
          simp only
          cases htake : takeRid rid (rows.map (fun r => (rid, r)) ++ rest) with
          | error e =>
              apply iff_of_false nofun
              rintro ⟨⟨-, hall⟩, -⟩
              have hok := ih.mpr ⟨hall, rfl⟩
              rw [htake] at hok
              cases hok
          | ok y =>
              obtain ⟨hall, rfl⟩ := ih.mp htake
              constructor
              · rintro ⟨⟩
                exact ⟨⟨⟨f, rfl⟩, hall⟩, rfl⟩
              · rintro ⟨-, rfl⟩
                rfl

theorem decideMatchingViaDb_ok_iff {acc : List Found} {status : MatchingSeries} :
    decideMatchingViaDb q.scalarType q.shape acc = .ok status ↔
      (∀ f ∈ acc, inOrder f.tscs) ∧ status = decideUnfolded q.scalarType q.shape (unfoldSeriesRows acc) := by
  unfold decideMatchingViaDb assertOrder
  rw [List.all_map]
  by_cases hall : acc.all (inOrder ∘ fun f => f.tscs)
  · rw [if_pos hall]
    exact ⟨fun h => ⟨List.all_eq_true.mp hall, (Except.ok.inj h).symm⟩, fun h => congrArg _ h.2.symm⟩
  · rw [if_neg hall]
    exact iff_of_false nofun fun h => hall (List.all_eq_true.mpr h.1)

/-- Rows can be read, and their times are in order, in any order of the rows. -/
theorem forall_readable_iff {arranged : List Row} (hperm : arranged.Perm rows) :
    (∀ r ∈ rows, r.Readable) ↔ (∀ r ∈ arranged, ∃ f, readRow r = .ok f) ∧ ∀ f ∈ read arranged, inOrder f.tscs := by
  constructor
  · intro h
    refine ⟨fun r hr => (h r (hperm.mem_iff.mp hr)).1, fun f hf => ?_⟩
    obtain ⟨r, hr, hread⟩ := mem_read.mp hf
    rw [← (readRow_ok_iff.mp hread).2.2.2.2]
    exact (h r (hperm.mem_iff.mp hr)).2
  · rintro ⟨hread, horder⟩ r hr
    obtain ⟨f, hf⟩ := hread r (hperm.mem_iff.mpr hr)
    refine ⟨⟨f, hf⟩, ?_⟩
    rw [(readRow_ok_iff.mp hf).2.2.2.2]
    exact horder f (mem_read.mpr ⟨r, hperm.mem_iff.mpr hr, hf⟩)

/-- The jobs get their decisions, if all their rows can be read. -/
theorem selectLoop_ok_iff {jobs : List (ChannelInfoQuery × ℕ)} {result : List (ChannelInfoQuery × MatchingSeries)}
    (hnodup : (jobs.map Prod.snd).Nodup) :
    selectLoop jobs (jobs.flatMap fun x => (plan.arrange x.2 (joined t x.1)).map fun r => (x.2, r)) = .ok result ↔
      (∀ x ∈ jobs, ∀ r ∈ joined t x.1, r.Readable) ∧
        result = jobs.map fun x => (x.1, decision x.1 (plan.arrange x.2 (joined t x.1))) := by
  induction jobs generalizing result with
  | nil => exact ⟨fun h => ⟨List.forall_mem_nil _, (Except.ok.inj h).symm⟩, fun h => congrArg _ h.2.symm⟩
  | cons job jobs ih =>
      obtain ⟨hjob, hjobs⟩ := List.nodup_cons.mp hnodup
      have hrest : ∀ y ∈ jobs.flatMap (fun x => (plan.arrange x.2 (joined t x.1)).map fun r => (x.2, r)), y.1 ≠ job.2 := by
        intro y hy hsame
        obtain ⟨x, hx, hy⟩ := List.mem_flatMap.mp hy
        obtain ⟨r, -, rfl⟩ := List.mem_map.mp hy
        exact hjob (hsame ▸ List.mem_map_of_mem hx)
      rw [List.flatMap_cons, selectLoop, List.forall_mem_cons, List.map_cons,
        forall_readable_iff (plan.perm job.2 (joined t job.1))]
      cases htake : takeRid job.2 ((plan.arrange job.2 (joined t job.1)).map (fun r => (job.2, r)) ++
          jobs.flatMap fun x => (plan.arrange x.2 (joined t x.1)).map fun r => (x.2, r)) with
      | error e =>
          apply iff_of_false nofun
          rintro ⟨⟨⟨hread, -⟩, -⟩, -⟩
          have hok := (takeRid_ok_iff hrest).mpr ⟨hread, rfl⟩
          rw [htake] at hok
          cases hok
      | ok x =>
          obtain ⟨hread, rfl⟩ := (takeRid_ok_iff hrest).mp htake
          simp only
          cases hdecide : decideMatchingViaDb job.1.scalarType job.1.shape
              (read (plan.arrange job.2 (joined t job.1))) with
          | error e =>
              apply iff_of_false nofun
              rintro ⟨⟨⟨-, horder⟩, -⟩, -⟩
              have hok := (decideMatchingViaDb_ok_iff (q := job.1)).mpr ⟨horder, rfl⟩
              rw [hdecide] at hok
              cases hok
          | ok status =>
              obtain ⟨horder, rfl⟩ := decideMatchingViaDb_ok_iff.mp hdecide
              simp only
              cases hloop : selectLoop jobs
                  (jobs.flatMap fun x => (plan.arrange x.2 (joined t x.1)).map fun r => (x.2, r)) with
              | error e =>
                  apply iff_of_false nofun
                  rintro ⟨⟨-, hall⟩, -⟩
                  have hok := (ih hjobs).mpr ⟨hall, rfl⟩
                  rw [hloop] at hok
                  cases hok
              | ok rest =>
                  obtain ⟨hall, rfl⟩ := (ih hjobs).mp hloop
                  constructor
                  · rintro ⟨⟩
                    exact ⟨⟨⟨hread, horder⟩, hall⟩, rfl⟩
                  · rintro ⟨-, rfl⟩
                    rfl

/-- The rows found for a batch must be readable, and then each query gets its decision. -/
theorem select_ok_iff {result : List (ChannelInfoQuery × MatchingSeries)} :
    select plan t batch = .ok result ↔
      (∀ q ∈ batch, ∀ r ∈ joined t q, r.Readable) ∧
        result = batch.zipIdx.map fun x => (x.1, decision x.1 (plan.arrange x.2 (joined t x.1))) := by
  have hnodup : (batch.zipIdx.map Prod.snd).Nodup := by
    rw [List.zipIdx_map_snd]
    exact List.nodup_range'
  unfold select selectRows
  rw [selectLoop_ok_iff hnodup]
  apply and_congr_left
  intro _
  constructor
  · intro h q hq
    obtain ⟨i, hi, rfl⟩ := List.mem_iff_getElem.mp hq
    exact h (batch[i], i) (List.mk_mem_zipIdx_iff_getElem?.mpr (List.getElem?_eq_getElem hi))
  · intro h x hx
    exact h x.1 (List.fst_mem_of_mem_zipIdx hx)

/-! ## The decision -/

/-- The row has the type and an equivalent shape of the query. -/
def Row.Agrees (r : Row) (q : ChannelInfoQuery) : Prop :=
  ScalarType.fromScyllaI32 r.scalarType = some q.scalarType ∧
    ∃ shape, DataShape.fromScyllaShapeDims r.shapeDims = some shape ∧ shapeEquiv shape q.shape

/-- The series that a look up has found -/
def MatchingSeries.series? : MatchingSeries → Option UInt64
  | doesntExist => none
  | usedBefore s | latest s => some s

theorem series?_decideUnfolded {scalarType : ScalarType} {shape : DataShape} {unfolded : List (Found × ℕ)} :
    (decideUnfolded scalarType shape unfolded).series? =
      (unfolded.reverse.find? (agrees scalarType shape)).map fun e => e.1.series := by
  unfold decideUnfolded
  rcases List.eq_nil_or_concat unfolded with rfl | ⟨front, last, rfl⟩
  · rfl
  · rw [List.concat_eq_append, List.getLast?_concat, List.reverse_append, List.reverse_singleton, List.singleton_append]
    simp only
    by_cases hlast : agrees scalarType shape last
    · rw [if_pos hlast, List.find?_cons_of_pos hlast]
      rfl
    · rw [if_neg hlast, List.find?_cons_of_neg hlast]
      cases front.reverse.find? (agrees scalarType shape) with
      | none => rfl
      | some e => rfl

end Dbpg
end Daqbuf
