import Daqbuf.Netpod.Range
import Daqbuf.Netpod.Time
import Daqbuf.Scylla.LspFwdMspMultiRun
import Daqbuf.Search.PartitionPoint
import Daqbuf.Streams.BufferUnordered
/-!
# Reading Events

{lit}`EventsKs` reads the events of a series in a range, with the last one before it.  It asks the most recent
partitions before the range for their last events, and then those that matter for their last events before the range.
The queries of each of these two steps run concurrently, and what follows takes the order of their answers for the
order of the partitions.

An offset is below the largest one of its type, and all queries other than those for last events are answered at once.
An index that underflows ends a read; a build without the checks would wrap and go on without the event.

Main results:

- Theorem {lit}`mem_kept` and theorem {lit}`mem_opened`: which partitions the second step asks, and which are opened.
- Theorem {lit}`fwdEvents1_cases`: what the first two steps come to.
- Theorem {lit}`reads_iff`: what comes out then.
-/

namespace Daqbuf
namespace Scylla
namespace EventsKs

open Items Netpod Poll Search Streams
open LspFwdMspMulti (Error Item pages)

/-- What is stored of a series: the times of its partitions in milliseconds, and for each of them its rows, an offset
in nanoseconds and a value -/
structure Content (V : Type) where
  msps : List ℕ
  rows : ℕ → List (ℕ × V)
  msps_sorted : msps.Pairwise (· < ·)
  rows_sorted : ∀ msp, (rows msp).Pairwise fun a b => a.1 < b.1

/-- The options that the read uses: those of the queries, the retention time of the keyspace, and those for reading
forwards -/
structure Opts where
  avoidOrderDesc : Bool
  lspLstConcurrent : ℕ
  rt : RetentionTime
  fwd : LspFwdMspMulti.Opts
  deriving DecidableEq, Repr

/-- The length of the window in which partitions before the range are looked for -/
def Opts.win (o : Opts) : ℕ := o.rt.mspRolloverIvlOnRead * Timeunits.sec

/-- What can go wrong with the queries for last events.  The first is arithmetic: the index in front of the first
one. -/
inductive Fault where
  | indexUnderflow
  | lspImpossible
  deriving DecidableEq, Repr

variable {V : Type}

/-! ## Queries -/

/-- {lit}`MspEv::lsp` -/
def lsp (msp ts : ℕ) : Option ℕ := if msp * 1000000 ≤ ts then some (ts - msp * 1000000) else none

/-- {lit}`MspEv::to_ts` -/
def toTs (msp lsp : ℕ) : ℕ := msp * 1000000 + lsp

/-- What {lit}`ReadMspFwdStream` reads, in pages -/
def readMspFwd (c : Content V) (range : NanoRange) (begexcl : Bool) : List ℕ :=
  let beg := range.beg / 1000000
  let fin := range.fin / 1000000
  let beg := if begexcl then 1 + beg else beg
  c.msps.filter fun msp => decide (beg ≤ msp ∧ msp < fin)

/-- {lit}`ReadMspFwdStream::new` -/
def mspStream (c : Content V) (range : NanoRange) (begexcl : Bool) : LspFwdMspMulti.MspStream :=
  if range.beg < range.fin then some (readMspFwd c range begexcl) else none

/-- {lit}`msp_bck`: the last partitions of the window before the range -/
def mspBck (c : Content V) (o : Opts) (beg : ℕ) : List ℕ :=
  let msps := readMspFwd c ⟨delta beg o.win, beg⟩ false
  msps.drop (msps.length - 10)

/-- What {lit}`Read03LspOnly` reads -/
def readLspOnly (c : Content V) (msp : ℕ) : List ℕ := ((c.rows msp).take 812412).map Prod.fst

/-- What {lit}`Read03LspLst` reads -/
def readLspLst (c : Content V) (msp : ℕ) (fin : Option ℕ) : Option ℕ :=
  (((c.rows msp).map Prod.fst).filter fun x => fin.all fun e => decide (x < e)).getLast?

/-- What {lit}`LspFwdMspSingleStream` reads, in pages -/
def readLspFwd (c : Content V) (range : NanoRange) (msp : ℕ) : List (EventSingle V) :=
  ((c.rows msp).map fun row => ⟨toTs msp row.1, row.2⟩).filter fun ev =>
    decide (range.beg ≤ ev.ts ∧ ev.ts < range.fin)

/-! ## The last events of partitions -/

/-- One of the futures of {lit}`BckLspLst::fetch` -/
def lspLst (c : Content V) (o : Opts) (fin : Option ℕ) (msp : ℕ) : Except Fault (ℕ × Option ℕ) := do
  let fin ← match fin with
    | none => .ok none
    | some ts =>
        match lsp msp ts with
        | none => .error .lspImpossible
        | some x => .ok (some x)
  if o.avoidOrderDesc then
    let lsps := readLspOnly c msp
    let i := match fin with
      | none => lsps.length
      | some x => partitionPoint (fun y => decide (y < x)) lsps
    if i = 0 then .error .indexUnderflow else .ok (msp, lsps[i - 1]?)
  else .ok (msp, readLspLst c msp fin)

/-- {lit}`BckLspLst::fetch`, of partitions in the order in which their queries complete -/
def fetch (c : Content V) (o : Opts) (fin : Option ℕ) (msps : List ℕ) : Except Fault (List (ℕ × Option ℕ)) :=
  msps.mapM (lspLst c o fin)

/-- An order in which the queries for any partitions complete: that of the partitions if they run one after the
other, and else one that {lit}`buffer_unordered` allows -/
structure Order (n : ℕ) where
  run : List ℕ → List ℕ
  completes : ∀ msps, if n = 0 then run msps = msps else Completes n msps (run msps)

/-! ## The read -/

/-- {lit}`msp_keep_a`: the partitions that have a last event, with its time -/
def mspKeepA (lsps : List (ℕ × Option ℕ)) : List (ℕ × ℕ) :=
  lsps.filterMap fun x => x.2.map fun lsp => (x.1, toTs x.1 lsp)

/-- {lit}`ts_lst_ph1` and {lit}`ts_lst_ph2`: the last one of the times that are before the range -/
def tsLst (beg : ℕ) (keep : List (ℕ × ℕ)) : Option ℕ :=
  ((keep.map Prod.snd).filter fun ts => decide (ts < beg)).max?

/-- {lit}`msp_keep_b` -/
def mspKeepB (beg : ℕ) (keep : List (ℕ × ℕ)) : List (ℕ × ℕ) :=
  match tsLst beg keep with
  | some ts0 => keep.filter fun x => decide (ts0 ≤ x.2)
  | none => keep

/-- {lit}`LspFwdMspMulti::new` -/
def fwdEvents (c : Content V) (range : NanoRange) (msps : List ℕ) : LspFwdMspMulti.State V :=
  match msps.getLast? with
  | some msp => LspFwdMspMulti.new (mspStream c ⟨msp * 1000000, range.fin⟩ true) msps
  | none => LspFwdMspMulti.new (mspStream c range false) msps

/-- The state {lit}`FwdEvents1`, when the queries of the two steps complete in the given orders: from where events are
read, and the partitions that are opened first -/
def fwdEvents1 (c : Content V) (o : Opts) (range : NanoRange) (ph1 ph2 : Order o.lspLstConcurrent) :
    Except Fault (ℕ × List ℕ) := do
  let res1 ← fetch c o none (ph1.run (mspBck c o range.beg))
  let keepB := mspKeepB range.beg (mspKeepA res1)
  let res2 ← fetch c o (some range.beg) (ph2.run (keepB.map Prod.fst))
  let keepA := mspKeepA res2
  .ok ((tsLst range.beg keepA).getD range.beg, keepA.map Prod.fst)

/-- The events of some items, and the error that ends them -/
def outcome (items : List (Except Error (Item V))) : List (EventSingle V) × Option Error :=
  (pages (items.filterMap Except.toOption), items.findSome? fun x => match x with | .error e => some e | .ok _ => none)

/-- What comes out of {lit}`EventsKs`, when the queries of its two steps complete in the given orders -/
inductive Reads (c : Content V) (o : Opts) (range : NanoRange) (ph1 ph2 : Order o.lspLstConcurrent) :
    Except Fault (List (EventSingle V) × Option Error) → Prop
  | failed {f : Fault} (hfault : fwdEvents1 c o range ph1 ph2 = .error f) : Reads c o range ph1 ph2 (.error f)
  | read {beg : ℕ} {msps : List ℕ} {items : List (Except Error (Item V))}
      (hfwd : fwdEvents1 c o range ph1 ph2 = .ok (beg, msps))
      (hdrains : Drains (LspFwdMspMulti.pollNext o.fwd (readLspFwd c ⟨beg, range.fin⟩))
        (fwdEvents c ⟨beg, range.fin⟩ msps) items) :
      Reads c o range ph1 ph2 (.ok (outcome items))

/-! ## What the queries find -/

variable {c : Content V} {o : Opts} {fin : Option ℕ} {msp : ℕ} {msps : List ℕ}

/-- The offsets of the events of a partition that the queries see -/
def seenLsps (c : Content V) (o : Opts) (msp : ℕ) : List ℕ :=
  if o.avoidOrderDesc then readLspOnly c msp else (c.rows msp).map Prod.fst

/-- The times of these events -/
def seen (c : Content V) (o : Opts) (msp : ℕ) : List ℕ := (seenLsps c o msp).map (toTs msp)

/-- The time of the last one of these events, or of the last one before a given time -/
def lastTs (c : Content V) (o : Opts) (fin : Option ℕ) (msp : ℕ) : Option ℕ :=
  ((seen c o msp).filter fun ts => fin.all fun e => decide (ts < e)).getLast?

/-- The query has the index of this event computed, and there is none. -/
def Misses (c : Content V) (o : Opts) (fin : Option ℕ) (msp : ℕ) : Prop :=
  o.avoidOrderDesc = true ∧ lastTs c o fin msp = none

theorem seenLsps_sorted (c : Content V) (o : Opts) (msp : ℕ) : (seenLsps c o msp).Pairwise (· < ·) := by
  have hrows := c.rows_sorted msp
  unfold seenLsps
  split_ifs
  · exact List.pairwise_map.mpr (hrows.sublist (List.take_sublist _ _))
  · exact List.pairwise_map.mpr hrows

/-- The offsets of the events before the given time -/
def lspsBefore (c : Content V) (o : Opts) (fin : Option ℕ) (msp : ℕ) : List ℕ :=
  (seenLsps c o msp).filter fun x => fin.all fun e => decide (x < e - msp * 1000000)

theorem toTs_lt_iff (msp x e : ℕ) : toTs msp x < e ↔ x < e - msp * 1000000 := by
  unfold toTs
  generalize msp * 1000000 = t
  exact Nat.lt_sub_iff_add_lt'.symm

theorem lastTs_eq : lastTs c o fin msp = (lspsBefore c o fin msp).getLast?.map (toTs msp) := by
  have hbefore : (fun ts => fin.all fun e => decide (ts < e)) ∘ toTs msp =
      fun x => fin.all fun e => decide (x < e - msp * 1000000) := by
    funext x
    simp only [Function.comp_apply, toTs_lt_iff]
  unfold lspsBefore
  rw [lastTs, seen, List.filter_map, List.getLast?_map, hbefore]

/-- Computing the index of the last one of the first elements -/
theorem byIndex_eq {lsps : List ℕ} {i : ℕ} (hle : i ≤ lsps.length) :
    (if i = 0 then .error .indexUnderflow else .ok (msp, lsps[i - 1]?) : Except Fault (ℕ × Option ℕ)) =
      if lsps.take i = [] then .error .indexUnderflow else .ok (msp, (lsps.take i).getLast?) := by
  by_cases hi : i = 0
  · rw [if_pos hi, hi, List.take_zero, if_pos rfl]
  · have hne : lsps.take i ≠ [] := by
      rw [Ne, List.take_eq_nil_iff, not_or]
      refine ⟨hi, ?_⟩
      rintro rfl
      exact hi (Nat.le_zero.mp hle)
    have hget : lsps[i - 1]? = (lsps.take i).getLast? := by
      rw [List.getLast?_take, if_neg hi, List.getElem?_eq_getElem (show i - 1 < lsps.length by omega)]
      rfl
    rw [if_neg hi, if_neg hne, hget]

/-- A query without a time that ends it -/
theorem lspLst_none : lspLst c o none msp =
    if o.avoidOrderDesc = true then
      if (readLspOnly c msp).length = 0 then .error .indexUnderflow
      else .ok (msp, (readLspOnly c msp)[(readLspOnly c msp).length - 1]?)
    else .ok (msp, readLspLst c msp none) := rfl

/-- A query with a time that ends it, given the offset of this time -/
theorem lspLst_some {e x : ℕ} (hfin : fin = some e) (h : lsp msp e = some x) : lspLst c o fin msp =
    if o.avoidOrderDesc = true then
      if partitionPoint (fun y => decide (y < x)) (readLspOnly c msp) = 0 then .error .indexUnderflow
      else .ok (msp, (readLspOnly c msp)[partitionPoint (fun y => decide (y < x)) (readLspOnly c msp) - 1]?)
    else .ok (msp, readLspLst c msp (some x)) := by
  unfold lspLst
  -- With the offset closed, no comparison of terms begins to compute the product in it.
  obtain ⟨f, hf⟩ : ∃ f, lsp = f := ⟨_, rfl⟩
  rw [hf] at h ⊢
  subst hfin
  simp only [h]
  rfl

theorem filter_none (xs : List ℕ) (t : ℕ) :
    (xs.filter fun x => (none : Option ℕ).all fun e => decide (x < e - t)) = xs :=
  List.filter_eq_self.mpr fun _ _ => rfl

theorem filter_some (xs : List ℕ) (e t : ℕ) :
    (xs.filter fun x => (some e).all fun e => decide (x < e - t)) = xs.filter fun x => decide (x < e - t) := rfl

theorem readLspLst_none : readLspLst c msp none = ((c.rows msp).map Prod.fst).getLast? := by
  rw [readLspLst]
  congr 1
  exact List.filter_eq_self.mpr fun _ _ => rfl

theorem readLspLst_some (x : ℕ) :
    readLspLst c msp (some x) = (((c.rows msp).map Prod.fst).filter fun y => decide (y < x)).getLast? := rfl

/-- What a query finds, of a partition that begins before the given time -/
theorem lspLst_eq (hfin : ∀ e ∈ fin, msp * 1000000 ≤ e) :
    lspLst c o fin msp = if o.avoidOrderDesc = true ∧ lspsBefore c o fin msp = [] then .error .indexUnderflow
      else .ok (msp, (lspsBefore c o fin msp).getLast?) := by
  have hsorted := seenLsps_sorted c o msp
  unfold lspsBefore
  by_cases havoid : o.avoidOrderDesc = true
  · have hseen : seenLsps c o msp = readLspOnly c msp := if_pos havoid
    rw [hseen] at hsorted
    rw [hseen, if_congr (and_iff_right havoid) rfl rfl]
    cases fin with
    | none =>
        have hbyIndex := @byIndex_eq msp _ _ (le_refl (readLspOnly c msp).length)
        rw [List.take_length] at hbyIndex
        rw [lspLst_none, if_pos havoid, filter_none, hbyIndex]
    | some e =>
        have hlsp : lsp msp e = some (e - msp * 1000000) := if_pos (hfin e rfl)
        rw [lspLst_some rfl hlsp, if_pos havoid, filter_some]
        generalize e - msp * 1000000 = x
        have hpart : Partitioned (fun y => decide (y < x)) (readLspOnly c msp) := by
          apply hsorted.imp
          intro a b hab hb
          simp only [decide_eq_true_eq] at hb ⊢
          omega
        rw [← take_partitionPoint hpart, ← byIndex_eq (partitionPoint_le_length _ _)]
  · have hseen : seenLsps c o msp = (c.rows msp).map Prod.fst := if_neg havoid
    rw [hseen, if_neg fun h => havoid h.1]
    cases fin with
    | none =>
        rw [lspLst_none, if_neg havoid, readLspLst_none, filter_none]
    | some e =>
        have hlsp : lsp msp e = some (e - msp * 1000000) := if_pos (hfin e rfl)
        rw [lspLst_some rfl hlsp, if_neg havoid, readLspLst_some, filter_some]

/-- The partitions of which an event is found, with the time of it -/
def found (c : Content V) (o : Opts) (fin : Option ℕ) (msps : List ℕ) : List (ℕ × ℕ) :=
  msps.filterMap fun msp => (lastTs c o fin msp).map fun ts => (msp, ts)

theorem mem_found {x : ℕ × ℕ} : x ∈ found c o fin msps ↔ x.1 ∈ msps ∧ lastTs c o fin x.1 = some x.2 := by
  rw [found, List.mem_filterMap]
  constructor
  · rintro ⟨msp, hmsp, hx⟩
    obtain ⟨ts, hts, rfl⟩ := Option.map_eq_some_iff.mp hx
    exact ⟨hmsp, hts⟩
  · rintro ⟨hmsp, hts⟩
    refine ⟨x.1, hmsp, ?_⟩
    rw [hts]
    rfl

/-- A step in which each query finds an event or does not need one -/
theorem fetch_eq (hfin : ∀ msp ∈ msps, ∀ e ∈ fin, msp * 1000000 ≤ e) (hmisses : ∀ msp ∈ msps, ¬ Misses c o fin msp) :
    ∃ res, fetch c o fin msps = .ok res ∧ mspKeepA res = found c o fin msps := by
  induction msps with
  | nil => exact ⟨[], rfl, rfl⟩
  | cons msp msps ih =>
      obtain ⟨hle, hles⟩ := List.forall_mem_cons.mp hfin
      obtain ⟨hmiss, hrest⟩ := List.forall_mem_cons.mp hmisses
      obtain ⟨res, hfetch, hkeep⟩ := ih hles hrest
      have hquery : lspLst c o fin msp = .ok (msp, (lspsBefore c o fin msp).getLast?) := by
        rw [lspLst_eq hle, if_neg]
        rintro ⟨havoid, hnil⟩
        apply hmiss
        refine ⟨havoid, ?_⟩
        rw [lastTs_eq, hnil]
        rfl
      refine ⟨(msp, (lspsBefore c o fin msp).getLast?) :: res, ?_, ?_⟩
      · unfold fetch at hfetch ⊢
        rw [List.mapM_cons, hquery, hfetch]
        rfl
      · rw [mspKeepA, List.filterMap_cons, found, List.filterMap_cons, lastTs_eq]
        unfold mspKeepA found at hkeep
        cases (lspsBefore c o fin msp).getLast? with
        | none => exact hkeep
        | some x => exact congrArg _ hkeep

/-- A step in which a query needs an event and does not find it -/
theorem fetch_eq_error (hfin : ∀ msp ∈ msps, ∀ e ∈ fin, msp * 1000000 ≤ e)
    (hmisses : ∃ msp ∈ msps, Misses c o fin msp) :
    fetch c o fin msps = .error .indexUnderflow := by
  induction msps with
  | nil =>
      obtain ⟨msp, hmsp, -⟩ := hmisses
      cases hmsp
  | cons msp msps ih =>
      obtain ⟨hle, hles⟩ := List.forall_mem_cons.mp hfin
      unfold fetch at ih ⊢
      rw [List.mapM_cons, lspLst_eq hle]
      split_ifs with hunder
      · rfl
      · have hrest : ∃ msp ∈ msps, Misses c o fin msp := by
          obtain ⟨m, hm, havoid, hnone⟩ := hmisses
          refine ⟨m, ?_, havoid, hnone⟩
          apply (List.mem_cons.mp hm).resolve_left
          rintro rfl
          rw [lastTs_eq, Option.map_eq_none_iff, List.getLast?_eq_none_iff] at hnone
          exact hunder ⟨havoid, hnone⟩
        rw [ih hles hrest]
        rfl

/-- Strictly sorted: what is last is largest. -/
theorem le_getLast {xs : List ℕ} {x y : ℕ} (hsorted : xs.Pairwise (· < ·)) (hy : xs.getLast? = some y) (hx : x ∈ xs) :
    x ≤ y := by
  obtain ⟨pre, rfl⟩ := List.getLast?_eq_some_iff.mp hy
  obtain hpre | hlast := List.mem_append.mp hx
  · exact ((List.pairwise_append.mp hsorted).2.2 x hpre y List.mem_cons_self).le
  · exact (List.mem_singleton.mp hlast).le

theorem seen_sorted (c : Content V) (o : Opts) (msp : ℕ) : (seen c o msp).Pairwise (· < ·) := by
  apply List.pairwise_map.mpr
  apply (seenLsps_sorted c o msp).imp
  intro a b hab
  exact Nat.add_lt_add_left hab _

/-- The last event is one of the partition, and it is before the given time. -/
theorem mem_of_lastTs {ts : ℕ} (h : lastTs c o fin msp = some ts) : ts ∈ seen c o msp ∧ ∀ e ∈ fin, ts < e := by
  obtain ⟨hseen, hbefore⟩ := List.mem_filter.mp (List.mem_of_getLast? h)
  refine ⟨hseen, ?_⟩
  rintro e rfl
  exact of_decide_eq_true hbefore

/-- An event before the given time is not after the last one. -/
theorem le_lastTs {t : ℕ} (ht : t ∈ seen c o msp) (hbefore : ∀ e ∈ fin, t < e) :
    ∃ ts, lastTs c o fin msp = some ts ∧ t ≤ ts := by
  have hall : (fin.all fun e => decide (t < e)) = true := by
    cases fin with
    | none => rfl
    | some e => exact decide_eq_true (hbefore e rfl)
  have hmem : t ∈ (seen c o msp).filter fun ts => fin.all fun e => decide (ts < e) := List.mem_filter.mpr ⟨ht, hall⟩
  cases hlast : lastTs c o fin msp with
  | none =>
      rw [List.getLast?_eq_none_iff.mp hlast] at hmem
      cases hmem
  | some ts => exact ⟨ts, rfl, le_getLast ((seen_sorted c o msp).filter _) hlast hmem⟩

/-! ## The partitions that matter -/

variable {beg : ℕ} {keep keep' : List (ℕ × ℕ)}

theorem tsLst_eq_some {t : ℕ} :
    tsLst beg keep = some t ↔ (∃ x ∈ keep, x.2 = t) ∧ t < beg ∧ ∀ x ∈ keep, x.2 < beg → x.2 ≤ t := by
  rw [tsLst, List.max?_eq_some_iff, List.mem_filter, List.mem_map, decide_eq_true_eq, and_assoc]
  simp only [List.mem_filter, List.mem_map, decide_eq_true_eq, and_imp, forall_exists_index,
    forall_apply_eq_imp_iff₂]

theorem tsLst_eq_none : tsLst beg keep = none ↔ ∀ x ∈ keep, beg ≤ x.2 := by
  rw [tsLst, List.max?_eq_none_iff, List.filter_eq_nil_iff]
  simp only [List.mem_map, decide_eq_true_eq, not_lt, forall_exists_index, and_imp, forall_apply_eq_imp_iff₂]

/-- The order of the partitions does not matter here. -/
theorem tsLst_congr (h : ∀ x, x ∈ keep ↔ x ∈ keep') : tsLst beg keep = tsLst beg keep' := by
  apply Option.ext
  intro t
  rw [tsLst_eq_some, tsLst_eq_some]
  simp only [h]

theorem mem_mspKeepB {x : ℕ × ℕ} :
    x ∈ mspKeepB beg keep ↔ x ∈ keep ∧ ∀ y ∈ keep, y.2 < beg → y.2 ≤ x.2 := by
  unfold mspKeepB
  cases hlst : tsLst beg keep with
  | none =>
      have hafter := tsLst_eq_none.mp hlst
      refine (and_iff_left ?_).symm
      intro y hy hlt
      exact absurd (hafter y hy) (not_le.mpr hlt)
  | some ts0 =>
      obtain ⟨⟨z, hz, hzts⟩, hlt, hmax⟩ := tsLst_eq_some.mp hlst
      rw [List.mem_filter, decide_eq_true_eq]
      refine and_congr_right fun _ => ⟨fun hle y hy hy' => (hmax y hy hy').trans hle, fun hall => ?_⟩
      rw [← hzts]
      exact hall z hz (hzts ▸ hlt)

/-- A partition of the window before the range, followed by fewer than ten others there -/
def Recent (c : Content V) (o : Opts) (beg msp : ℕ) : Prop :=
  o.win ≤ beg ∧ msp ∈ c.msps ∧ (beg - o.win) / 1000000 ≤ msp ∧ msp < beg / 1000000 ∧
    (c.msps.filter fun m => decide (msp < m ∧ m < beg / 1000000)).length < 10

/-- A recent partition with events, if no recent one that ends before the range ends later -/
def Kept (c : Content V) (o : Opts) (beg msp : ℕ) : Prop :=
  Recent c o beg msp ∧ ∃ ts ∈ lastTs c o none msp,
    ∀ m, Recent c o beg m → ∀ t ∈ lastTs c o none m, t < beg → t ≤ ts

/-- One of these that has an event before the range; these are opened first. -/
def Opened (c : Content V) (o : Opts) (beg msp : ℕ) : Prop :=
  Kept c o beg msp ∧ ∃ ts, lastTs c o (some beg) msp = some ts

/-- The last elements of a sorted list are those that few others follow. -/
theorem mem_drop_iff {xs : List ℕ} {x n : ℕ} (hsorted : xs.Pairwise (· < ·)) :
    x ∈ xs.drop (xs.length - n) ↔ x ∈ xs ∧ (xs.filter fun y => decide (x < y)).length < n := by
  induction xs with
  | nil => simp
  | cons y ys ih =>
      obtain ⟨hy, hys⟩ := List.pairwise_cons.mp hsorted
      by_cases hle : ys.length < n
      · have hzero : (y :: ys).length - n = 0 := by
          rw [List.length_cons]
          omega
        rw [hzero, List.drop_zero]
        refine (and_iff_left_of_imp fun hx => ?_).symm
        have hlt : ((y :: ys).filter fun z => decide (x < z)).length < (y :: ys).length := by
          apply List.length_filter_lt_length_iff_exists.mpr
          exact ⟨x, hx, by simp⟩
        rw [List.length_cons] at hlt
        omega
      · have hsucc : (y :: ys).length - n = ys.length - n + 1 := by
          rw [List.length_cons]
          omega
        rw [hsucc, List.drop_succ_cons, ih hys]
        constructor
        · rintro ⟨hx, hlt⟩
          have hno : ¬ x < y := not_lt.mpr (hy x hx).le
          refine ⟨List.mem_cons_of_mem _ hx, ?_⟩
          rwa [List.filter_cons_of_neg (by simpa using hno)]
        · rintro ⟨hx, hlt⟩
          obtain rfl | hx := List.mem_cons.mp hx
          · have hall : ys.filter (fun z => decide (x < z)) = ys := by
              rw [List.filter_eq_self]
              intro z hz
              exact decide_eq_true (hy z hz)
            rw [List.filter_cons_of_neg (by simp), hall] at hlt
            exact absurd hlt hle
          · have hno : ¬ x < y := not_lt.mpr (hy x hx).le
            rw [List.filter_cons_of_neg (by simpa using hno)] at hlt
            exact ⟨hx, hlt⟩

theorem readMspFwd_sorted (c : Content V) (range : NanoRange) (begexcl : Bool) :
    (readMspFwd c range begexcl).Pairwise (· < ·) := c.msps_sorted.filter _

/-- From an inverted or an empty range no partition is read. -/
theorem readMspFwd_of_le {range : NanoRange} (hle : range.fin ≤ range.beg) (begexcl : Bool) :
    readMspFwd c range begexcl = [] := by
  have hdiv := Nat.div_le_div_right (c := 1000000) hle
  unfold readMspFwd
  rw [List.filter_eq_nil_iff]
  intro msp _ hmsp
  rw [decide_eq_true_eq] at hmsp
  split_ifs at hmsp <;> omega

theorem win_lt (o : Opts) : o.win < 2 ^ 64 := by
  unfold Opts.win
  cases o.rt <;> decide

/-- The partitions that the first step asks -/
theorem mspBck_spec (c : Content V) (o : Opts) (beg : ℕ) :
    (mspBck c o beg).Nodup ∧ ∀ msp, msp ∈ mspBck c o beg ↔ Recent c o beg msp := by
  constructor
  · exact ((readMspFwd_sorted c _ _).sublist (List.drop_sublist _ _)).imp fun hlt => hlt.ne
  · intro msp
    rw [mspBck, mem_drop_iff (readMspFwd_sorted c _ _)]
    by_cases hwin : o.win ≤ beg
    · rw [delta_of_le hwin]
      unfold readMspFwd
      simp only [Bool.false_eq_true, if_false, List.mem_filter, decide_eq_true_eq, List.filter_filter]
      rw [Recent, and_assoc, and_iff_right hwin]
      refine and_congr_right fun _ => ?_
      rw [and_assoc]
      refine and_congr_right fun hlow => and_congr_right fun _ => ?_
      have hsame : (c.msps.filter fun m =>
            decide (msp < m) && decide ((beg - o.win) / 1000000 ≤ m ∧ m < beg / 1000000)) =
          c.msps.filter fun m => decide (msp < m ∧ m < beg / 1000000) := by
        apply List.filter_congr
        intro m _
        rw [← Bool.decide_and]
        apply decide_eq_decide.mpr
        omega
      rw [hsame]
    · -- The begin of the window wraps around, so that the window ends before it begins.
      have hwrap : beg ≤ delta beg o.win := by
        have hlt := win_lt o
        rw [delta, if_neg hwin]
        omega
      rw [readMspFwd_of_le hwrap]
      exact iff_of_false (fun h => List.not_mem_nil h.1) fun h => hwin h.1

/-! ## What a read comes to -/

namespace Order

variable {n : ℕ}

/-- Every query completes once. -/
theorem perm (ph : Order n) (msps : List ℕ) : (ph.run msps).Perm msps := by
  have hrun := ph.completes msps
  split_ifs at hrun with hn
  · rw [hrun]
  · exact hrun.perm

/-- With one query at a time there is one order. -/
theorem run_eq (ph : Order n) (hn : n ≤ 1) (msps : List ℕ) : ph.run msps = msps := by
  have hrun := ph.completes msps
  split_ifs at hrun with hzero
  · exact hrun
  · exact hrun.eq_of_le_one hn

/-- The queries complete in the order of the partitions. -/
def inTurn (n : ℕ) : Order n where
  run msps := msps
  completes msps := by
    split_ifs with hn
    · rfl
    · exact completes_self (by omega) msps

@[simp]
theorem inTurn_run (msps : List ℕ) : (inTurn n).run msps = msps := rfl

/-- The query for one partition completes last. -/
def last (hn : 2 ≤ n) (msp : ℕ) : Order n where
  run msps := if msp ∈ msps then msps.erase msp ++ [msp] else msps
  completes msps := by
    rw [if_neg (by omega)]
    split_ifs with hmem
    · obtain ⟨pre, post, -, hmsps, herase⟩ := List.exists_erase_eq hmem
      rw [herase, hmsps]
      exact completes_last hn pre post msp
    · exact completes_self (by omega) msps

end Order

variable {range : NanoRange} {ph1 ph2 : Order o.lspLstConcurrent} {order : List ℕ}

/-- The partitions that the second step asks, after the answers of the first one came in the given order -/
def kept (c : Content V) (o : Opts) (beg : ℕ) (order : List ℕ) : List ℕ :=
  (mspKeepB beg (found c o none order)).map Prod.fst

/-- The partitions that are opened first, after the answers of the second step came in the given order -/
def opened (c : Content V) (o : Opts) (beg : ℕ) (order : List ℕ) : List ℕ :=
  (found c o (some beg) order).map Prod.fst

theorem found_fst (fin : Option ℕ) (order : List ℕ) :
    (found c o fin order).map Prod.fst = order.filter fun msp => (lastTs c o fin msp).isSome := by
  induction order with
  | nil => rfl
  | cons msp order ih =>
      unfold found at ih ⊢
      rw [List.filterMap_cons, List.filter_cons]
      cases lastTs c o fin msp with
      | none => exact ih
      | some ts => exact congrArg _ ih

theorem opened_eq (beg : ℕ) (order : List ℕ) :
    opened c o beg order = order.filter fun msp => (lastTs c o (some beg) msp).isSome := found_fst _ _

theorem mem_kept (horder : ∀ m, m ∈ order ↔ Recent c o beg m) : msp ∈ kept c o beg order ↔ Kept c o beg msp := by
  rw [kept, List.mem_map]
  constructor
  · rintro ⟨x, hx, rfl⟩
    obtain ⟨hfound, hall⟩ := mem_mspKeepB.mp hx
    obtain ⟨hmem, hts⟩ := mem_found.mp hfound
    refine ⟨(horder _).mp hmem, x.2, hts, ?_⟩
    intro m hm t ht
    exact hall (m, t) (mem_found.mpr ⟨(horder m).mpr hm, ht⟩)
  · rintro ⟨hrecent, ts, hts, hall⟩
    refine ⟨(msp, ts), mem_mspKeepB.mpr ⟨mem_found.mpr ⟨(horder msp).mpr hrecent, hts⟩, ?_⟩, rfl⟩
    intro y hy
    obtain ⟨hmem, hyts⟩ := mem_found.mp hy
    exact hall y.1 ((horder _).mp hmem) y.2 hyts

theorem mem_opened (horder : ∀ m, m ∈ order ↔ Kept c o beg m) : msp ∈ opened c o beg order ↔ Opened c o beg msp := by
  rw [opened_eq, List.mem_filter, horder, Option.isSome_iff_exists]
  rfl

theorem nodup_kept (h : order.Nodup) : (kept c o beg order).Nodup := by
  have hsub : (mspKeepB beg (found c o none order)).Sublist (found c o none order) := by
    unfold mspKeepB
    cases tsLst beg (found c o none order) with
    | none => exact List.Sublist.refl _
    | some ts0 => exact List.filter_sublist
  have hfound : ((found c o none order).map Prod.fst).Nodup := by
    rw [found_fst]
    exact h.filter _
  exact hfound.sublist (hsub.map _)

theorem nodup_opened (h : order.Nodup) : (opened c o beg order).Nodup := by
  rw [opened_eq]
  exact h.filter _

/-- From where the opened partitions are read: their last event before the range, if there is one -/
def begBefore (c : Content V) (o : Opts) (beg : ℕ) (msps : List ℕ) : ℕ :=
  (tsLst beg (found c o (some beg) (kept c o beg msps))).getD beg

theorem Recent.le (h : Recent c o beg msp) : msp * 1000000 ≤ beg := by
  obtain ⟨-, -, -, hlt, -⟩ := h
  calc
    msp * 1000000 ≤ beg / 1000000 * 1000000 := Nat.mul_le_mul_right _ hlt.le
    _ ≤ beg := Nat.div_mul_le_self _ _

/-- No query computes the index of an event that is not there. -/
def NoneMisses (c : Content V) (o : Opts) (beg : ℕ) : Prop :=
  (∀ msp, Recent c o beg msp → ¬ Misses c o none msp) ∧ ∀ msp, Kept c o beg msp → ¬ Misses c o (some beg) msp

/-- What the first two steps come to: a query fails, or partitions are opened. -/
theorem fwdEvents1_cases (c : Content V) (o : Opts) (range : NanoRange) :
    (¬ NoneMisses c o range.beg ∧ ∀ ph1 ph2, fwdEvents1 c o range ph1 ph2 = .error .indexUnderflow) ∨
      NoneMisses c o range.beg ∧ ∃ msps : List ℕ, msps.Nodup ∧ (∀ msp, msp ∈ msps ↔ Recent c o range.beg msp) ∧
        ∀ ph1 ph2, fwdEvents1 c o range ph1 ph2 =
          .ok (begBefore c o range.beg msps, opened c o range.beg (ph2.run (kept c o range.beg (ph1.run msps)))) := by
  obtain ⟨hnodup, hmsps⟩ := mspBck_spec c o range.beg
  set msps := mspBck c o range.beg with hbck
  -- The order of the answers of the first step
  have hmem1 : ∀ (ph1 : Order o.lspLstConcurrent) m, m ∈ ph1.run msps ↔ Recent c o range.beg m := by
    intro ph1 m
    rw [(ph1.perm msps).mem_iff, hmsps]
  have hnofin : ∀ (ph1 : Order o.lspLstConcurrent), ∀ m ∈ ph1.run msps, ∀ e ∈ (none : Option ℕ), m * 1000000 ≤ e := by
    intro ph1 m _ e he
    cases he
  by_cases hfirst : ∀ msp, Recent c o range.beg msp → ¬ Misses c o none msp
  · have hread1 : ∀ ph1 ph2, fwdEvents1 c o range ph1 ph2 =
        (fetch c o (some range.beg) (ph2.run (kept c o range.beg (ph1.run msps)))).bind fun res2 =>
          .ok ((tsLst range.beg (mspKeepA res2)).getD range.beg, (mspKeepA res2).map Prod.fst) := by
      intro ph1 ph2
      have hnone : ∀ msp ∈ ph1.run msps, ¬ Misses c o none msp := fun m hm => hfirst m ((hmem1 ph1 m).mp hm)
      obtain ⟨res1, hfetch, hkeep⟩ := fetch_eq (hnofin ph1) hnone
      rw [fwdEvents1, ← hbck]
      change (fetch c o none (ph1.run msps)).bind _ = _
      rw [hfetch]
      change (fetch c o (some range.beg) (ph2.run ((mspKeepB range.beg (mspKeepA res1)).map Prod.fst))).bind _ = _
      rw [hkeep]
      rfl
    have hmem2 : ∀ (ph1 ph2 : Order o.lspLstConcurrent) m,
        m ∈ ph2.run (kept c o range.beg (ph1.run msps)) ↔ Kept c o range.beg m := by
      intro ph1 ph2 m
      rw [(ph2.perm _).mem_iff, mem_kept (hmem1 ph1)]
    have hle : ∀ (ph1 ph2 : Order o.lspLstConcurrent), ∀ m ∈ ph2.run (kept c o range.beg (ph1.run msps)),
        ∀ e ∈ some range.beg, m * 1000000 ≤ e := by
      rintro ph1 ph2 m hm e ⟨⟩
      exact ((hmem2 ph1 ph2 m).mp hm).1.le
    by_cases hsecond : ∀ msp, Kept c o range.beg msp → ¬ Misses c o (some range.beg) msp
    · right
      refine ⟨⟨hfirst, hsecond⟩, msps, hnodup, hmsps, fun ph1 ph2 => ?_⟩
      obtain ⟨res2, hfetch, hkeep⟩ := fetch_eq (hle ph1 ph2) fun m hm => hsecond m ((hmem2 ph1 ph2 m).mp hm)
      have hbeg : tsLst range.beg (mspKeepA res2) =
          tsLst range.beg (found c o (some range.beg) (kept c o range.beg msps)) := by
        rw [hkeep]
        apply tsLst_congr
        intro x
        rw [mem_found, mem_found, hmem2, mem_kept hmsps]
      rw [hread1, hfetch]
      change Except.ok _ = _
      rw [hbeg, hkeep]
      rfl
    · left
      refine ⟨fun h => hsecond h.2, fun ph1 ph2 => ?_⟩
      push Not at hsecond
      obtain ⟨m, hm, hmiss⟩ := hsecond
      rw [hread1, fetch_eq_error (hle ph1 ph2) ⟨m, (hmem2 ph1 ph2 m).mpr hm, hmiss⟩]
      rfl
  · left
    refine ⟨fun h => hfirst h.1, fun ph1 ph2 => ?_⟩
    push Not at hfirst
    obtain ⟨m, hm, hmiss⟩ := hfirst
    rw [fwdEvents1, ← hbck]
    change (fetch c o none (ph1.run msps)).bind _ = _
    rw [fetch_eq_error (hnofin ph1) ⟨m, (hmem1 ph1 m).mpr hm, hmiss⟩]
    rfl

/-- The partitions that are read: the given ones, and those after the last one of these -/
def fwdMsps (c : Content V) (range : NanoRange) (msps : List ℕ) : List ℕ :=
  msps ++
    match msps.getLast? with
    | some msp => readMspFwd c ⟨msp * 1000000, range.fin⟩ true
    | none => readMspFwd c range false

/-- The merge of these partitions -/
def merging (c : Content V) (range : NanoRange) (msps : List ℕ) : PartMerge.Merging V where
  msps := (fwdMsps c range msps).map fun msp => (msp, readLspFwd c range msp)
  inps := []

theorem getD_mspStream (range : NanoRange) (begexcl : Bool) :
    (mspStream c range begexcl).getD [] = readMspFwd c range begexcl := by
  unfold mspStream
  split_ifs with hlt
  · rfl
  · exact (readMspFwd_of_le (not_lt.mp hlt) begexcl).symm

theorem outcome_ok (items : List (Item V)) : outcome (items.map .ok) = (pages items, none) := by
  unfold outcome
  rw [List.filterMap_map, List.findSome?_map]
  congr 1
  · exact congrArg pages List.filterMap_some
  · exact List.findSome?_eq_none_iff.mpr fun _ _ => rfl

/-- There is one outcome for given orders. -/
theorem Reads.unique {out out' : Except Fault (List (EventSingle V) × Option Error)} (h : Reads c o range ph1 ph2 out)
    (h' : Reads c o range ph1 ph2 out') : out = out' := by
  cases h with
  | failed hfault =>
      cases h' with
      | failed hfault' =>
          rw [hfault] at hfault'
          cases hfault'
          rfl
      | read hfwd =>
          rw [hfault] at hfwd
          cases hfwd
  | read hfwd hdrains =>
      cases h' with
      | failed hfault =>
          rw [hfault] at hfwd
          cases hfwd
      | read hfwd' hdrains' =>
          rw [hfwd] at hfwd'
          cases hfwd'
          rw [hdrains.unique hdrains']

/-- The partitions are merged, if the options leave enough rounds for reading ahead. -/
theorem reads_iff (hread : o.fwd.ReadsAhead) {beg : ℕ} {msps : List ℕ}
    (hfwd : fwdEvents1 c o range ph1 ph2 = .ok (beg, msps)) {out : Except Fault (List (EventSingle V) × Option Error)} :
    Reads c o range ph1 ph2 out ↔
      out = .ok ((PartMerge.Merging.merge o.fwd.lspLimit (merging c ⟨beg, range.fin⟩ msps)).1, none) := by
  have hreads : Reads c o range ph1 ph2
      (.ok ((PartMerge.Merging.merge o.fwd.lspLimit (merging c ⟨beg, range.fin⟩ msps)).1, none)) := by
    have hmerge : ∃ items, Drains (LspFwdMspMulti.pollNext o.fwd (readLspFwd c ⟨beg, range.fin⟩))
          (fwdEvents c ⟨beg, range.fin⟩ msps) (items.map .ok) ∧
        PartMerge.Merging.merge o.fwd.lspLimit (merging c ⟨beg, range.fin⟩ msps) = (pages items, none) := by
      unfold fwdEvents merging fwdMsps
      cases msps.getLast? with
      | some msp =>
          simp only [← getD_mspStream]
          exact LspFwdMspMulti.drains_merge hread _ _
      | none =>
          simp only [← getD_mspStream]
          exact LspFwdMspMulti.drains_merge hread _ _
    obtain ⟨items, hdrains, hmerge⟩ := hmerge
    rw [hmerge, ← outcome_ok]
    exact .read hfwd hdrains
  constructor
  · intro h
    exact h.unique hreads
  · rintro rfl
    exact hreads

end EventsKs
end Scylla
end Daqbuf
