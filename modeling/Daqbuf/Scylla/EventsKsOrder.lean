import Daqbuf.Scylla.EventsKs
/-!
# The Order of Answers to an Event Read

An event read opens the partitions before the range in the order in which the queries for their last events are
answered, and goes on with the partitions after the one that is answered last.  Where another one of the opened
partitions is later than this one, it is opened once more.

Main results:

- Theorem {lit}`independent_iff`: when the order of the answers does not matter.
-/

namespace Daqbuf
namespace Scylla
namespace EventsKs

open Items Netpod Poll Search Streams

variable {V : Type} {c : Content V} {o : Opts} {range : NanoRange} {beg k k' m : ℕ} {msps : List ℕ}

/-! ## Conditions -/

/-- The events that are read of a partition: before the end of the range, and not before another event before it -/
def InWindow (c : Content V) (o : Opts) (range : NanoRange) (ts : ℕ) : Prop :=
  ts < range.fin ∧ ∀ m, Recent c o range.beg m → ∀ t ∈ seen c o m, t < range.beg → t ≤ ts

/-- From an opened partition on, up to another one, no partition but the first has events to be read. -/
def NoneBehind (c : Content V) (o : Opts) (range : NanoRange) : Prop :=
  ∀ k k', Opened c o range.beg k → Opened c o range.beg k' →
    ∀ m ∈ c.msps, k < m → m ≤ k' → ∀ row ∈ c.rows m, ¬ InWindow c o range (toTs m row.1)

/-- No query misses an event, and the queries run one by one, or enough is read ahead and at most one opened partition
matters. -/
def OrderFree (c : Content V) (o : Opts) (range : NanoRange) : Prop :=
  NoneMisses c o range.beg ∧ (o.lspLstConcurrent ≤ 1 ∨ o.fwd.ReadsAhead ∧ NoneBehind c o range)

/-- The order of the answers does not matter, and no index underflows. -/
def Independent (c : Content V) (o : Opts) (range : NanoRange) : Prop :=
  ∀ ph1 ph2 ph1' ph2', (∀ out, Reads c o range ph1 ph2 out ↔ Reads c o range ph1' ph2' out) ∧
    ¬ Reads c o range ph1 ph2 (.error .indexUnderflow)

/-! ## The window -/

/-- An event before the range is not after the last one of a partition that is kept. -/
theorem exists_kept (hmsps : ∀ m, m ∈ msps ↔ Recent c o beg m) {t : ℕ} (hm : Recent c o beg m) (ht : t ∈ seen c o m)
    (hlt : t < beg) : ∃ k ts, Kept c o beg k ∧ lastTs c o (some beg) k = some ts ∧ t ≤ ts := by
  have hbefore : ∀ {t : ℕ}, t < beg → ∀ e ∈ some beg, t < e := by
    rintro t hlt e ⟨⟩
    exact hlt
  have hno : ∀ e ∈ (none : Option ℕ), t < e := by
    intro e he
    cases he
  obtain ⟨l, hl, htl⟩ := le_lastTs ht hno
  by_cases hkept : Kept c o beg m
  · obtain ⟨ts, hts, hle⟩ := le_lastTs ht (hbefore hlt)
    exact ⟨m, ts, hkept, hts, hle⟩
  · -- The partition that ends last before the range
    have hlater : ∃ m' t', Recent c o beg m' ∧ lastTs c o none m' = some t' ∧ t' < beg ∧ l < t' := by
      by_contra hnone
      push Not at hnone
      exact hkept ⟨hm, l, hl, fun m' hm' t' ht' => hnone m' t' hm' ht'⟩
    obtain ⟨m', t', hm', ht', hlt', hl'⟩ := hlater
    have hfound : (m', t') ∈ found c o none msps := mem_found.mpr ⟨(hmsps m').mpr hm', ht'⟩
    cases hlst : tsLst beg (found c o none msps) with
    | none => exact absurd (tsLst_eq_none.mp hlst _ hfound) (not_le.mpr hlt')
    | some ts0 =>
        obtain ⟨⟨z, hz, hzts⟩, hlt0, hmax⟩ := tsLst_eq_some.mp hlst
        obtain ⟨hzmem, hzlast⟩ := mem_found.mp hz
        rw [hzts] at hzlast
        have hzkept : Kept c o beg z.1 := by
          refine ⟨(hmsps _).mp hzmem, ts0, hzlast, ?_⟩
          intro n hn t hnt
          exact hmax (n, t) (mem_found.mpr ⟨(hmsps n).mpr hn, hnt⟩)
        obtain ⟨ts, hts, hle⟩ := le_lastTs (mem_of_lastTs hzlast).1 (hbefore hlt0)
        have hle0 : t' ≤ ts0 := hmax _ hfound hlt'
        exact ⟨z.1, ts, hzkept, hts, by omega⟩

/-- The time from which the opened partitions are read -/
theorem begBefore_le_iff (hmsps : ∀ m, m ∈ msps ↔ Recent c o beg m) (hk : Opened c o beg k) {ts : ℕ} :
    begBefore c o beg msps ≤ ts ↔ ∀ m, Recent c o beg m → ∀ t ∈ seen c o m, t < beg → t ≤ ts := by
  have hmem : ∀ {k t}, Kept c o beg k → lastTs c o (some beg) k = some t →
      (k, t) ∈ found c o (some beg) (kept c o beg msps) := by
    intro k t hkept ht
    exact mem_found.mpr ⟨(mem_kept hmsps).mpr hkept, ht⟩
  obtain ⟨hkept, t0, ht0⟩ := hk
  unfold begBefore
  cases hlst : tsLst beg (found c o (some beg) (kept c o beg msps)) with
  | none =>
      have hlt := (mem_of_lastTs ht0).2 beg rfl
      exact absurd (tsLst_eq_none.mp hlst _ (hmem hkept ht0)) (not_le.mpr hlt)
  | some b =>
      obtain ⟨⟨z, hz, hzb⟩, hlt, hmax⟩ := tsLst_eq_some.mp hlst
      obtain ⟨hzmem, hzlast⟩ := mem_found.mp hz
      rw [hzb] at hzlast
      rw [Option.getD_some]
      constructor
      · intro hle m hm t ht htlt
        obtain ⟨k, ts', hk, hts', htle⟩ := exists_kept hmsps hm ht htlt
        have hle' : ts' ≤ b := hmax _ (hmem hk hts') ((mem_of_lastTs hts').2 beg rfl)
        omega
      · intro hall
        exact hall z.1 ((mem_kept hmsps).mp hzmem).1 b (mem_of_lastTs hzlast).1 hlt

/-- Whether something is read of a partition -/
theorem readLspFwd_ne_nil_iff (hmsps : ∀ m, m ∈ msps ↔ Recent c o range.beg m) (hk : Opened c o range.beg k) :
    readLspFwd c ⟨begBefore c o range.beg msps, range.fin⟩ m ≠ [] ↔
      ∃ row ∈ c.rows m, InWindow c o range (toTs m row.1) := by
  unfold readLspFwd
  rw [Ne, List.filter_eq_nil_iff]
  push Not
  simp only [List.mem_map, decide_eq_true_eq, exists_exists_and_eq_and]
  apply exists_congr
  intro row
  rw [begBefore_le_iff hmsps hk, InWindow]
  exact and_congr_right fun _ => and_comm

/-! ## The partitions that are read -/

variable {σ : List ℕ}

/-- The partitions after a given one -/
theorem readMspFwd_after (c : Content V) (fin k : ℕ) :
    readMspFwd c ⟨k * 1000000, fin⟩ true = c.msps.filter fun m => decide (k < m ∧ m < fin / 1000000) := by
  unfold readMspFwd
  simp only [if_true, Nat.mul_div_cancel _ (show 0 < 1000000 by omega), Nat.one_add_le_iff]

theorem mem_readMspFwd_after {fin : ℕ} :
    m ∈ readMspFwd c ⟨k * 1000000, fin⟩ true ↔ m ∈ c.msps ∧ k < m ∧ m < fin / 1000000 := by
  rw [readMspFwd_after, List.mem_filter, decide_eq_true_eq]

theorem fwdMsps_eq (hlast : σ.getLast? = some k) :
    fwdMsps c range σ = σ ++ readMspFwd c ⟨k * 1000000, range.fin⟩ true := by
  rw [fwdMsps, hlast]

/-- All events that are read -/
theorem events_merging : (merging c range σ).events = (fwdMsps c range σ).flatMap (readLspFwd c range) := by
  change [] ++ ((fwdMsps c range σ).map fun msp => (msp, readLspFwd c range msp)).flatMap Prod.snd = _
  rw [List.nil_append, List.flatMap_map]

/-- More is read from an earlier partition on. -/
theorem length_after_lt {fin : ℕ} {f : ℕ → List (EventSingle V)} (hk : k < m) (hk' : m ≤ k') (hm : m ∈ c.msps)
    (hfin : m < fin / 1000000) (hne : f m ≠ []) :
    ((readMspFwd c ⟨k' * 1000000, fin⟩ true).flatMap f).length <
      ((readMspFwd c ⟨k * 1000000, fin⟩ true).flatMap f).length := by
  have hlater : (readMspFwd c ⟨k * 1000000, fin⟩ true).filter (fun x => decide (k' < x)) =
      readMspFwd c ⟨k' * 1000000, fin⟩ true := by
    rw [readMspFwd_after, readMspFwd_after, List.filter_filter]
    apply List.filter_congr
    intro x _
    rw [← Bool.decide_and]
    apply decide_eq_decide.mpr
    omega
  have hperm := List.filter_append_perm (fun x => decide (k' < x)) (readMspFwd c ⟨k * 1000000, fin⟩ true)
  have hlen := (hperm.flatMap_right f).length_eq
  rw [List.flatMap_append, List.length_append, hlater] at hlen
  have hmem : m ∈ (readMspFwd c ⟨k * 1000000, fin⟩ true).filter fun x => !decide (k' < x) := by
    rw [List.mem_filter, mem_readMspFwd_after]
    refine ⟨⟨hm, hk, hfin⟩, ?_⟩
    rw [Bool.not_eq_true', decide_eq_false_iff_not]
    exact not_lt.mpr hk'
  have hpos : 0 < (((readMspFwd c ⟨k * 1000000, fin⟩ true).filter fun x => !decide (k' < x)).flatMap f).length := by
    apply List.length_pos_iff.mpr
    intro hnil
    exact hne (List.flatMap_eq_nil_iff.mp hnil m hmem)
  omega

/-! ## When the order matters -/

/-- Any opened partition may be the last one that is answered. -/
theorem getLast?_opened (hn : 2 ≤ o.lspLstConcurrent) {order : List ℕ} (horder : k ∈ order) (hk : Opened c o beg k) :
    (opened c o beg ((Order.last hn k).run order)).getLast? = some k := by
  obtain ⟨-, ts, hts⟩ := hk
  have hrun : (Order.last hn k).run order = order.erase k ++ [k] := if_pos horder
  have hkeep : [k].filter (fun msp => (lastTs c o (some beg) msp).isSome) = [k] := by
    apply List.filter_cons_of_pos
    rw [hts]
    rfl
  rw [hrun, opened_eq, List.filter_append, hkeep, List.getLast?_append]
  rfl

/-- The number of events of a merge that begins with these partitions -/
theorem length_merge (limit : ℕ) (hlast : σ.getLast? = some k) :
    (PartMerge.Merging.merge limit (merging c range σ)).1.length = (σ.flatMap (readLspFwd c range)).length +
      ((readMspFwd c ⟨k * 1000000, range.fin⟩ true).flatMap (readLspFwd c range)).length := by
  rw [(PartMerge.Merging.merge_perm limit _).1.length_eq, events_merging, fwdMsps_eq hlast, List.flatMap_append,
    List.length_append]

/-- What comes out of reads of which the outcome is the same -/
theorem merge_eq_of_reads {ph1 ph2 ph1' ph2' : Order o.lspLstConcurrent} {fwdBeg : ℕ} {σ' : List ℕ}
    (hread : o.fwd.ReadsAhead) (hsame : ∀ out, Reads c o range ph1 ph2 out ↔ Reads c o range ph1' ph2' out)
    (hfwd : fwdEvents1 c o range ph1 ph2 = .ok (fwdBeg, σ))
    (hfwd' : fwdEvents1 c o range ph1' ph2' = .ok (fwdBeg, σ')) :
    (PartMerge.Merging.merge o.fwd.lspLimit (merging c ⟨fwdBeg, range.fin⟩ σ)).1 =
      (PartMerge.Merging.merge o.fwd.lspLimit (merging c ⟨fwdBeg, range.fin⟩ σ')).1 := by
  have hout := (reads_iff hread hfwd').mp ((hsame _).mp ((reads_iff hread hfwd).mpr rfl))
  exact (Prod.mk.inj (Except.ok.inj hout)).1

/-- Where two or more queries run at once, and the order of the answers does not matter, at most one opened partition
has events to be read. -/
theorem noneBehind_of_independent (hn : 2 ≤ o.lspLstConcurrent) (hread : o.fwd.ReadsAhead)
    (hrange : range.beg ≤ range.fin) (h : Independent c o range) : NoneBehind c o range := by
  intro k k' hk hk' m hm hkm hmk' row hrow hwindow
  obtain ⟨-, hfault⟩ | ⟨-, msps, -, hmsps, hfwd⟩ := fwdEvents1_cases c o range
  · exact absurd (.failed (hfault _ _)) (h (.inTurn _) (.inTurn _) (.inTurn _) (.inTurn _)).2
  · -- Once the query of the first partition is answered last, and once that of the second one
    have hlast : ∀ {l}, Opened c o range.beg l →
        (opened c o range.beg ((Order.last hn l).run (kept c o range.beg msps))).getLast? = some l :=
      fun hl => getLast?_opened hn ((mem_kept hmsps).mpr hl.1) hl
    have hperm : (opened c o range.beg ((Order.last hn k).run (kept c o range.beg msps))).Perm
        (opened c o range.beg ((Order.last hn k').run (kept c o range.beg msps))) := by
      rw [opened_eq, opened_eq]
      exact (((Order.last hn k).perm _).trans ((Order.last hn k').perm _).symm).filter _
    have hsame := merge_eq_of_reads hread (h (.inTurn _) (.last hn k) (.inTurn _) (.last hn k')).1 (hfwd _ _) (hfwd _ _)
    have hlen := congrArg List.length hsame
    rw [Order.inTurn_run, length_merge _ (hlast hk), length_merge _ (hlast hk'),
      (hperm.flatMap_right _).length_eq] at hlen
    have hfin : m < range.fin / 1000000 := by
      have hbeg : k' < range.beg / 1000000 := hk'.1.1.2.2.2.1
      have hle := Nat.div_le_div_right hrange (c := 1000000)
      omega
    have hne := (readLspFwd_ne_nil_iff hmsps hk).mpr ⟨row, hrow, hwindow⟩
    have hlt := length_after_lt hkm hmk' hm hfin hne
    exact hlt.ne' (Nat.add_left_cancel hlen)

/-! ## When it does not -/

/-- The partitions as the merge gets them -/
def parts (c : Content V) (range : NanoRange) (msps : List ℕ) : List (PartMerge.Part V) :=
  msps.map fun msp => (msp, readLspFwd c range msp)

theorem nonempty_parts (msps : List ℕ) :
    PartMerge.Merging.nonempty (parts c range msps) =
      parts c range (msps.filter fun m => readLspFwd c range m ≠ []) := by
  rw [PartMerge.Merging.nonempty, parts, List.filter_map]
  rfl

/-- If only the first opened partition matters, a read comes to it and to the partitions after the last one. -/
theorem merge_merging (limit : ℕ) (hnodup : σ.Nodup) (hk : k ∈ σ) (hmin : ∀ m ∈ σ, k ≤ m) (hmax : ∀ m ∈ σ, m ≤ k')
    (hσ : ∀ m ∈ σ, m ∈ c.msps) (hnone : ∀ m ∈ c.msps, k < m → m ≤ k' → readLspFwd c range m = []) :
    PartMerge.Merging.merge limit (merging c range σ) = PartMerge.Merging.merge limit
      ⟨PartMerge.Merging.nonempty (parts c range (k :: readMspFwd c ⟨k' * 1000000, range.fin⟩ true)), []⟩ := by
  have hothers : ∀ m ∈ σ, m ≠ k → readLspFwd c range m = [] := fun m hm hne =>
    hnone m (hσ m hm) ((hmin m hm).lt_of_ne hne.symm) (hmax m hm)
  obtain ⟨b, hlast⟩ : ∃ b, σ.getLast? = some b := by
    apply Option.ne_none_iff_exists'.mp
    rw [Ne, List.getLast?_eq_none_iff]
    exact List.ne_nil_of_mem hk
  have hb : b ∈ σ := List.mem_of_getLast? hlast
  obtain ⟨pre, post, hsplit⟩ := List.append_of_mem hk
  have hkpre : k ∉ pre ∧ k ∉ post := by
    rw [hsplit, List.nodup_append, List.nodup_cons] at hnodup
    exact ⟨fun hmem => hnodup.2.2 k hmem k List.mem_cons_self rfl, hnodup.2.1.1⟩
  have hpost : ∀ m ∈ post, m ∈ σ ∧ readLspFwd c range m = [] := by
    intro m hm
    have hmem : m ∈ σ := hsplit ▸ List.mem_append_right _ (List.mem_cons_of_mem _ hm)
    exact ⟨hmem, hothers m hmem fun heq => hkpre.2 (heq ▸ hm)⟩
  have hstart : merging c range σ =
      ⟨parts c range pre ++ parts c range (k :: (post ++ readMspFwd c ⟨b * 1000000, range.fin⟩ true)), []⟩ := by
    rw [merging, fwdMsps_eq hlast, parts, parts, ← List.map_append, hsplit, List.append_assoc, List.cons_append]
  -- The partitions that are opened before the first one
  have hlead : ∀ p ∈ parts c range pre, p.2 = [] := by
    intro p hp
    obtain ⟨m, hm, rfl⟩ := List.mem_map.mp hp
    exact hothers m (hsplit ▸ List.mem_append_left _ hm) fun heq => hkpre.1 (heq ▸ hm)
  -- Those after it without events are not later than those with events.
  have hholds : PartMerge.Merging.HoldsNone
      (parts c range (k :: (post ++ readMspFwd c ⟨b * 1000000, range.fin⟩ true))) := by
    have hafter : ∀ m ∈ readMspFwd c ⟨b * 1000000, range.fin⟩ true, readLspFwd c range m ≠ [] → k' < m := by
      intro m hm hne
      obtain ⟨hmem, hlt, -⟩ := mem_readMspFwd_after.mp hm
      by_contra hle
      exact hne (hnone m hmem ((hmin b hb).trans_lt hlt) (not_lt.mp hle))
    apply List.pairwise_map.mpr
    rw [List.pairwise_cons, List.pairwise_append]
    refine ⟨?_, ?_, ?_, ?_⟩
    · intro m hm _ _
      obtain hm | hm := List.mem_append.mp hm
      · exact hmin m (hpost m hm).1
      · exact (hmin b hb).trans (mem_readMspFwd_after.mp hm).2.1.le
    · apply List.pairwise_of_forall_mem_list
      intro x _ y hy _ hne
      exact absurd (hpost y hy).2 hne
    · exact (readMspFwd_sorted c _ _).imp fun hlt _ _ => hlt.le
    · intro x hx y hy _ hne
      exact (hmax x (hpost x hx).1).trans (hafter y hy hne).le
  -- The partitions with events
  have hfilter : (post ++ readMspFwd c ⟨b * 1000000, range.fin⟩ true).filter (fun m => readLspFwd c range m ≠ []) =
      (readMspFwd c ⟨k' * 1000000, range.fin⟩ true).filter fun m => readLspFwd c range m ≠ [] := by
    have hnil : post.filter (fun m => readLspFwd c range m ≠ []) = [] := by
      rw [List.filter_eq_nil_iff]
      intro m hm hne
      exact of_decide_eq_true hne (hpost m hm).2
    rw [List.filter_append, hnil, List.nil_append, readMspFwd_after, readMspFwd_after, List.filter_filter,
      List.filter_filter]
    apply List.filter_congr
    intro m hm
    rw [← Bool.decide_and, ← Bool.decide_and]
    apply decide_eq_decide.mpr
    refine and_congr_right fun hne => ⟨fun h => ⟨?_, h.2⟩, fun h => ⟨(hmax b hb).trans_lt h.1, h.2⟩⟩
    by_contra hle
    exact hne (hnone m hm ((hmin b hb).trans_lt h.1) (not_lt.mp hle))
  rw [hstart, PartMerge.Merging.merge_leading hlead, PartMerge.Merging.merge_filter limit [] hholds, nonempty_parts,
    nonempty_parts, List.filter_cons, List.filter_cons, hfilter]

/-- Where at most one opened partition has events to be read, their order does not matter. -/
theorem merge_eq_of_noneBehind {σ' : List ℕ} (limit : ℕ) (hmsps : ∀ m, m ∈ msps ↔ Recent c o range.beg m)
    (hnone : NoneBehind c o range) (hnodup : σ.Nodup) (hnodup' : σ'.Nodup) (hσ : ∀ m, m ∈ σ ↔ Opened c o range.beg m)
    (hσ' : ∀ m, m ∈ σ' ↔ Opened c o range.beg m) :
    PartMerge.Merging.merge limit (merging c ⟨begBefore c o range.beg msps, range.fin⟩ σ) =
      PartMerge.Merging.merge limit (merging c ⟨begBefore c o range.beg msps, range.fin⟩ σ') := by
  have hperm : σ'.Perm σ := by
    rw [List.perm_ext_iff_of_nodup hnodup' hnodup]
    intro m
    rw [hσ, hσ']
  by_cases hnil : σ = []
  · rw [hnil] at hperm
    rw [hnil, hperm.eq_nil]
  · have hne : σ.toFinset.Nonempty := List.toFinset_nonempty_iff σ |>.mpr hnil
    obtain ⟨k, hk, hmin⟩ := σ.toFinset.exists_min_image id hne
    obtain ⟨k', hk', hmax⟩ := σ.toFinset.exists_max_image id hne
    simp only [List.mem_toFinset, id_eq] at hk hk' hmin hmax
    have hstored : ∀ m ∈ σ, m ∈ c.msps := fun m hm => ((hσ m).mp hm).1.1.2.1
    have hempty : ∀ m ∈ c.msps, k < m → m ≤ k' →
        readLspFwd c ⟨begBefore c o range.beg msps, range.fin⟩ m = [] := by
      intro m hm hkm hmk'
      by_contra hread
      obtain ⟨row, hrow, hwindow⟩ := (readLspFwd_ne_nil_iff hmsps ((hσ k).mp hk)).mp hread
      exact hnone k k' ((hσ k).mp hk) ((hσ k').mp hk') m hm hkm hmk' row hrow hwindow
    rw [merge_merging limit hnodup hk hmin hmax hstored hempty,
      merge_merging limit hnodup' (hperm.mem_iff.mpr hk) (fun m hm => hmin m (hperm.mem_iff.mp hm))
        (fun m hm => hmax m (hperm.mem_iff.mp hm)) (fun m hm => hstored m (hperm.mem_iff.mp hm)) hempty]

/-- Where the first two steps come to the same, the outcome is the same. -/
theorem Reads.congr {ph1 ph2 ph1' ph2' : Order o.lspLstConcurrent}
    {out : Except Fault (List (EventSingle V) × Option LspFwdMspMulti.Error)}
    (hfwd : fwdEvents1 c o range ph1 ph2 = fwdEvents1 c o range ph1' ph2') (h : Reads c o range ph1 ph2 out) :
    Reads c o range ph1' ph2' out := by
  cases h with
  | failed hfault => exact .failed (hfwd.symm.trans hfault)
  | read hread hdrains => exact .read (hfwd.symm.trans hread) hdrains

/-- Whether the order of the answers matters.  The condition is enough for every range and all options; it is exact for a
range that is not inverted, and options with which enough is read ahead. -/
theorem independent_iff (c : Content V) (o : Opts) (range : NanoRange) :
    (OrderFree c o range → Independent c o range) ∧
      (range.beg ≤ range.fin → o.fwd.ReadsAhead → Independent c o range → OrderFree c o range) := by
  constructor
  · rintro ⟨hmisses, hfree⟩ ph1 ph2 ph1' ph2'
    obtain ⟨hnot, -⟩ | ⟨-, msps, hnodup, hmsps, hfwd⟩ := fwdEvents1_cases c o range
    · exact absurd hmisses hnot
    · constructor
      · obtain hle | ⟨hread, hnone⟩ := hfree
        · have hsame : fwdEvents1 c o range ph1 ph2 = fwdEvents1 c o range ph1' ph2' := by
            rw [hfwd, hfwd, ph1.run_eq hle, ph2.run_eq hle, ph1'.run_eq hle, ph2'.run_eq hle]
          exact fun out => ⟨.congr hsame, .congr hsame.symm⟩
        · -- Whatever the orders are, the same partitions are opened.
          have hopened : ∀ ph1 ph2 : Order o.lspLstConcurrent,
              (opened c o range.beg (ph2.run (kept c o range.beg (ph1.run msps)))).Nodup ∧
                ∀ m, m ∈ opened c o range.beg (ph2.run (kept c o range.beg (ph1.run msps))) ↔
                  Opened c o range.beg m := by
            intro ph1 ph2
            constructor
            · apply nodup_opened
              rw [(ph2.perm _).nodup_iff]
              apply nodup_kept
              rwa [(ph1.perm _).nodup_iff]
            · intro m
              apply mem_opened
              intro m
              rw [(ph2.perm _).mem_iff]
              apply mem_kept
              intro m
              rw [(ph1.perm _).mem_iff, hmsps]
          intro out
          rw [reads_iff hread (hfwd ph1 ph2), reads_iff hread (hfwd ph1' ph2'),
            merge_eq_of_noneBehind o.fwd.lspLimit hmsps hnone (hopened ph1 ph2).1 (hopened ph1' ph2').1
              (hopened ph1 ph2).2 (hopened ph1' ph2').2]
      · intro hreads
        cases hreads with
        | failed hfault =>
            rw [hfwd] at hfault
            cases hfault
  · intro hrange hread h
    constructor
    · by_contra hmisses
      obtain ⟨-, hfault⟩ | ⟨hnot, -⟩ := fwdEvents1_cases c o range
      · exact (h (.inTurn _) (.inTurn _) (.inTurn _) (.inTurn _)).2 (.failed (hfault _ _))
      · exact hmisses hnot
    · by_cases hn : o.lspLstConcurrent ≤ 1
      · exact .inl hn
      · exact .inr ⟨hread, noneBehind_of_independent (by omega) hread hrange h⟩

/-- Two partitions, of which the second one has two events -/
def straddling : Content ℕ where
  msps := [40000001, 40000002]
  rows msp := if msp = 40000001 then [(5, 10)] else if msp = 40000002 then [(1, 20), (1000001, 30)] else []
  msps_sorted := by decide
  rows_sorted msp := by
    split_ifs <;> decide

/-- The options for reading forwards of {lit}`Opts::testing` -/
def testing : LspFwdMspMulti.Opts := ⟨5, 10, 5, 5, 13⟩

theorem readsAhead_testing : testing.ReadsAhead := ⟨by decide, by decide, by decide, by decide⟩

/-- The options of a short retention time: those of {lit}`ScyllaOptsDefault`, and {lit}`testing` -/
def options : Opts := ⟨false, 10, .short, testing⟩

/-- Behind the events of both partitions only the later one is opened. -/
theorem independent_straddling : Independent straddling options ⟨40000005000000, 40000006000000⟩ ∧
    OrderFree straddling options ⟨40000005000000, 40000006000000⟩ := by
  have hno : ∀ fin msp, ¬ Misses straddling options fin msp := by
    rintro fin msp ⟨havoid, -⟩
    cases havoid
  have hlater : Recent straddling options 40000005000000 40000002 := by
    exact ⟨by decide, by decide, by decide, by decide, by decide⟩
  have hopened : ∀ k, Opened straddling options 40000005000000 k → k = 40000002 := by
    rintro k ⟨⟨hk, ts, hts, hlast⟩, -⟩
    obtain rfl | rfl : k = 40000001 ∨ k = 40000002 := by simpa [straddling] using hk.2.1
    · have hend : lastTs straddling options none 40000001 = some 40000001000005 := rfl
      have hle := hlast 40000002 hlater 40000003000001 rfl (by decide)
      rw [hend] at hts
      cases hts
      exact absurd hle (by decide)
    · rfl
  have hnone : NoneBehind straddling options ⟨40000005000000, 40000006000000⟩ := by
    intro k k' hk hk' m _ hkm hmk'
    rw [hopened k hk] at hkm
    rw [hopened k' hk'] at hmk'
    exact absurd hkm (not_lt.mpr hmk')
  have hfree : OrderFree straddling options ⟨40000005000000, 40000006000000⟩ :=
    ⟨⟨fun msp _ => hno none msp, fun msp _ => hno _ msp⟩, .inr ⟨readsAhead_testing, hnone⟩⟩
  have hindependent := (independent_iff straddling options ⟨40000005000000, 40000006000000⟩).1 hfree
  exact ⟨hindependent, (independent_iff straddling options ⟨40000005000000, 40000006000000⟩).2 (by decide)
    readsAhead_testing hindependent⟩

/-- Where the earlier partition is answered last, the events of the later one come out twice. -/
theorem not_independent : ¬ Independent straddling options ⟨40000003000000, 40000005000000⟩ := by
  intro h
  have hsame := (h (.inTurn _) (.inTurn _) (.inTurn _) (.last (by decide) 40000001)).1
  have hinTurn : fwdEvents1 straddling options ⟨40000003000000, 40000005000000⟩ (.inTurn _) (.inTurn _) =
      .ok (40000002000001, [40000001, 40000002]) := rfl
  have hlast : fwdEvents1 straddling options ⟨40000003000000, 40000005000000⟩ (.inTurn _)
      (.last (by decide) 40000001) = .ok (40000002000001, [40000002, 40000001]) := rfl
  have hlen := congrArg List.length (merge_eq_of_reads readsAhead_testing hsame hinTurn hlast)
  rw [(PartMerge.Merging.merge_perm _ _).1.length_eq, (PartMerge.Merging.merge_perm _ _).1.length_eq] at hlen
  exact absurd hlen (by decide)

end EventsKs
end Scylla
end Daqbuf
