import Daqbuf.Binning.EventsRun
/-!
# The Events that the Event Binner Accepts

The binner does not sort.  It fails on an event behind the end of the range, on one before its active bin or before
its last event, and on one at the begin of a bin behind another one inside of this bin.  The very first event
is less constrained: it may lie before the active bin, and the ones behind it in its bin may be older.

Main results:

- Theorem {lit}`BinnedEventsTimeweight.ingest_accepts`: a container of such events is ingested without an error, and
  what is left of it can be ingested again.
-/

namespace Daqbuf
namespace Binning

open Netpod Search
open Items (EventSingle)

variable {V G R : Type}

/-- An event may follow another one, as far as they share a bin: it lies behind the begin of the bin of the other one,
or at the same time. -/
def Follows (len : ℕ) (a b : EventSingle V) : Prop := a.ts / len * len < b.ts ∨ b.ts = a.ts

section Active

variable [PartialOrdEvtA V] [AggregatorTimeWeight G V R] {evs : List (EventSingle V)} {len : ℕ}

omit [PartialOrdEvtA V] in
/-- The bin of a time of the active bin -/
theorem Placed.floor {ia : InnerA V G} {ts : ℕ} (h : Placed len ia) (hin : InBin ia.innerB ts) :
    ts / len * len = ia.innerB.activeBeg := by
  obtain ⟨k, hk⟩ := h.aligned
  have hend := h.activeEnd
  obtain ⟨hbeg, hlt⟩ := hin
  have hdiv : ts / len = k := by
    apply Nat.div_eq_of_lt_le
    · rw [Nat.mul_comm]
      omega
    · rw [Nat.succ_mul, Nat.mul_comm]
      omega
  rw [hdiv, hk, Nat.mul_comm]

theorem ingestWithLstGtRangeBeg_accepts {a : Act V G}
    (hin : ∀ ev ∈ evs, a.b.activeBeg < ev.ts ∧ ev.ts < a.b.activeEnd) :
    (ingestWithLstGtRangeBeg evs a).1 = .ok () := by
  induction evs generalizing a with
  | nil => rfl
  | cons ev evs ih =>
      obtain ⟨⟨hgt, hlt⟩, hevs⟩ := List.forall_mem_cons.mp hin
      rw [ingestWithLstGtRangeBeg, if_neg (not_le.mpr hgt), if_neg (not_le.mpr hlt)]
      exact ih hevs

/-- Behind an event inside of the active bin none may lie at its begin. -/
theorem ingestWithLstGeRangeBeg_accepts {a : Act V G} {m : Option (MinMax V)} (hplaced : Placed len ⟨a.b, m⟩)
    (hin : ∀ ev ∈ evs, InBin a.b ev.ts) (hordered : evs.Pairwise (Follows len)) :
    (ingestWithLstGeRangeBeg evs a).1 = .ok () := by
  induction evs generalizing a with
  | nil => rfl
  | cons ev evs ih =>
      obtain ⟨hev, hevs⟩ := List.forall_mem_cons.mp hin
      obtain ⟨hfollows, hrest⟩ := List.pairwise_cons.mp hordered
      have hguard : ¬(ev.ts < a.b.activeBeg ∨ a.b.activeEnd ≤ ev.ts) := by
        have hbeg := hev.1
        have hend := hev.2
        omega
      rw [ingestWithLstGeRangeBeg, if_neg hguard]
      by_cases heq : ev.ts = a.b.activeBeg
      · have habsorb : a.absorb ev = a.ingestEventEq ev := if_pos heq
        rw [if_pos heq, ← habsorb]
        apply ih
        · exact placed_absorb hplaced hev
        · intro x hx
          exact inBin_absorb.mpr (hevs x hx)
        · exact hrest
      · rw [if_neg heq]
        apply ingestWithLstGtRangeBeg_accepts
        intro x hx
        refine ⟨?_, (hevs x hx).2⟩
        change a.b.activeBeg < x.ts
        have hfloor : ev.ts / len * len = a.b.activeBeg := hplaced.floor hev
        have hbeg := hev.1
        rcases hfollows x hx with hlt | hsame
        · exact hfloor ▸ hlt
        · omega

theorem ingestWithLstMinmax_accepts {a : Act V G} {m : Option (MinMax V)} (hplaced : Placed len ⟨a.b, m⟩)
    (hin : ∀ ev ∈ evs, InBin a.b ev.ts) (hordered : evs.Pairwise (Follows len)) :
    (ingestWithLstMinmax evs a).1 = .ok () := by
  unfold ingestWithLstMinmax
  cases evs with
  | nil => rfl
  | cons ev evs =>
      have hev := hin ev List.mem_cons_self
      simp only
      rw [if_neg (not_lt.mpr hev.1), if_neg (not_le.mpr hev.2)]
      exact ingestWithLstGeRangeBeg_accepts hplaced hin hordered

end Active

namespace BinnedEventsTimeweight

/-! ## What is accepted -/

/-- The binner can take in the events: their bins do not go back, none but the very first event of all lies before the
active bin, and in its bin none that lies at the begin comes behind one that does not, the very first apart. -/
structure Accepts (s : BinnedEventsTimeweight V G R) (evs : List (EventSingle V)) : Prop where
  inRange : ∀ ev ∈ evs, ev.ts < s.range.nanoEnd
  first : ∀ lst ∈ s.lst, ∀ ev ∈ evs.head?, lst.ts ≤ ev.ts ∧ s.innerA.innerB.activeBeg ≤ ev.ts
  active : ∀ ev ∈ evs.tail, s.innerA.innerB.activeBeg ≤ ev.ts
  bins : evs.Pairwise fun a b => a.ts / s.range.binLen ≤ b.ts / s.range.binLen
  ordered : (if s.lst.isSome then evs else evs.tail).Pairwise (Follows s.range.binLen)

variable {s s' : BinnedEventsTimeweight V G R} {ev : EventSingle V} {xs ys evs : List (EventSingle V)}

theorem accepts_nil : s.Accepts [] where
  inRange := nofun
  first := nofun
  active := nofun
  bins := .nil
  ordered := by
    rw [List.tail_nil, ite_self]
    exact .nil

theorem Accepts.sublist (h : s.Accepts (ev :: ys)) (hsub : xs.Sublist ys) : s.Accepts (ev :: xs) where
  inRange x hx := h.inRange x ((hsub.cons_cons ev).subset hx)
  first := h.first
  active x hx := h.active x (hsub.subset hx)
  bins := h.bins.sublist (hsub.cons_cons ev)
  ordered := by
    have hordered := h.ordered
    split
    · rename_i hlst
      rw [if_pos hlst] at hordered
      exact hordered.sublist (hsub.cons_cons ev)
    · rename_i hlst
      rw [if_neg hlst] at hordered
      exact hordered.sublist hsub

/-- Whatever bins are taken, the same events are accepted. -/
theorem accepts_out (out : List (Bin V R)) : Accepts { s with out := out } evs ↔ s.Accepts evs := by
  constructor
  · intro h
    exact ⟨h.inRange, h.first, h.active, h.bins, h.ordered⟩
  · intro h
    exact ⟨h.inRange, h.first, h.active, h.bins, h.ordered⟩

/-- The active bin may go on up to the first event. -/
theorem Accepts.advance (h : s.Accepts (ev :: xs)) (hconf : SameConf s s') (hlst : s'.lst = s.lst)
    (hplaced : Placed s.range.binLen s'.innerA) (hbeg : s'.innerA.innerB.activeBeg ≤ ev.ts) :
    s'.Accepts (ev :: xs) := by
  obtain ⟨k, hk⟩ := hplaced.aligned
  have hbins := h.bins
  have hordered := h.ordered
  constructor
  · rw [hconf.range]
    exact h.inRange
  · intro lst hl x hx
    rw [hlst] at hl
    obtain rfl : ev = x := by simpa using hx
    exact ⟨(h.first lst hl ev rfl).1, hbeg⟩
  · intro x hx
    have hle : ev.ts / s.range.binLen ≤ x.ts / s.range.binLen := (List.pairwise_cons.mp hbins).1 x hx
    have hfloor : k ≤ ev.ts / s.range.binLen := by
      rw [Nat.le_div_iff_mul_le hplaced.len_pos, Nat.mul_comm, ← hk]
      exact hbeg
    rw [hk, Nat.mul_comm]
    exact (Nat.le_div_iff_mul_le hplaced.len_pos).mp (hfloor.trans hle)
  · rw [hconf.range]
    exact hbins
  · rw [hconf.range, hlst]
    exact hordered

/-- Cutting at the end of a bin, the events before it come first. -/
theorem partitioned_of_bins {len bound : ℕ} (hpos : 0 < len) (hbound : len ∣ bound)
    (hbins : evs.Pairwise fun a b => a.ts / len ≤ b.ts / len) :
    Partitioned (fun ev => decide (ev.ts < bound)) evs := by
  obtain ⟨k, rfl⟩ := hbound
  apply hbins.imp
  intro a b hle hb
  rw [decide_eq_true_eq, Nat.mul_comm, ← Nat.div_lt_iff_lt_mul hpos] at hb ⊢
  exact hle.trans_lt hb

/-- The events of the active bin, from a position of the container on: those behind it lie in later bins. -/
theorem constrainUpToTs_eq (search : BinarySearch ℕ) {pos bound : ℕ} (hpre : ∀ x ∈ evs.take pos, x.ts < bound)
    (hpart : Partitioned (fun ev => decide (ev.ts < bound)) (evs.drop pos)) (hev : evs[pos]? = some ev)
    (hlt : ev.ts < bound) :
    ∃ m, constrainUpToTs search evs pos bound = .ok (pos + (m + 1)) ∧
      (evs.take (pos + (m + 1))).drop pos = ev :: (evs.drop (pos + 1)).take m ∧
      (∀ x ∈ evs.take (pos + (m + 1)), x.ts < bound) ∧ ∀ x ∈ evs.drop (pos + (m + 1)), bound ≤ x.ts := by
  set p : EventSingle V → Bool := fun ev => decide (ev.ts < bound) with hp
  obtain ⟨hlen, hget⟩ := List.getElem?_eq_some_iff.mp hev
  have hdrop : evs.drop pos = ev :: evs.drop (pos + 1) := by
    rw [List.drop_eq_getElem_cons hlen, hget]
  have hpreP : ∀ x ∈ evs.take pos, p x = true := fun x hx => decide_eq_true (hpre x hx)
  set m := partitionPoint p (evs.drop (pos + 1)) with hm
  have hcount : partitionPoint p (evs.drop pos) = m + 1 := by
    have hone : ∀ x ∈ [ev], p x = true := by
      intro x hx
      rw [List.mem_singleton.mp hx]
      exact decide_eq_true hlt
    rw [hdrop, ← List.singleton_append, partitionPoint_append hone, Nat.add_comm]
    rfl
  have htakeLen : (evs.take pos).length = pos := List.length_take_of_le hlen.le
  have hpoint : partitionPoint p evs = pos + (m + 1) := by
    have hsplit : partitionPoint p (evs.take pos ++ evs.drop pos) = _ := partitionPoint_append hpreP
    rwa [List.take_append_drop, htakeLen, hcount] at hsplit
  have hall : Partitioned p evs := by
    rw [← List.take_append_drop pos evs]
    apply List.pairwise_append.mpr
    refine ⟨?_, hpart, fun a ha b _ _ => hpreP a ha⟩
    exact List.pairwise_of_forall_mem_list fun a ha b _ _ => hpreP a ha
  have hsearch : search.pp (fun t => decide (t < bound)) (evs.map (·.ts)) = pos + (m + 1) := by
    have hmap : Partitioned (fun t => decide (t < bound)) (evs.map (·.ts)) := by
      apply List.pairwise_map.mpr
      exact hall
    rw [search.pp_eq _ _ hmap, partitionPoint, List.takeWhile_map, List.length_map, ← hpoint]
    rfl
  have hle : pos + (m + 1) ≤ evs.length := hpoint ▸ partitionPoint_le_length p evs
  refine ⟨m, ?_, ?_, ?_, ?_⟩
  · unfold constrainUpToTs
    simp only
    rw [hsearch, max_eq_left (Nat.le_add_right _ _), List.length_map]
    apply if_pos
    refine ⟨hle, fun _ => ?_⟩
    have hlast : pos + (m + 1) - 1 < evs.length := by omega
    have hlast' : pos + (m + 1) - 1 < (evs.map (·.ts)).length := by rwa [List.length_map]
    have hbelow : p (evs[pos + (m + 1) - 1]) = true :=
      of_lt_partitionPoint (by omega) (List.getElem?_eq_getElem hlast)
    rw [List.getD_eq_getElem _ _ hlast', List.getElem_map]
    exact of_decide_eq_true hbelow
  · rw [List.drop_take, Nat.add_sub_cancel_left, hdrop, List.take_succ_cons]
  · intro x hx
    rw [← hpoint, take_partitionPoint_eq_takeWhile] at hx
    have hbelow : p x = true := List.mem_takeWhile_imp hx
    exact of_decide_eq_true hbelow
  · intro x hx
    rw [← hpoint, drop_partitionPoint hall] at hx
    have hnot := (List.mem_filter.mp hx).2
    rw [hp, Bool.not_eq_true', decide_eq_false_iff_not, not_lt] at hnot
    exact hnot

/-! ## One round -/

section Round

variable [PartialOrdEvtA V] [AggregatorTimeWeight G V R] {lst : EventSingle V} {len : ℕ}

theorem ingestWithLst_accepts (len : ℕ) (hplaced : Placed len s.innerA) (hminmax : s.innerA.minmax.isSome)
    (hin : ∀ ev ∈ evs, InBin s.innerA.innerB ev.ts) (hordered : evs.Pairwise (Follows len)) :
    (s.ingestWithLst lst evs).1 = .ok [] := by
  obtain ⟨minmax, hmm⟩ := Option.isSome_iff_exists.mp hminmax
  have hact : (ingestWithLstMinmax evs ⟨s.innerA.innerB, lst, minmax⟩).1 = .ok () :=
    ingestWithLstMinmax_accepts (a := ⟨s.innerA.innerB, lst, minmax⟩) hplaced hin hordered
  unfold ingestWithLst InnerA.ingestWithLst
  simp only [hmm, InnerA.ofAct, hact]
  rfl

/-- The first event of all is kept, and the others go into the active bin. -/
theorem ingestWithoutLst_accepts (hplaced : Placed len s.innerA) (hev : ev.ts < s.innerA.innerB.activeEnd)
    (hin : ∀ x ∈ xs, InBin s.innerA.innerB x.ts) (hordered : xs.Pairwise (Follows len)) :
    (s.ingestWithoutLst (ev :: xs)).1 = .ok [] := by
  rw [ingestWithoutLst, if_pos hev, ingestEventWithoutLst]
  by_cases hbefore : ev.ts < s.innerA.innerB.activeBeg
  · rw [if_pos hbefore]
    apply ingestWithLst_accepts len
    · exact ⟨hplaced.1, hplaced.2, hplaced.3, hplaced.4, hplaced.5, hplaced.6⟩
    · rfl
    · exact hin
    · exact hordered
  · rw [if_neg hbefore, if_neg (not_le.mpr hev)]
    apply ingestWithLst_accepts len
    · exact ⟨hplaced.1, hplaced.2, hplaced.3, hplaced.4, not_lt.mp hbefore, hev⟩
    · rfl
    · exact hin
    · exact hordered

/-- Accepted events that end in the active bin are ingested. -/
theorem ingestActive_accepts (hgood : s.Good) (hpos : 0 < s.range.binLen) (h : s.Accepts (ev :: xs))
    (hlt : ∀ x ∈ ev :: xs, x.ts < s.innerA.innerB.activeEnd) : (s.ingestActive ev.ts (ev :: xs)).1 = .ok [] := by
  have hplaced := hgood.placed hpos
  have hminmax := hgood.minmax
  have hordered := h.ordered
  obtain ⟨hev, hxs⟩ := List.forall_mem_cons.mp hlt
  have hin : ∀ x ∈ xs, InBin s.innerA.innerB x.ts := fun x hx => ⟨h.active x hx, hxs x hx⟩
  cases hlst : s.lst with
  | some lst =>
      rw [hlst] at hminmax hordered
      obtain ⟨hle, hbeg⟩ := h.first lst hlst ev rfl
      unfold ingestActive ingestOrdered
      simp only [hlst]
      rw [if_neg (not_lt.mpr hle)]
      apply ingestWithLst_accepts s.range.binLen hplaced hminmax
      · exact List.forall_mem_cons.mpr ⟨⟨hbeg, hev⟩, hin⟩
      · exact hordered
  | none =>
      rw [hlst] at hminmax hordered
      unfold ingestActive ingestOrdered
      simp only [hlst, hminmax]
      exact ingestWithoutLst_accepts hplaced hev hin hordered

omit [PartialOrdEvtA V] in
/-- Before an event the active bin stays, or it goes on, up to that of the event unless there are too many bins. -/
theorem cycleBefore_accepts (ev : EventSingle V) (hgood : s.Good) (hpos : 0 < s.range.binLen) :
    ∃ s1, s.cycleBefore ev.ts = .ok s1 ∧ s1.lst = s.lst ∧
      (s1 = s ∧ ev.ts < s.innerA.innerB.activeEnd ∨
        s.innerA.innerB.activeEnd ≤ ev.ts ∧ s1.innerA.innerB.activeBeg ≤ ev.ts ∧
          (s1.out.length ≤ outLenMax → ev.ts < s1.innerA.innerB.activeEnd)) := by
  have hplaced := hgood.placed hpos
  have hminmax := hgood.minmax
  unfold cycleBefore
  simp only
  by_cases hle : s.innerA.innerB.activeEnd ≤ ev.ts
  · rw [if_pos hle, if_pos hplaced.filled_lt]
    cases hlst : s.lst with
    | some lst =>
        rw [hlst] at hminmax
        obtain ⟨ia, k, hcycle, hway, hend, -⟩ := cycle01_some hlst hplaced hminmax hle
        exact ⟨_, hcycle, hlst, .inr ⟨hle, hway.beg_le, hend⟩⟩
    | none =>
        rw [hlst, Option.isSome_none, Option.isSome_eq_false_iff, Option.isNone_iff_eq_none] at hminmax
        refine ⟨_, cycle01_none hlst hplaced hminmax hle, hlst, .inr ⟨hle, ?_, fun _ => ?_⟩⟩
        · exact Nat.div_mul_le_self _ _
        · change ev.ts < ev.ts / s.innerA.innerB.activeLen * s.innerA.innerB.activeLen + s.innerA.innerB.activeLen
          rw [hplaced.activeLen]
          exact Nat.lt_div_mul_add hplaced.len_pos
  · rw [if_neg hle]
    exact ⟨s, rfl, rfl, .inl ⟨rfl, not_le.mp hle⟩⟩

/-! ## A container -/

theorem lst_step (z : Bool) (c : Cur V G R) (ev : EventSingle V) : (c.step z ev).lst = some ev := by
  unfold Cur.step Cur.absorb
  simp only
  split
  · split
    · rfl
    · rfl
  · split
    · rfl
    · rfl

/-- After some events one of them is the last. -/
theorem lst_steps (z : Bool) (c : Cur V G R) (hne : evs ≠ []) : ∃ ev ∈ evs, (c.steps z evs).lst = some ev := by
  obtain hnil | ⟨init, last, rfl⟩ := List.eq_nil_or_concat' evs
  · exact absurd hnil hne
  refine ⟨last, List.mem_append_right _ (List.mem_singleton_self _), ?_⟩
  rw [steps_append]
  exact lst_step z _ last

/-- A round takes in the events of the active bin; those of later bins are accepted behind them. -/
theorem ingestActive_leaves (hgood : s.Good) (hpos : 0 < s.range.binLen) (h : s.Accepts (ev :: (xs ++ ys)))
    (hlt : ∀ x ∈ ev :: xs, x.ts < s.innerA.innerB.activeEnd) (hge : ∀ y ∈ ys, s.innerA.innerB.activeEnd ≤ y.ts) :
    ∃ s', s.ingestActive ev.ts (ev :: xs) = (.ok [], s') ∧ SameConf s s' ∧ s'.Good ∧
      s'.innerA.innerB.activeEnd = s.innerA.innerB.activeEnd ∧ s'.Accepts ys := by
  have hok := ingestActive_accepts hgood hpos (h.sublist (List.sublist_append_left xs ys)) hlt
  obtain ⟨s', heq⟩ : ∃ s', s.ingestActive ev.ts (ev :: xs) = (.ok [], s') := ⟨_, Prod.ext hok rfl⟩
  obtain ⟨-, hconf, -, hcur, hkeeps, hbeg, hminmax⟩ :=
    ingestOrdered_ok s.range.binLen s.produceCntZero [] hgood.minmax (ingestActive_ok heq)
  have hplaced := hgood.placed hpos
  have hplaced' := hkeeps hplaced
  obtain ⟨last, hlast, hlst⟩ := lst_steps s.produceCntZero (s.cur []) (List.cons_ne_nil ev xs)
  have hlst' : s'.lst = some last := (congrArg Cur.lst hcur).trans hlst
  have hbegin : s.innerA.innerB.activeBeg ≤ s.innerA.innerB.activeEnd := by
    rw [hplaced.activeEnd]
    exact Nat.le_add_right _ _
  have hsub : ys.Sublist (ev :: (xs ++ ys)) := (List.sublist_append_right xs ys).cons ev
  refine ⟨s', heq, hconf, ?_, ?_, ?_⟩
  · refine ⟨fun _ => hconf.range ▸ hplaced', hminmax, fun hne => ?_⟩
    rw [hbeg, hconf.range]
    exact hgood.inRange (hconf.range ▸ hne)
  · rw [hplaced'.activeEnd, hplaced.activeEnd, hbeg]
  · constructor
    · intro y hy
      rw [hconf.range]
      exact h.inRange y (hsub.subset hy)
    · intro l hl y hy
      rw [hlst'] at hl
      obtain rfl : last = l := by simpa using hl
      have hend := hge y (List.mem_of_mem_head? hy)
      rw [hbeg]
      exact ⟨((hlt last hlast).trans_le hend).le, hbegin.trans hend⟩
    · intro y hy
      rw [hbeg]
      exact hbegin.trans (hge y (List.mem_of_mem_tail hy))
    · rw [hconf.range]
      exact h.bins.sublist hsub
    · have hordered := h.ordered
      rw [hlst', hconf.range, Option.isSome_some, if_pos rfl]
      split at hordered
      · exact hordered.sublist hsub
      · exact hordered.sublist (List.sublist_append_right xs ys)

/-- The loop of {lit}`ingest` goes through accepted events, and it leaves accepted events where it is interrupted. -/
theorem ingestLoop_accepts [LawfulAggregatorTimeWeight G (V := V) (R := R)] (search : BinarySearch ℕ) {n pos : ℕ}
    (hgood : s.Good) (hn : evs.length - pos ≤ n) (hpre : ∀ x ∈ evs.take pos, x.ts < s.innerA.innerB.activeEnd)
    (h : s.Accepts (evs.drop pos)) :
    ∃ report s', ingestLoop search evs n pos pos s = (.ok report, s') ∧
      s'.Accepts (evs.drop (consumed evs.length report)) := by
  induction n generalizing s pos with
  | zero =>
      refine ⟨.consumedAll, s, rfl, ?_⟩
      rw [consumed, List.drop_length]
      exact accepts_nil
  | succ n ih =>
      rw [ingestLoop]
      cases hev : evs[pos]? with
      | none =>
          refine ⟨.consumedAll, s, rfl, ?_⟩
          rw [consumed, List.drop_length]
          exact accepts_nil
      | some ev =>
          obtain ⟨hlen, hget⟩ := List.getElem?_eq_some_iff.mp hev
          have hdrop : evs.drop pos = ev :: evs.drop (pos + 1) := by
            rw [List.drop_eq_getElem_cons hlen, hget]
          rw [hdrop] at h
          have hrange : ev.ts < s.range.nanoEnd := h.inRange ev List.mem_cons_self
          have hpos : 0 < s.range.binLen := by
            apply Nat.pos_of_ne_zero
            intro hzero
            rw [BinnedRange.nanoEnd, hzero, Nat.zero_mul] at hrange
            exact Nat.not_lt_zero _ hrange
          obtain ⟨s1, hbefore, hlst1, hcase⟩ := cycleBefore_accepts ev hgood hpos
          obtain ⟨hconf1, hgood1, -⟩ := cycleBefore_ok [] hgood hpos hrange hbefore
          have hpos1 : 0 < s1.range.binLen := by
            rw [hconf1.range]
            exact hpos
          have hplaced1 := hgood1.placed hpos1
          have haccepts1 : s1.Accepts (ev :: evs.drop (pos + 1)) := by
            rcases hcase with ⟨rfl, -⟩ | ⟨-, hbeg, -⟩
            · exact h
            · exact h.advance hconf1 hlst1 (hconf1.range ▸ hplaced1) hbeg
          simp only
          rw [if_neg (not_le.mpr hrange), hbefore]
          simp only
          by_cases hfull : s.innerA.innerB.activeEnd ≤ ev.ts ∧ outLenMax < s1.out.length
          · rw [if_pos hfull]
            refine ⟨.consumedPart pos, s1, rfl, ?_⟩
            rw [consumed, hdrop]
            exact haccepts1
          · -- The active bin is that of the event, or a later one that the first event of all precedes.
            have hend : ev.ts < s1.innerA.innerB.activeEnd ∧
                s.innerA.innerB.activeEnd ≤ s1.innerA.innerB.activeEnd := by
              rcases hcase with ⟨rfl, hlt⟩ | ⟨hle, -, hroom⟩
              · exact ⟨hlt, le_rfl⟩
              · have hlt := hroom (not_lt.mp fun hout => hfull ⟨hle, hout⟩)
                exact ⟨hlt, (hle.trans_lt hlt).le⟩
            have hpart : Partitioned (fun ev => decide (ev.ts < s1.innerA.innerB.activeEnd)) (evs.drop pos) := by
              rw [hdrop]
              exact partitioned_of_bins hpos1 hplaced1.dvd_activeEnd haccepts1.bins
            obtain ⟨m, hfin, hcur, hbelow, habove⟩ :=
              constrainUpToTs_eq search (fun x hx => (hpre x hx).trans_le hend.2) hpart hev hend.1
            have hsplit : (evs.drop (pos + 1)).take m ++ evs.drop (pos + (m + 1)) = evs.drop (pos + 1) := by
              have hsum : pos + 1 + m = pos + (m + 1) := by omega
              have hboth := List.take_append_drop m (evs.drop (pos + 1))
              rwa [List.drop_drop, hsum] at hboth
            have hinside : ∀ x ∈ ev :: (evs.drop (pos + 1)).take m, x.ts < s1.innerA.innerB.activeEnd := by
              rw [← hcur]
              intro x hx
              exact hbelow x (List.mem_of_mem_drop hx)
            rw [← hsplit] at haccepts1
            obtain ⟨s2, hactive, hconf2, hgood2, hend2, haccepts2⟩ :=
              ingestActive_leaves hgood1 hpos1 haccepts1 hinside habove
            rw [if_neg hfull, hfin]
            simp only
            rw [hcur, hactive]
            simp only [List.length_nil, Nat.sub_zero]
            by_cases hall : evs.length - (pos + (m + 1)) = 0
            · rw [if_pos hall]
              refine ⟨.consumedAll, s2, rfl, ?_⟩
              rw [consumed, List.drop_length]
              exact accepts_nil
            · have hcount : pos + (evs.length - pos - (evs.length - (pos + (m + 1)))) = pos + (m + 1) := by omega
              rw [if_neg hall, if_neg (by omega), hcount]
              apply ih hgood2 (by omega)
              · rw [hend2]
                exact hbelow
              · exact haccepts2

/-- A container of accepted events is ingested without an error, and what is left of it is accepted again. -/
theorem ingest_accepts [LawfulAggregatorTimeWeight G (V := V) (R := R)] (search : BinarySearch ℕ) (hgood : s.Good)
    (h : s.Accepts evs) :
    ∃ report s', s.ingest search evs = (.ok report, s') ∧ s'.Accepts (evs.drop (consumed evs.length report)) := by
  apply ingestLoop_accepts search hgood (Nat.sub_le _ _)
  · intro x hx
    rw [List.take_zero] at hx
    exact absurd hx List.not_mem_nil
  · exact h

end Round

end BinnedEventsTimeweight
end Binning
end Daqbuf
