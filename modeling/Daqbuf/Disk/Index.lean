import Daqbuf.Bytes.Endian
import Daqbuf.Netpod.Range
import Daqbuf.Search.Bisect
/-!
# Positions in Index Files

The searches over the index of a data file, whose entries are a timestamp and a file position of eight
bytes each, for the first event at or after the beginning of a range and for the last event before it.

Main results:

- Theorems {lit}`findGe_of_entries` and {lit}`findLargestSmallerThan_of_entries`: on an index that is
  ordered by time the searches end and give the entry they are meant to find.
-/

namespace Daqbuf
namespace Disk

open Bytes Search
open Netpod (NanoRange)

/-- What can go wrong while a file is positioned. -/
inductive Fault where
  /-- {lit}`find_ge  bad len` -/
  | badLen (n1 : ℕ)
  /-- {lit}`search in unordered data` -/
  | unordered (ts1 ts2 : ℕ)
  /-- {lit}`search (loop) in unordered data` -/
  | unorderedLoop (ts1 ts2 : ℕ)
  /-- {lit}`parse_channel_header  buf len` -/
  | headerBufLen (n : ℕ)
  /-- {lit}`unknown file version` -/
  | unknownFileVersion (ver : ℕ)
  /-- {lit}`unexpected data file header len1` -/
  | unexpectedHeaderLen (len1 : ℕ)
  /-- {lit}`data file header not contained in buffer` -/
  | headerNotContained (len1 buflen : ℕ)
  /-- {lit}`parse_event  buf len` -/
  | eventBufLen (n : ℕ)
  /-- {lit}`unexpected event len1` -/
  | unexpectedEventLen (len1 : ℕ)
  /-- {lit}`event not contained in buffer` -/
  | eventNotContained (len1 buflen : ℕ)
  /-- {lit}`len mismatch` -/
  | lenMismatch (len1 len2 : ℕ)
  /-- {lit}`inconsistent event lengths` -/
  | inconsistentEventLengths (len evlen : ℕ)
  /-- a failed assertion or an access out of bounds -/
  | panic
  /-- a loop that does not end -/
  | endless
  deriving DecidableEq, Repr

/-! ## The index -/

/-- The timestamp of the entry {lit}`a[i]` of an index. -/
def indexTs (buf : List UInt8) (i : ℕ) : ℕ := ofBe (slice buf (16 * i) (16 * i + 8))

/-- The file position of the entry {lit}`a[i]` of an index. -/
def indexPos (buf : List UInt8) (i : ℕ) : ℕ := ofBe (slice buf (16 * i + 8) (16 * i + 16))

/-- The loop that {lit}`find_ge` and {lit}`find_largest_smaller_than` share. -/
def indexBisection (range : NanoRange) (buf : List UInt8) : Bisection ℕ Fault where
  guard b := if b.x ≥ b.y then .error (.unorderedLoop b.x b.y) else .ok ()
  tight j k := decide (k - j < 2)
  mid j k := (k + j) / 2
  read m := .ok (indexTs buf m)
  below e := decide (e < range.beg)
  endless := .endless

/-- {lit}`find_ge` -/
def findGe (range : NanoRange) (expandRight : Bool) (buf : List UInt8) :
    Except Fault (Option (ℕ × ℕ)) :=
  let n1 := buf.length
  if n1 % 16 ≠ 0 then .error (.badLen n1)
  else if n1 = 0 then .ok none
  else
    let k := n1 / 16 - 1
    let x := indexTs buf 0
    let y := indexTs buf k
    if y < range.beg then .ok none
    else if range.beg ≤ x then
      if x < range.fin || expandRight then .ok (some (x, indexPos buf 0)) else .ok none
    else if y ≤ x then .error (.unordered x y)
    else
      match (indexBisection range buf).loop k ⟨0, k, x, y, 2⟩ with
      | .error e => .error e
      | .ok b =>
        if b.y < range.fin || expandRight then .ok (some (b.y, indexPos buf b.k)) else .ok none

/-- {lit}`find_largest_smaller_than` -/
def findLargestSmallerThan (range : NanoRange) (_expandRight : Bool) (buf : List UInt8) :
    Except Fault (Option (ℕ × ℕ)) :=
  let n1 := buf.length
  if n1 % 16 ≠ 0 then .error (.badLen n1)
  else if n1 = 0 then .ok none
  else
    let k := n1 / 16 - 1
    let x := indexTs buf 0
    let y := indexTs buf k
    if range.beg ≤ x then .ok none
    else if y < range.beg then .ok (some (y, indexPos buf k))
    else if y ≤ x then .error (.unordered x y)
    else
      match (indexBisection range buf).loop k ⟨0, k, x, y, 2⟩ with
      | .error e => .error e
      | .ok b => .ok (some (b.x, indexPos buf b.j))

/-- The entries of an index, and its bytes. -/
def indexBytes (entries : List (ℕ × ℕ)) : List UInt8 :=
  entries.flatMap fun e => beBytes 8 e.1 ++ beBytes 8 e.2

/-- Entries whose fields fit into eight bytes and whose timestamps do not decrease. -/
structure IndexEntries (entries : List (ℕ × ℕ)) : Prop where
  ts_lt : ∀ e ∈ entries, e.1 < 256 ^ 8
  pos_lt : ∀ e ∈ entries, e.2 < 256 ^ 8
  sorted : SortedBy Prod.fst entries

theorem length_indexBytes (entries : List (ℕ × ℕ)) :
    (indexBytes entries).length = 16 * entries.length := by
  induction entries with
  | nil => rfl
  | cons e entries ih =>
      rw [indexBytes, List.flatMap_cons, List.length_append, ← indexBytes, ih]
      simp
      omega

/-- The entry with index {lit}`i` is read back. -/
theorem index_of_getElem? {entries : List (ℕ × ℕ)} (hentries : IndexEntries entries) {i : ℕ}
    {e : ℕ × ℕ} (he : entries[i]? = some e) :
    indexTs (indexBytes entries) i = e.1 ∧ indexPos (indexBytes entries) i = e.2 := by
  have hmem : e ∈ entries := List.mem_of_getElem? he
  rcases List.getElem?_eq_some_iff.mp he with ⟨hi, hget⟩
  have hsplit : indexBytes entries = indexBytes (entries.take i) ++ beBytes 8 e.1 ++
      (beBytes 8 e.2 ++ indexBytes (entries.drop (i + 1))) := by
    have hlist : entries = entries.take i ++ e :: entries.drop (i + 1) := by
      rw [← hget, List.getElem_cons_drop, List.take_append_drop]
    conv_lhs => rw [hlist]
    simp [indexBytes, List.flatMap_append]
  have hlen : (indexBytes (entries.take i)).length = 16 * i := by
    rw [length_indexBytes, List.length_take, min_eq_left hi.le]
  constructor
  · have hslice : slice (indexBytes entries) (16 * i) (16 * i + 8) = beBytes 8 e.1 := by
      rw [hsplit]
      exact slice_middle hlen.symm (by simp [hlen])
    rw [indexTs, hslice, ofBe_beBytes_of_lt (hentries.ts_lt e hmem)]
  · have hslice : slice (indexBytes entries) (16 * i + 8) (16 * i + 16) = beBytes 8 e.2 := by
      rw [hsplit, ← List.append_assoc]
      exact slice_middle (by simp [hlen]) (by simp [hlen])
    rw [indexPos, hslice, ofBe_beBytes_of_lt (hentries.pos_lt e hmem)]

/-- The loop over an index runs over its timestamps. -/
theorem indexBisection_over (range : NanoRange) {entries : List (ℕ × ℕ)}
    (hentries : IndexEntries entries) :
    (indexBisection range (indexBytes entries)).Over (entries.map Prod.fst) id where
  read i e he := by
    rw [List.getElem?_map, Option.map_eq_some_iff] at he
    rcases he with ⟨entry, hentry, rfl⟩
    simp [indexBisection, (index_of_getElem? hentries hentry).1]
  mid i j hij hj := ⟨(j + i) / 2, by omega, by omega, rfl⟩
  tight i j hij hj := by
    simp only [indexBisection, id, decide_eq_true_eq]
    omega
  guard i j x y n hij hx hy hbelow habove := by
    simp only [indexBisection, decide_eq_true_eq, decide_eq_false_iff_not] at hbelow habove ⊢
    rw [if_neg (by omega)]

/-- The first entry with a timestamp not before {lit}`beg`. -/
def firstGe (beg : ℕ) (entries : List (ℕ × ℕ)) : Option (ℕ × ℕ) :=
  entries.find? fun e => beg ≤ e.1

/-- The last entry with a timestamp before {lit}`beg`. -/
def lastLt (beg : ℕ) (entries : List (ℕ × ℕ)) : Option (ℕ × ℕ) :=
  (entries.filter fun e => e.1 < beg).getLast?

section Entries

variable {beg : ℕ} {entries : List (ℕ × ℕ)} {first last : ℕ × ℕ}

/-- Before the first entry there is none to find. -/
theorem of_beg_le_first (hsorted : SortedBy Prod.fst entries) (hfirst : entries.head? = some first)
    (hbeg : beg ≤ first.1) : firstGe beg entries = some first ∧ lastLt beg entries = none := by
  rcases List.head?_eq_some_iff.mp hfirst with ⟨rest, rfl⟩
  constructor
  · simp [firstGe, hbeg]
  · rw [lastLt, List.getLast?_eq_none_iff, List.filter_eq_nil_iff]
    intro e he
    have hle : first.1 ≤ e.1 := hsorted.head_le he
    simp only [decide_eq_true_eq, not_lt]
    exact hbeg.trans hle

/-- After the last entry there is none to find. -/
theorem of_last_lt_beg (hsorted : SortedBy Prod.fst entries) (hlast : entries.getLast? = some last)
    (hbeg : last.1 < beg) : firstGe beg entries = none ∧ lastLt beg entries = some last := by
  have hall : ∀ e ∈ entries, e.1 < beg := by
    intro e he
    have hle : e.1 ≤ last.1 := hsorted.le_getLast he last hlast
    exact hle.trans_lt hbeg
  constructor
  · rw [firstGe, List.find?_eq_none]
    intro e he
    simpa using hall e he
  · have hfilter : (entries.filter fun e => e.1 < beg) = entries := by
      rw [List.filter_eq_self]
      intro e he
      simpa using hall e he
    rw [lastLt, hfilter, hlast]

/-- Around the partition point of the timestamps are the entries to find. -/
theorem of_partitionPoint (hsorted : SortedBy Prod.fst entries) {c : ℕ}
    (hc : c + 1 = partitionPoint (fun e : ℕ => decide (e < beg)) (entries.map Prod.fst)) :
    firstGe beg entries = entries[c + 1]? ∧ lastLt beg entries = entries[c]? := by
  have hmap : partitionPoint (fun e : ℕ => decide (e < beg)) (entries.map Prod.fst)
      = partitionPoint (fun e : ℕ × ℕ => decide (e.1 < beg)) entries := by
    simp [partitionPoint, List.takeWhile_map, Function.comp_def]
  rw [hmap] at hc
  constructor
  · have hnot : ∀ e : ℕ × ℕ, decide (beg ≤ e.1) = !decide (e.1 < beg) := by
      intro e
      rw [← decide_not, decide_eq_decide, not_lt]
    rw [firstGe, List.find?_congr (fun e _ => hnot e), find?_eq_getElem?_partitionPoint, hc]
  · rw [lastLt, getLast?_filter_eq_getElem? (hsorted.partitioned_lt beg) (by omega), ← hc]
    rfl

end Entries

/-- The timestamps of sorted entries are partitioned by every bound. -/
theorem partitioned_ts {entries : List (ℕ × ℕ)} (hsorted : SortedBy Prod.fst entries) (beg : ℕ) :
    Partitioned (fun e : ℕ => decide (e < beg)) (entries.map Prod.fst) := by
  unfold Partitioned
  rw [List.pairwise_map]
  exact hsorted.partitioned_lt beg

/-- The loop over an index ends around the partition point. -/
theorem indexBisection_loop (range : NanoRange) {entries : List (ℕ × ℕ)}
    (hentries : IndexEntries entries) {first last : ℕ × ℕ} (hfirst : entries[0]? = some first)
    (hlast : entries[entries.length - 1]? = some last) (hx : first.1 < range.beg)
    (hy : range.beg ≤ last.1) :
    ∃ c e e' n, firstGe range.beg entries = some e' ∧ lastLt range.beg entries = some e ∧
      entries[c]? = some e ∧ entries[c + 1]? = some e' ∧
      (indexBisection range (indexBytes entries)).loop (entries.length - 1)
        ⟨0, entries.length - 1, first.1, last.1, 2⟩ = .ok ⟨c, c + 1, e.1, e'.1, n⟩ := by
  have hlt : 0 < entries.length - 1 := by
    by_contra hzero
    have hsame : entries.length - 1 = 0 := by omega
    rw [hsame, hfirst, Option.some.injEq] at hlast
    subst hlast
    omega
  have hpart : Partitioned (indexBisection range (indexBytes entries)).below (entries.map Prod.fst) :=
    partitioned_ts hentries.sorted range.beg
  have hx0 : (entries.map Prod.fst)[0]? = some first.1 := by simp [hfirst]
  have hy0 : (entries.map Prod.fst)[entries.length - 1]? = some last.1 := by simp [hlast]
  rcases Bisection.loop_eq (n := 2) (indexBisection_over range hentries) hpart hlt hx0 hy0
      (by simpa [indexBisection] using hx) (by simpa [indexBisection] using hy) (Nat.sub_le _ 0)
    with ⟨c, x, y, n, hc, hx', hy', hloop⟩
  rw [List.getElem?_map, Option.map_eq_some_iff] at hx' hy'
  rcases hx' with ⟨e, he, rfl⟩
  rcases hy' with ⟨e', he', rfl⟩
  have hfound := of_partitionPoint hentries.sorted hc
  exact ⟨c, e, e', n, hfound.1.trans he', hfound.2.trans he, he, he', hloop⟩

/-- Entries that are there have a first and a last one. -/
theorem exists_first_last {entries : List (ℕ × ℕ)} (hne : entries ≠ []) :
    ∃ first last, entries[0]? = some first ∧ entries[entries.length - 1]? = some last ∧
      entries.head? = some first ∧ entries.getLast? = some last := by
  have hpos : 0 < entries.length := List.length_pos_iff.mpr hne
  refine ⟨entries.head hne, entries.getLast hne, ?_, ?_, List.head?_eq_some_head hne,
    List.getLast?_eq_some_getLast hne⟩
  · rw [← List.head?_eq_getElem?, List.head?_eq_some_head hne]
  · rw [← List.getLast?_eq_getElem?, List.getLast?_eq_some_getLast hne]

/-- On an ordered index {lit}`find_ge` gives the first entry not before {lit}`beg`, unless it is not
before {lit}`end` either and the search is not to expand. -/
theorem findGe_of_entries (range : NanoRange) (expandRight : Bool) {entries : List (ℕ × ℕ)}
    (hentries : IndexEntries entries) :
    findGe range expandRight (indexBytes entries)
      = .ok ((firstGe range.beg entries).filter fun e => e.1 < range.fin || expandRight) := by
  have hlen := length_indexBytes entries
  by_cases hne : entries = []
  · simp [hne, findGe, indexBytes, firstGe]
  · rcases exists_first_last hne with ⟨first, last, hfirst, hlast, hhead, hgetLast⟩
    have hpos : 0 < entries.length := List.length_pos_iff.mpr hne
    have hn : 16 * entries.length / 16 - 1 = entries.length - 1 := by omega
    have hx := index_of_getElem? hentries hfirst
    have hy := index_of_getElem? hentries hlast
    simp only [findGe, hlen, hn, hx.1, hx.2, hy.1, Nat.mul_mod_right, ne_eq, not_true_eq_false,
      if_false]
    rw [if_neg (by omega)]
    by_cases hafter : last.1 < range.beg
    · rw [if_pos hafter, (of_last_lt_beg hentries.sorted hgetLast hafter).1]
      rfl
    rw [if_neg hafter]
    by_cases hbefore : range.beg ≤ first.1
    · rw [if_pos hbefore, (of_beg_le_first hentries.sorted hhead hbefore).1, Option.filter]
      by_cases hin : (decide (first.1 < range.fin) || expandRight) = true <;> simp [hin]
    rw [if_neg hbefore, if_neg (by omega)]
    rcases indexBisection_loop range hentries hfirst hlast (by omega) (by omega)
      with ⟨c, e, e', n, hge, -, he, he', hloop⟩
    rw [hloop, hge]
    simp only [(index_of_getElem? hentries he').2, Option.filter]
    by_cases hin : (decide (e'.1 < range.fin) || expandRight) = true <;> simp [hin]

/-- On an ordered index {lit}`find_largest_smaller_than` gives the last entry before {lit}`beg`. -/
theorem findLargestSmallerThan_of_entries (range : NanoRange) (expandRight : Bool)
    {entries : List (ℕ × ℕ)} (hentries : IndexEntries entries) :
    findLargestSmallerThan range expandRight (indexBytes entries)
      = .ok (lastLt range.beg entries) := by
  have hlen := length_indexBytes entries
  by_cases hne : entries = []
  · simp [hne, findLargestSmallerThan, indexBytes, lastLt]
  · rcases exists_first_last hne with ⟨first, last, hfirst, hlast, hhead, hgetLast⟩
    have hpos : 0 < entries.length := List.length_pos_iff.mpr hne
    have hn : 16 * entries.length / 16 - 1 = entries.length - 1 := by omega
    have hx := index_of_getElem? hentries hfirst
    have hy := index_of_getElem? hentries hlast
    simp only [findLargestSmallerThan, hlen, hn, hx.1, hy.1, hy.2, Nat.mul_mod_right, ne_eq,
      not_true_eq_false, if_false]
    rw [if_neg (by omega)]
    by_cases hbefore : range.beg ≤ first.1
    · rw [if_pos hbefore, (of_beg_le_first hentries.sorted hhead hbefore).2]
    rw [if_neg hbefore]
    by_cases hafter : last.1 < range.beg
    · rw [if_pos hafter, (of_last_lt_beg hentries.sorted hgetLast hafter).2]
    rw [if_neg hafter, if_neg (by omega)]
    rcases indexBisection_loop range hentries hfirst hlast (by omega) (by omega)
      with ⟨c, e, e', n, -, hlt, he, he', hloop⟩
    rw [hloop, hlt]
    simp only [(index_of_getElem? hentries he).2]

end Disk
end Daqbuf
