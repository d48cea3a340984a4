import Daqbuf.Iter.Yields
import Daqbuf.Series.Msp
/-!
# Enumerating Stored Bins

{lit}`MspLspIter` enumerates the keys of the bins that cover a range, and {lit}`MspChunker` enumerates the same keys
partition by partition.  The ends of the range are cut to milliseconds.

Main results:

- Theorem {lit}`MspLspIter.yields_newCovering`: the keys that are enumerated.
- Theorem {lit}`MspChunker.chunks_newCovering`: the chunks have the same keys.
- Theorem {lit}`enumeratesCovering_iff`: when these are the bins that overlap the range.
-/

namespace Daqbuf
namespace Scylla

open Series Iter

/-! ## Key by key -/

/-- {lit}`MspLspIter` -/
structure MspLspIter where
  range : ℕ × ℕ
  pbp : PrebinnedPartitioning
  mins : ℕ × ℕ
  maxs : ℕ × ℕ
  curs : ℕ × ℕ
  deriving DecidableEq, Repr

/-- The first key of a covering, and the key behind its last one.  The sum is far below its type's limit. -/
def covering (pbp : PrebinnedPartitioning) (beg fin : ℕ) : (ℕ × ℕ) × (ℕ × ℕ) :=
  (pbp.mspLsp (beg / 1000000), pbp.mspLsp (fin / 1000000 + (pbp.binLen - 1)))

namespace MspLspIter

/-- {lit}`new_covering`, of a range in nanoseconds -/
def newCovering (beg fin : ℕ) (pbp : PrebinnedPartitioning) : MspLspIter where
  range := (beg, fin)
  pbp := pbp
  mins := (covering pbp beg fin).1
  maxs := (covering pbp beg fin).2
  curs := (covering pbp beg fin).1

/-- {lit}`next` -/
def next (it : MspLspIter) : Option ((ℕ × ℕ) × MspLspIter) :=
  if it.maxs.1 ≤ it.curs.1 ∧ it.maxs.2 ≤ it.curs.2 then none
  else some (it.curs, { it with curs := it.pbp.lspInc it.curs.1 it.curs.2 })

end MspLspIter

/-! ## Chunk by chunk -/

/-- {lit}`MspChunkerItem`; {lit}`lsp2` is meant exclusive. -/
structure MspChunkerItem where
  msp : ℕ
  lsp1 : ℕ
  lsp2 : ℕ
  deriving DecidableEq, Repr

/-- The keys of a chunk -/
def MspChunkerItem.keys (item : MspChunkerItem) : List (ℕ × ℕ) :=
  (List.range' item.lsp1 (item.lsp2 - item.lsp1)).map fun lsp => (item.msp, lsp)

/-- {lit}`MspChunker` -/
structure MspChunker where
  pbp : PrebinnedPartitioning
  min : ℕ × ℕ
  max : ℕ × ℕ
  cur : ℕ × ℕ
  deriving DecidableEq, Repr

namespace MspChunker

/-- {lit}`from_min_max` -/
def fromMinMax (pbp : PrebinnedPartitioning) (min max : ℕ × ℕ) : MspChunker where
  pbp := pbp
  min := min
  max := max
  cur := min

/-- {lit}`new_covering`, of a range in nanoseconds -/
def newCovering (beg fin : ℕ) (pbp : PrebinnedPartitioning) : MspChunker :=
  fromMinMax pbp (covering pbp beg fin).1 (covering pbp beg fin).2

/-- {lit}`next`; an index of 32 bits wraps around. -/
def next (ch : MspChunker) : Option (MspChunkerItem × MspChunker) :=
  if ch.max.1 ≤ ch.cur.1 ∧ ch.max.2 ≤ ch.cur.2 then none
  else if ch.cur.1 < ch.max.1 then
    some (⟨ch.cur.1, ch.cur.2, ch.pbp.patchLen⟩, { ch with cur := ((ch.cur.1 + 1) % 2 ^ 32, 0) })
  else if ch.cur.2 < ch.max.2 then
    some (⟨ch.cur.1, ch.cur.2, ch.max.2⟩, { ch with cur := (ch.cur.1, ch.max.2) })
  else none

end MspChunker

/-! ## The keys that are enumerated -/

section Keys

variable {p : PrebinnedPartitioning} {k n : ℕ}

/-- The end of an enumeration is told by both parts of the key. -/
theorem keyAt_le_iff (hle : k ≤ n) :
    ((p.keyAt n).1 ≤ (p.keyAt k).1 ∧ (p.keyAt n).2 ≤ (p.keyAt k).2) ↔ k = n := by
  constructor
  · intro ⟨hmsp, hlsp⟩
    have hk := Nat.div_add_mod k p.patchLen
    have hn := Nat.div_add_mod n p.patchLen
    have hmul : p.patchLen * (n / p.patchLen) ≤ p.patchLen * (k / p.patchLen) := Nat.mul_le_mul_left _ hmsp
    unfold PrebinnedPartitioning.keyAt at hlsp
    dsimp only at hlsp
    omega
  · rintro rfl
    exact ⟨le_rfl, le_rfl⟩

/-- Keys of which the first part fits are enumerated up to the last one. -/
theorem MspLspIter.yields_keyAt (hle : k ≤ n) (hn : n / p.patchLen < 2 ^ 32) (range mins : (ℕ × ℕ)) :
    Yields MspLspIter.next ⟨range, p, mins, p.keyAt n, p.keyAt k⟩ ((List.range' k (n - k)).map p.keyAt) := by
  refine yields_range' (fun i => (⟨range, p, mins, p.keyAt n, p.keyAt i⟩ : MspLspIter)) hle ?_ ?_
  · intro i _ hi
    have hnot : ¬ ((p.keyAt n).1 ≤ (p.keyAt i).1 ∧ (p.keyAt n).2 ≤ (p.keyAt i).2) :=
      (keyAt_le_iff hi.le).not.mpr hi.ne
    have hinc : p.lspInc (p.keyAt i).1 (p.keyAt i).2 = p.keyAt (i + 1) :=
      p.lspInc_keyAt ((Nat.div_le_div_right hi).trans_lt hn)
    rw [MspLspIter.next, if_neg hnot, hinc]
  · rw [MspLspIter.next, if_pos ((keyAt_le_iff le_rfl).mpr rfl)]

/-- A chunk: it is not empty, and inside its partition. -/
structure MspChunkerItem.Proper (p : PrebinnedPartitioning) (item : MspChunkerItem) : Prop where
  nonempty : item.lsp1 < item.lsp2
  inside : item.lsp2 ≤ p.patchLen

/-- The keys of a chunk from one bin to another one of the same partition, or to the end of the partition -/
theorem MspChunkerItem.keys_eq {m : ℕ} (hk : k / p.patchLen = m) (hle : k ≤ n) (hn : n ≤ p.patchLen * (m + 1)) :
    MspChunkerItem.keys ⟨m, k % p.patchLen, n - p.patchLen * m⟩ = (List.range' k (n - k)).map p.keyAt := by
  have hsplit := Nat.div_add_mod k p.patchLen
  rw [hk] at hsplit
  have hlen : n - p.patchLen * m - k % p.patchLen = n - k := by omega
  rw [MspChunkerItem.keys, hlen]
  apply List.ext_getElem
  · simp
  · intro i hi hi'
    have hlt : i < n - k := by simpa using hi
    have hkey : (k + i) / p.patchLen = m ∧ (k + i) % p.patchLen = k % p.patchLen + i := by
      refine (Nat.div_mod_unique p.patchLen_pos).mpr ⟨by omega, ?_⟩
      rw [Nat.mul_add] at hn
      omega
    simp [PrebinnedPartitioning.keyAt, hkey.1, hkey.2]

/-- The keys of the rest of a partition -/
theorem MspChunkerItem.keys_rest (p : PrebinnedPartitioning) (k : ℕ) :
    MspChunkerItem.keys ⟨k / p.patchLen, k % p.patchLen, p.patchLen⟩ =
      (List.range' k (p.patchLen * (k / p.patchLen + 1) - k)).map p.keyAt := by
  have hlast : p.patchLen * (k / p.patchLen + 1) - p.patchLen * (k / p.patchLen) = p.patchLen := by
    rw [Nat.mul_add, Nat.mul_one, Nat.add_sub_cancel_left]
  have hkeys := MspChunkerItem.keys_eq (p := p) rfl (Nat.lt_mul_div_succ k p.patchLen_pos).le le_rfl
  rw [hlast] at hkeys
  exact hkeys

/-- The keys up to another bin of the same partition -/
theorem MspChunkerItem.keys_last (hle : k ≤ n) (hpart : k / p.patchLen = n / p.patchLen) :
    MspChunkerItem.keys ⟨k / p.patchLen, k % p.patchLen, n % p.patchLen⟩ = (List.range' k (n - k)).map p.keyAt := by
  have hn := Nat.div_add_mod n p.patchLen
  have hlast : n - p.patchLen * (k / p.patchLen) = n % p.patchLen := by
    rw [hpart]
    omega
  have hin : n ≤ p.patchLen * (k / p.patchLen + 1) := by
    rw [hpart]
    exact (Nat.lt_mul_div_succ n p.patchLen_pos).le
  have hkeys := MspChunkerItem.keys_eq (p := p) rfl hle hin
  rw [hlast] at hkeys
  exact hkeys

theorem range'_concat {k k' n : ℕ} (hle : k ≤ k') (hle' : k' ≤ n) :
    List.range' k (k' - k) ++ List.range' k' (n - k') = List.range' k (n - k) := by
  have happend := List.range'_append_1 (s := k) (m := k' - k) (n := n - k')
  rw [show k + (k' - k) = k' by omega, show k' - k + (n - k') = n - k by omega] at happend
  exact happend

namespace MspChunker

theorem next_end (min : ℕ × ℕ) : next ⟨p, min, p.keyAt n, p.keyAt n⟩ = none := by
  rw [next, if_pos ((keyAt_le_iff le_rfl).mpr rfl)]

/-- Before the last partition, the rest of the partition is a chunk. -/
theorem next_partition (hlt : k < n) (hn : n / p.patchLen < 2 ^ 32) (hpart : k / p.patchLen < n / p.patchLen)
    (min : ℕ × ℕ) :
    next ⟨p, min, p.keyAt n, p.keyAt k⟩ =
      some (⟨k / p.patchLen, k % p.patchLen, p.patchLen⟩,
        ⟨p, min, p.keyAt n, p.keyAt (p.patchLen * (k / p.patchLen + 1))⟩) := by
  have hcur : p.keyAt (p.patchLen * (k / p.patchLen + 1)) = ((k / p.patchLen + 1) % 2 ^ 32, 0) := by
    rw [Nat.mod_eq_of_lt (by omega), PrebinnedPartitioning.keyAt, Nat.mul_div_cancel_left _ p.patchLen_pos,
      Nat.mul_mod_right]
  rw [next, if_neg ((keyAt_le_iff hlt.le).not.mpr hlt.ne), hcur]
  exact if_pos hpart

/-- In the last partition, what is left is a chunk. -/
theorem next_last (hlt : k < n) (hpart : k / p.patchLen = n / p.patchLen) (min : ℕ × ℕ) :
    k % p.patchLen < n % p.patchLen ∧ next ⟨p, min, p.keyAt n, p.keyAt k⟩ =
      some (⟨k / p.patchLen, k % p.patchLen, n % p.patchLen⟩, ⟨p, min, p.keyAt n, p.keyAt n⟩) := by
  have hk := Nat.div_add_mod k p.patchLen
  have hn := Nat.div_add_mod n p.patchLen
  have hlsp : k % p.patchLen < n % p.patchLen := by
    rw [hpart] at hk
    omega
  have hcur : p.keyAt n = (k / p.patchLen, n % p.patchLen) := by
    rw [hpart]
    rfl
  refine ⟨hlsp, ?_⟩
  rw [next, if_neg ((keyAt_le_iff hlt.le).not.mpr hlt.ne), hcur]
  exact (if_neg (lt_irrefl _)).trans (if_pos hlsp)

/-- The chunks of the same bins, one for each partition -/
theorem yields_chunks (hle : k ≤ n) (hn : n / p.patchLen < 2 ^ 32) (min : ℕ × ℕ) :
    ∃ items, Yields next ⟨p, min, p.keyAt n, p.keyAt k⟩ items ∧ (∀ item ∈ items, item.Proper p) ∧
      items.flatMap MspChunkerItem.keys = (List.range' k (n - k)).map p.keyAt := by
  induction hcount : n - k using Nat.strong_induction_on generalizing k with
  | _ count ih =>
      rcases hle.eq_or_lt with rfl | hlt
      · exact ⟨[], Yields.done (next_end min), by simp, by simp [← hcount]⟩
      · rcases (Nat.div_le_div_right hle : k / p.patchLen ≤ n / p.patchLen).lt_or_eq with hpart | hpart
        · -- the rest of the partition, and then the chunks of the next ones
          have hstep := next_partition hlt hn hpart min
          have hnext : p.patchLen * (k / p.patchLen + 1) ≤ n :=
            (Nat.mul_le_mul_left _ hpart).trans (Nat.mul_div_le n p.patchLen)
          have hlt' : k < p.patchLen * (k / p.patchLen + 1) := Nat.lt_mul_div_succ k p.patchLen_pos
          have hchunk := MspChunkerItem.keys_rest p k
          generalize p.patchLen * (k / p.patchLen + 1) = k' at hstep hnext hlt' hchunk
          obtain ⟨items, hyields, hproper, hkeys⟩ := ih (n - k') (by omega) hnext rfl
          refine ⟨_, Yields.item hstep hyields, ?_, ?_⟩
          · intro item hitem
            rcases List.mem_cons.mp hitem with rfl | hitem
            · exact ⟨Nat.mod_lt k p.patchLen_pos, le_rfl⟩
            · exact hproper item hitem
          · rw [List.flatMap_cons, hchunk, hkeys, ← List.map_append, range'_concat hlt'.le hnext, hcount]
        · -- the last chunk ends where the enumeration ends
          obtain ⟨hlsp, hstep⟩ := next_last hlt hpart min
          refine ⟨_, Yields.item hstep (Yields.done (next_end min)), ?_, ?_⟩
          · intro item hitem
            obtain rfl := List.mem_singleton.mp hitem
            exact ⟨hlsp, (Nat.mod_lt n p.patchLen_pos).le⟩
          · rw [List.flatMap_cons, List.flatMap_nil, List.append_nil, MspChunkerItem.keys_last hle hpart, hcount]

end MspChunker

end Keys

/-! ## Covering a range -/

section Covering

variable {p : PrebinnedPartitioning} {beg fin : ℕ}

/-- The index of the first bin that is enumerated -/
def firstIx (p : PrebinnedPartitioning) (beg : ℕ) : ℕ := beg / 1000000 / p.binLen

/-- The index behind the last bin that is enumerated -/
def endIx (p : PrebinnedPartitioning) (fin : ℕ) : ℕ := (fin / 1000000 + (p.binLen - 1)) / p.binLen

/-- The keys of the bins with an index from one to another -/
def keysFrom (p : PrebinnedPartitioning) (k n : ℕ) : List (ℕ × ℕ) := (List.range' k (n - k)).map p.keyAt

theorem keysFrom_append {k k' n : ℕ} (hle : k ≤ k') (hle' : k' ≤ n) :
    keysFrom p k k' ++ keysFrom p k' n = keysFrom p k n := by
  rw [keysFrom, keysFrom, keysFrom, ← List.map_append, range'_concat hle hle']

theorem covering_eq (hle : beg ≤ fin) (hfin : fin < 2 ^ 64) :
    covering p beg fin = (p.keyAt (firstIx p beg), p.keyAt (endIx p fin)) := by
  have hbin := p.binLen_le
  rw [covering, p.mspLsp_of_representable (p.representable_of_lt (by omega)),
    p.mspLsp_of_representable (p.representable_of_lt (by omega))]
  rfl

/-- The enumeration goes on as long as a bin begins before the end, in milliseconds. -/
theorem lt_endIx_iff {k : ℕ} : k < endIx p fin ↔ p.binLen * k < fin / 1000000 := by
  have hbin := p.binLen_pos
  rw [endIx, Nat.lt_iff_add_one_le, Nat.le_div_iff_mul_le (by omega), Nat.add_mul, mul_comm k]
  omega

/-- There is a partition behind the last one. -/
theorem endIx_succ_fits (hfin : fin < 2 ^ 64) : endIx p fin / p.patchLen + 1 < 2 ^ 32 := by
  have hbin := p.binLen_le
  have hdt : 1000000 ≤ p.patchDt := by
    cases p <;> decide
  rw [endIx, ← p.div_patchDt]
  have hdiv : (fin / 1000000 + (p.binLen - 1)) / p.patchDt ≤ (fin / 1000000 + (p.binLen - 1)) / 1000000 :=
    Nat.div_le_div_left hdt (by decide)
  omega

theorem endIx_fits (hfin : fin < 2 ^ 64) : endIx p fin / p.patchLen < 2 ^ 32 :=
  (Nat.lt_succ_self _).trans (endIx_succ_fits hfin)

theorem firstIx_le_endIx (hle : beg ≤ fin) : firstIx p beg ≤ endIx p fin :=
  Nat.div_le_div_right ((Nat.div_le_div_right hle).trans (Nat.le_add_right _ _))

/-- The bin with this index and the range have a time in common. -/
def Overlaps (p : PrebinnedPartitioning) (beg fin k : ℕ) : Prop :=
  ∃ t, beg ≤ t ∧ t < fin ∧ p.binLen * 1000000 * k ≤ t ∧ t < p.binLen * 1000000 * (k + 1)

theorem firstIx_le_iff {k : ℕ} : firstIx p beg ≤ k ↔ beg < p.binLen * 1000000 * (k + 1) := by
  have hbin := p.binLen_pos
  rw [firstIx, Nat.div_div_eq_div_mul, ← Nat.lt_succ_iff, Nat.div_lt_iff_lt_mul (by omega), Nat.succ_eq_add_one, mul_comm,
    mul_comm 1000000]

theorem overlaps_iff {k : ℕ} (hlt : beg < fin) :
    Overlaps p beg fin k ↔ firstIx p beg ≤ k ∧ p.binLen * 1000000 * k < fin := by
  rw [firstIx_le_iff]
  constructor
  · intro ⟨t, hbeg, hfin, hk, hk'⟩
    exact ⟨hbeg.trans_lt hk', hk.trans_lt hfin⟩
  · intro ⟨hbeg, hfin⟩
    refine ⟨max beg (p.binLen * 1000000 * k), le_max_left _ _, max_lt hlt hfin, le_max_right _ _, max_lt hbeg ?_⟩
    have hbin := p.binLen_pos
    rw [Nat.mul_add]
    omega

/-- The end of the range is not in the first millisecond of a bin, unless it is the beginning of the bin; where the
range is empty, it is in the first millisecond of a bin. -/
def EndsOnMs (p : PrebinnedPartitioning) (beg fin : ℕ) : Prop :=
  (beg < fin → fin / 1000000 % p.binLen = 0 → fin % 1000000 = 0) ∧ (beg = fin → beg / 1000000 % p.binLen = 0)

instance : Decidable (EndsOnMs p beg fin) := inferInstanceAs (Decidable (_ ∧ _))

/-- Cutting the end to milliseconds leaves out a bin exactly if the end is in its first millisecond. -/
theorem forall_lt_iff : (∀ k, p.binLen * 1000000 * k < fin → p.binLen * k < fin / 1000000) ↔
    (fin / 1000000 % p.binLen = 0 → fin % 1000000 = 0) := by
  constructor
  · intro hall hmod
    by_contra hne
    have hmul := Nat.mul_div_cancel' (Nat.dvd_of_mod_eq_zero hmod)
    refine absurd (hall (fin / 1000000 / p.binLen) ?_) (by omega)
    rw [mul_right_comm, hmul]
    omega
  · intro hend k hk
    rw [mul_right_comm] at hk
    rcases (by omega : p.binLen * k < fin / 1000000 ∨ p.binLen * k = fin / 1000000) with hlt | heq
    · exact hlt
    · have hzero := hend (by rw [← heq, Nat.mul_mod_right])
      omega

theorem mem_keysFrom {k n : ℕ} {key : ℕ × ℕ} : key ∈ keysFrom p k n ↔ ∃ i, (k ≤ i ∧ i < n) ∧ p.keyAt i = key := by
  rw [keysFrom, List.mem_map]
  refine exists_congr fun i => and_congr_left fun _ => ?_
  rw [List.mem_range'_1]
  omega

/-- The bins that are enumerated are those that overlap the range, exactly if it ends as it should. -/
theorem forall_overlaps_iff (hle : beg ≤ fin) :
    (∀ k, (firstIx p beg ≤ k ∧ k < endIx p fin) ↔ Overlaps p beg fin k) ↔ EndsOnMs p beg fin := by
  have hbin := p.binLen_pos
  have hfirst : p.binLen * firstIx p beg + beg / 1000000 % p.binLen = beg / 1000000 := Nat.div_add_mod _ _
  rcases hle.lt_or_eq with hlt | rfl
  · have hms : beg / 1000000 ≤ fin / 1000000 := Nat.div_le_div_right hle
    rw [EndsOnMs, and_iff_left fun heq => absurd heq hlt.ne, forall_prop_of_true hlt, ← forall_lt_iff]
    refine forall_congr' fun k => ?_
    rw [overlaps_iff hlt, lt_endIx_iff]
    constructor
    · intro hiff hk
      rcases le_or_gt (firstIx p beg) k with hge | hbelow
      · exact (hiff.mpr ⟨hge, hk⟩).2
      · have hmul : p.binLen * (k + 1) ≤ p.binLen * firstIx p beg := Nat.mul_le_mul_left _ hbelow
        rw [Nat.mul_add] at hmul
        omega
    · intro himp
      refine and_congr_right fun _ => ⟨fun hk => ?_, himp⟩
      rw [mul_right_comm]
      omega
  · rw [EndsOnMs, and_iff_right fun hlt => absurd hlt (lt_irrefl beg), forall_prop_of_true rfl]
    have hnone : ∀ k, ¬ Overlaps p beg beg k := fun k ⟨t, hbeg, hfin, _⟩ => absurd hbeg (not_le.mpr hfin)
    constructor
    · intro hall
      by_contra hne
      refine hnone _ ((hall (firstIx p beg)).mp ⟨le_rfl, lt_endIx_iff.mpr ?_⟩)
      omega
    · intro hmod k
      refine iff_of_false ?_ (hnone k)
      intro ⟨hge, hk⟩
      have hmul : p.binLen * firstIx p beg ≤ p.binLen * k := Nat.mul_le_mul_left _ hge
      have hlt := lt_endIx_iff.mp hk
      omega

end Covering

/-! ## Both enumerations -/

section Both

variable {p : PrebinnedPartitioning} {beg fin : ℕ}

/-- The keys and the chunks of a range: in order, the bins that overlap the range, and the same ones in chunks. -/
structure Enumerates (p : PrebinnedPartitioning) (beg fin : ℕ) (keys : List (ℕ × ℕ)) (items : List MspChunkerItem) :
    Prop where
  yields : Yields MspLspIter.next (MspLspIter.newCovering beg fin p) keys
  chunks : Yields MspChunker.next (MspChunker.newCovering beg fin p) items
  increasing : keys.Pairwise fun key key' => toLex key < toLex key'
  bins : ∀ key, key ∈ keys ↔ ∃ k, Overlaps p beg fin k ∧ p.keyAt k = key
  proper : ∀ item ∈ items, item.Proper p
  concat : items.flatMap MspChunkerItem.keys = keys

/-- What {lit}`MspLspIter` enumerates -/
theorem MspLspIter.yields_newCovering (hle : beg ≤ fin) (hfin : fin < 2 ^ 64) :
    Yields MspLspIter.next (MspLspIter.newCovering beg fin p) (keysFrom p (firstIx p beg) (endIx p fin)) := by
  rw [MspLspIter.newCovering, covering_eq hle hfin]
  exact MspLspIter.yields_keyAt (firstIx_le_endIx hle) (endIx_fits hfin) (beg, fin) _

/-- What {lit}`MspChunker` enumerates are the same keys. -/
theorem MspChunker.chunks_newCovering (hle : beg ≤ fin) (hfin : fin < 2 ^ 64) :
    ∃ items, Yields MspChunker.next (MspChunker.newCovering beg fin p) items ∧ (∀ item ∈ items, item.Proper p) ∧
      items.flatMap MspChunkerItem.keys = keysFrom p (firstIx p beg) (endIx p fin) := by
  rw [MspChunker.newCovering, MspChunker.fromMinMax, covering_eq hle hfin]
  exact MspChunker.yields_chunks (firstIx_le_endIx hle) (endIx_fits hfin) _

theorem toLex_keyAt_lt {k n : ℕ} (hlt : k < n) : toLex (p.keyAt k) < toLex (p.keyAt n) := by
  have hk := Nat.div_add_mod k p.patchLen
  have hn := Nat.div_add_mod n p.patchLen
  rw [Prod.Lex.toLex_lt_toLex]
  rcases (Nat.div_le_div_right hlt.le : k / p.patchLen ≤ n / p.patchLen).lt_or_eq with hmsp | hmsp
  · exact Or.inl hmsp
  · refine Or.inr ⟨hmsp, ?_⟩
    rw [hmsp] at hk
    show k % p.patchLen < n % p.patchLen
    omega

theorem keyAt_injective (p : PrebinnedPartitioning) : Function.Injective p.keyAt := by
  intro k n heq
  rcases lt_trichotomy k n with hlt | rfl | hlt
  · exact absurd (toLex_keyAt_lt (p := p) hlt) (heq ▸ lt_irrefl _)
  · rfl
  · exact absurd (toLex_keyAt_lt (p := p) hlt) (heq ▸ lt_irrefl _)

/-- The keys are in order. -/
theorem pairwise_keysFrom (k n : ℕ) : (keysFrom p k n).Pairwise fun key key' => toLex key < toLex key' := by
  have hrange : (List.range' k (n - k)).Pairwise (· < ·) := List.pairwise_lt_range'
  exact List.pairwise_map.mpr (hrange.imp toLex_keyAt_lt)

/-- The keys that are enumerated are those of the bins that overlap the range, exactly if it ends as it should. -/
theorem forall_mem_keysFrom_iff (hle : beg ≤ fin) :
    (∀ key, key ∈ keysFrom p (firstIx p beg) (endIx p fin) ↔ ∃ k, Overlaps p beg fin k ∧ p.keyAt k = key) ↔
      EndsOnMs p beg fin := by
  rw [← forall_overlaps_iff hle]
  constructor
  · intro hall k
    have hkey := hall (p.keyAt k)
    rw [mem_keysFrom] at hkey
    simpa only [(keyAt_injective p).eq_iff, exists_eq_right] using hkey
  · intro hall key
    rw [mem_keysFrom]
    exact exists_congr fun k => and_congr_left fun _ => hall k

/-- Both enumerations of a range end and are of the bins that overlap it, exactly if its end is not in the first
millisecond of a bin, and, where the range is empty, it is. -/
theorem enumeratesCovering_iff (hle : beg ≤ fin) (hfin : fin < 2 ^ 64) :
    (∃ keys items, Enumerates p beg fin keys items) ↔ EndsOnMs p beg fin := by
  have hyields := MspLspIter.yields_newCovering (p := p) hle hfin
  constructor
  · intro ⟨keys, items, h⟩
    obtain rfl := hyields.unique h.yields
    exact (forall_mem_keysFrom_iff hle).mp h.bins
  · intro hends
    obtain ⟨items, hchunks, hproper, hconcat⟩ := MspChunker.chunks_newCovering (p := p) hle hfin
    refine ⟨_, items, hyields, hchunks, pairwise_keysFrom _ _, ?_, hproper, hconcat⟩
    exact (forall_mem_keysFrom_iff hle).mpr hends

/-- A range that ends in a bin, over the end of a partition -/
theorem enumeratesCovering_iff_sec1 :
    (∃ keys items, Enumerates .sec1 1199500000000 1201500000000 keys items) ↔
      EndsOnMs .sec1 1199500000000 1201500000000 :=
  enumeratesCovering_iff (by decide) (by decide)

/-- The range from 1 s to 2 s and a nanosecond overlaps the bin that begins at 2 s, which is left out. -/
theorem not_enumerates_nanosecond : ¬ ∃ keys items, Enumerates .sec1 1000000000 2000000001 keys items := by
  intro ⟨keys, items, h⟩
  obtain rfl := (MspLspIter.yields_newCovering (by decide) (by decide)).unique h.yields
  exact absurd ((forall_mem_keysFrom_iff (by decide)).mp h.bins) (by decide)

end Both

end Scylla
end Daqbuf
