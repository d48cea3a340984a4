import Daqbuf.Disk.Index
/-!
# Positions in Data Files

The searches over the records of a data file itself, which need no index: the records all have one
length, so that their positions are known.

Main results:

- Theorems {lit}`Datafile.positionStaticLenDatafile_eq` and
  {lit}`Datafile.positionStaticLenDatafileAtLargestSmallerThan_eq`: what the searches report on a
  file of equal-length records that are ordered by time.
- Theorem {lit}`Datafile.exact_iff`: the searches over the index and over the file are exact and
  agree, for every range but the inverted ones that lie around the first event.
-/

namespace Daqbuf
namespace Disk

open Bytes Search
open Netpod (NanoRange)

/-! ## Reading -/

/-- {lit}`read` into a buffer of 1024 zeros, from the position {lit}`pos` of the file. -/
def read (file : List UInt8) (pos : ℕ) : List UInt8 :=
  (file.drop pos ++ List.replicate 1024 0).take 1024

/-- {lit}`parse_channel_header` -/
def parseChannelHeader (buf : List UInt8) : Except Fault ℕ :=
  if buf.length < 6 then .error (.headerBufLen buf.length)
  else
    let ver := ofBe (slice buf 0 2)
    if ver ≠ 0 then .error (.unknownFileVersion ver)
    else
      let len1 := ofBe (slice buf 2 6)
      if len1 < 9 ∨ len1 > 256 then .error (.unexpectedHeaderLen len1)
      else if buf.length < 2 + len1 then .error (.headerNotContained len1 buf.length)
      else
        let len2 := ofBe (slice buf (2 + len1 - 4) (2 + len1))
        if len1 ≠ len2 then .error (.lenMismatch len1 len2) else .ok len1

/-- {lit}`parse_event`: the length of the record and its timestamp. -/
def parseEvent (buf : List UInt8) : Except Fault (ℕ × ℕ) :=
  if buf.length < 4 then .error (.eventBufLen buf.length)
  else
    let len1 := ofBe (slice buf 0 4)
    if len1 < 9 ∨ len1 > 512 then .error (.unexpectedEventLen len1)
    else if buf.length < len1 then .error (.eventNotContained len1 buf.length)
    else
      let len2 := ofBe (slice buf (len1 - 4) len1)
      if len1 ≠ len2 then .error (.lenMismatch len1 len2)
      -- the timestamp is read without regard to the length of the record
      else if buf.length < 20 then .error .panic
      else .ok (len1, ofBe (slice buf 12 20))

/-- {lit}`read_event_at` -/
def readEventAt (pos : ℕ) (file : List UInt8) : Except Fault (ℕ × ℕ) :=
  parseEvent (read file pos)

/-- The timestamp of the event at a position, if its record has the expected length. -/
def readTsAt (evlen pos : ℕ) (file : List UInt8) : Except Fault ℕ :=
  match readEventAt pos file with
  | .error e => .error e
  | .ok t => if t.1 ≠ evlen then .error (.inconsistentEventLengths t.1 evlen) else .ok t.2

/-- The file, whether the position was found, the number of reads, and the position to which the file
was moved. -/
structure Positioned where
  found : Bool
  nreads : ℕ
  pos : ℕ
  deriving DecidableEq, Repr

/-! ## The searches -/

/-- What both searches over a data file begin with. -/
structure Opened where
  headoff : ℕ
  evlen : ℕ
  k : ℕ
  x : ℕ
  y : ℕ
  deriving DecidableEq, Repr

/-- The difference of two {lit}`u64`, which wraps around. -/
def u64Sub (a b : ℕ) : ℕ := if b ≤ a then a - b else 2 ^ 64 - (b - a)

/-- The position of the last complete record.  It wraps around where there is none. -/
def lastRecord (flen headoff evlen : ℕ) : ℕ :=
  (u64Sub (u64Sub flen headoff / evlen) 1 * evlen + headoff) % 2 ^ 64

/-- The header, the first record and the last record. -/
def openDatafile (file : List UInt8) : Except Fault Opened :=
  match parseChannelHeader (read file 0) with
  | .error e => .error e
  | .ok len1 =>
    let headoff := 2 + len1
    match parseEvent ((read file 0).drop headoff) with
    | .error e => .error e
    | .ok ev =>
      let k := lastRecord file.length headoff ev.1
      match readTsAt ev.1 k file with
      | .error e => .error e
      | .ok y => .ok ⟨headoff, ev.1, k, ev.2, y⟩

/-- The loop that the searches over a data file share, up to the assertions of the one. -/
def fileBisection (range : NanoRange) (file : List UInt8) (evlen : ℕ)
    (guard : Bracket ℕ → Except Fault Unit) : Bisection ℕ Fault where
  guard := guard
  tight j k := decide (u64Sub k j < 2 * evlen)
  mid j k := (j + u64Sub k j / 2 / evlen * evlen) % 2 ^ 64
  read m := readTsAt evlen m file
  below e := decide (e < range.beg)
  endless := .endless

/-- The assertions of {lit}`position_static_len_datafile`. -/
def assertBracket (evlen : ℕ) (b : Bracket ℕ) : Except Fault Unit :=
  if b.x < b.y ∧ u64Sub b.k b.j % evlen = 0 then .ok () else .error .panic

/-- The other search asserts nothing. -/
def unchecked (_ : Bracket ℕ) : Except Fault Unit := .ok ()

/-- {lit}`position_static_len_datafile` -/
def positionStaticLenDatafile (file : List UInt8) (range : NanoRange) (expandRight : Bool) :
    Except Fault Positioned :=
  match openDatafile file with
  | .error e => .error e
  | .ok o =>
    if range.fin ≤ o.x then
      if expandRight then .ok ⟨true, 2, o.headoff⟩ else .ok ⟨false, 2, 0⟩
    else if o.y < range.beg then .ok ⟨false, 2, o.headoff⟩
    else if range.beg ≤ o.x then
      if o.x < range.fin || expandRight then .ok ⟨true, 2, o.headoff⟩ else .ok ⟨false, 2, 0⟩
    else
      match (fileBisection range file o.evlen (assertBracket o.evlen)).loop (u64Sub o.k o.headoff)
          ⟨o.headoff, o.k, o.x, o.y, 2⟩ with
      | .error e => .error e
      | .ok b =>
        if b.y < range.fin || expandRight then .ok ⟨true, b.nreads, b.k⟩
        else .ok ⟨false, b.nreads, 0⟩

/-- {lit}`position_static_len_datafile_at_largest_smaller_than` -/
def positionStaticLenDatafileAtLargestSmallerThan (file : List UInt8) (range : NanoRange)
    (_expandRight : Bool) : Except Fault Positioned :=
  match openDatafile file with
  | .error e => .error e
  | .ok o =>
    if range.beg ≤ o.x then .ok ⟨false, 2, o.headoff⟩
    else if o.y < range.beg then .ok ⟨true, 2, o.k⟩
    else
      match (fileBisection range file o.evlen unchecked).loop (u64Sub o.k o.headoff)
          ⟨o.headoff, o.k, o.x, o.y, 2⟩ with
      | .error e => .error e
      | .ok b => .ok ⟨true, b.nreads, b.j⟩

/-! ## Well-formed files -/

/-- A record of a data file, by the fields that the searches read. -/
structure Record where
  ttl : UInt64
  ts : UInt64
  body : List UInt8
  deriving DecidableEq

namespace Record

/-- The length of a record, which stands at its beginning and at its end. -/
def len (r : Record) : ℕ := 24 + r.body.length

def bytes (r : Record) : List UInt8 :=
  beBytes 4 r.len ++ beBytes 8 r.ttl.toNat ++ beBytes 8 r.ts.toNat ++ r.body ++ beBytes 4 r.len

@[simp]
theorem length_bytes (r : Record) : r.bytes.length = r.len := by
  simp [bytes, len]
  omega

end Record

/-- A data file with records of one length, ordered by time, after which there can be the beginning of
another record. -/
structure Datafile where
  /-- the header between its two lengths -/
  head : List UInt8
  records : List Record
  evlen : ℕ
  tail : List UInt8
  head_pos : 0 < head.length
  head_le : head.length ≤ 248
  records_ne : records ≠ []
  len_eq : ∀ r ∈ records, r.len = evlen
  evlen_le : evlen ≤ 512
  sorted : SortedBy (fun r : Record => r.ts.toNat) records
  tail_lt : tail.length < evlen
  fits : 10 + head.length + records.length * evlen + tail.length < 2 ^ 64

namespace Datafile

variable (f : Datafile)

def headoff : ℕ := 10 + f.head.length

/-- The position of a record. -/
def pos (i : ℕ) : ℕ := f.headoff + i * f.evlen

def header : List UInt8 :=
  beBytes 2 0 ++ beBytes 4 (8 + f.head.length) ++ f.head ++ beBytes 4 (8 + f.head.length)

def bytes : List UInt8 := f.header ++ f.records.flatMap Record.bytes ++ f.tail

/-- The timestamps and positions of the records. -/
def entries : List (ℕ × ℕ) := f.records.mapIdx fun i r => (r.ts.toNat, f.pos i)

/-! ## Reading a well-formed file -/

theorem evlen_ge : 24 ≤ f.evlen := by
  rcases List.exists_mem_of_ne_nil f.records f.records_ne with ⟨r, hr⟩
  have hlen : r.len = f.evlen := f.len_eq r hr
  rw [← hlen, Record.len]
  omega

@[simp]
theorem length_header : f.header.length = f.headoff := by
  simp [header, headoff]
  omega

theorem length_flatMap_bytes {evlen : ℕ} {records : List Record}
    (hlen : ∀ r ∈ records, r.len = evlen) :
    (records.flatMap Record.bytes).length = records.length * evlen := by
  induction records with
  | nil => simp
  | cons r records ih =>
      have hr : r.len = evlen := hlen r List.mem_cons_self
      have hrest := ih fun r' hr' => hlen r' (List.mem_cons_of_mem r hr')
      rw [List.flatMap_cons, List.length_append, Record.length_bytes, hr, hrest, List.length_cons]
      ring

theorem length_bytes : f.bytes.length = f.pos f.records.length + f.tail.length := by
  rw [bytes, List.length_append, List.length_append, length_header, length_flatMap_bytes f.len_eq, pos]

/-- At its position begins the record. -/
theorem drop_pos {i : ℕ} {r : Record} (hr : f.records[i]? = some r) :
    ∃ rest, f.bytes.drop (f.pos i) = r.bytes ++ rest := by
  rcases List.getElem?_eq_some_iff.mp hr with ⟨hi, hget⟩
  have hlist : f.records = f.records.take i ++ r :: f.records.drop (i + 1) := by
    rw [← hget, List.getElem_cons_drop, List.take_append_drop]
  have hbefore : (f.header ++ (f.records.take i).flatMap Record.bytes).length = f.pos i := by
    rw [List.length_append, length_header,
      length_flatMap_bytes (fun r' hr' => f.len_eq r' (List.mem_of_mem_take hr')), List.length_take,
      min_eq_left hi.le, pos]
  refine ⟨(f.records.drop (i + 1)).flatMap Record.bytes ++ f.tail, ?_⟩
  have hsplit : f.bytes = (f.header ++ (f.records.take i).flatMap Record.bytes) ++
      (r.bytes ++ ((f.records.drop (i + 1)).flatMap Record.bytes ++ f.tail)) := by
    conv_lhs => rw [bytes, hlist]
    simp [List.flatMap_append]
  rw [hsplit, ← hbefore, List.drop_left]

/-- A record is parsed back, whatever follows it. -/
theorem parseEvent_record {r : Record} (hlen : r.len ≤ 512) (rest : List UInt8) :
    parseEvent (r.bytes ++ rest) = .ok (r.len, r.ts.toNat) := by
  have hge : 24 ≤ r.len := Nat.le_add_right _ _
  have hbuf : (r.bytes ++ rest).length = r.len + rest.length := by simp
  have hword : r.len < 256 ^ 4 := by omega
  have hlen1 : slice (r.bytes ++ rest) 0 4 = beBytes 4 r.len := by
    have hsplit : r.bytes ++ rest = [] ++ beBytes 4 r.len ++
        (beBytes 8 r.ttl.toNat ++ beBytes 8 r.ts.toNat ++ r.body ++ beBytes 4 r.len ++ rest) := by
      simp [Record.bytes]
    rw [hsplit]
    exact slice_middle (by simp) (by simp)
  have hts : slice (r.bytes ++ rest) 12 20 = beBytes 8 r.ts.toNat := by
    have hsplit : r.bytes ++ rest = (beBytes 4 r.len ++ beBytes 8 r.ttl.toNat) ++
        beBytes 8 r.ts.toNat ++ (r.body ++ beBytes 4 r.len ++ rest) := by
      simp [Record.bytes]
    rw [hsplit]
    exact slice_middle (by simp) (by simp)
  have hlen2 : slice (r.bytes ++ rest) (r.len - 4) r.len = beBytes 4 r.len := by
    have hsplit : r.bytes ++ rest = (beBytes 4 r.len ++ beBytes 8 r.ttl.toNat ++
        beBytes 8 r.ts.toNat ++ r.body) ++ beBytes 4 r.len ++ rest := by
      simp [Record.bytes]
    rw [hsplit]
    exact slice_middle (by simp [Record.len]; omega) (by simp [Record.len]; omega)
  have hread : ofBe (beBytes 4 r.len) = r.len := ofBe_beBytes_of_lt hword
  have hreadTs : ofBe (beBytes 8 r.ts.toNat) = r.ts.toNat :=
    ofBe_beBytes_of_lt (by simpa using r.ts.toNat_lt)
  simp only [parseEvent, hlen1, hread, hlen2, hts, hreadTs, hbuf]
  rw [if_neg (by omega), if_neg (by omega), if_neg (by omega), if_neg (by simp), if_neg (by omega)]

/-- The buffer that is read holds what fits of the file. -/
theorem read_of_drop {file bs rest : List UInt8} {p : ℕ} (hdrop : file.drop p = bs ++ rest)
    (hlen : bs.length ≤ 1024) : ∃ rest', read file p = bs ++ rest' := by
  refine ⟨(rest ++ List.replicate 1024 0).take (1024 - bs.length), ?_⟩
  rw [read, hdrop, List.append_assoc, List.take_append, List.take_of_length_le hlen]

/-- The event at the position of a record. -/
theorem readTsAt_pos {i : ℕ} {r : Record} (hr : f.records[i]? = some r) :
    readTsAt f.evlen (f.pos i) f.bytes = .ok r.ts.toNat := by
  have hlen : r.len = f.evlen := f.len_eq r (List.mem_of_getElem? hr)
  have hle : r.len ≤ 512 := hlen.le.trans f.evlen_le
  rcases f.drop_pos hr with ⟨rest, hdrop⟩
  rcases read_of_drop hdrop (by rw [Record.length_bytes]; omega) with ⟨rest', hread⟩
  simp [readTsAt, readEventAt, hread, parseEvent_record hle, hlen]

/-- The header is parsed back. -/
theorem parseChannelHeader_header (rest : List UInt8) :
    parseChannelHeader (f.header ++ rest) = .ok (8 + f.head.length) := by
  have hhead := f.head_pos
  have hle := f.head_le
  have hbuf : (f.header ++ rest).length = f.headoff + rest.length := by simp
  have hver : slice (f.header ++ rest) 0 2 = beBytes 2 0 := by
    have hsplit : f.header ++ rest = [] ++ beBytes 2 0 ++ (beBytes 4 (8 + f.head.length) ++ f.head ++
        beBytes 4 (8 + f.head.length) ++ rest) := by
      simp [header]
    rw [hsplit]
    exact slice_middle (by simp) (by simp)
  have hlen1 : slice (f.header ++ rest) 2 6 = beBytes 4 (8 + f.head.length) := by
    have hsplit : f.header ++ rest = beBytes 2 0 ++ beBytes 4 (8 + f.head.length) ++ (f.head ++
        beBytes 4 (8 + f.head.length) ++ rest) := by
      simp [header]
    rw [hsplit]
    exact slice_middle (by simp) (by simp)
  have hlen2 : slice (f.header ++ rest) (2 + (8 + f.head.length) - 4) (2 + (8 + f.head.length))
      = beBytes 4 (8 + f.head.length) := by
    have hsplit : f.header ++ rest = (beBytes 2 0 ++ beBytes 4 (8 + f.head.length) ++ f.head) ++
        beBytes 4 (8 + f.head.length) ++ rest := by
      simp [header]
    rw [hsplit]
    exact slice_middle (by simp; omega) (by simp; omega)
  have hread : ofBe (beBytes 4 (8 + f.head.length)) = 8 + f.head.length :=
    ofBe_beBytes_of_lt (by omega)
  have hreadVer : ofBe (beBytes 2 0) = 0 := by decide
  simp only [parseChannelHeader, hver, hreadVer, hlen1, hread, hlen2, hbuf, headoff]
  rw [if_neg (by omega), if_neg (by simp), if_neg (by omega), if_neg (by omega), if_neg (by simp)]

theorem u64Sub_of_le {a b : ℕ} (hle : b ≤ a) : u64Sub a b = a - b := if_pos hle

/-- The last complete record is found from the length of the file. -/
theorem lastRecord_eq : lastRecord f.bytes.length f.headoff f.evlen = f.pos (f.records.length - 1) := by
  have hpos : 0 < f.records.length := List.length_pos_iff.mpr f.records_ne
  have hfits := f.fits
  have hge := f.evlen_ge
  have hlt := f.tail_lt
  have hlen : f.bytes.length = f.headoff + (f.records.length * f.evlen + f.tail.length) := by
    rw [length_bytes, pos, Nat.add_assoc]
  have hhead : f.headoff = 10 + f.head.length := rfl
  have hdiff : u64Sub f.bytes.length f.headoff = f.records.length * f.evlen + f.tail.length := by
    rw [u64Sub_of_le (by omega), hlen, Nat.add_sub_cancel_left]
  have hcount : (f.records.length * f.evlen + f.tail.length) / f.evlen = f.records.length := by
    rw [Nat.add_comm, Nat.add_mul_div_right _ _ (by omega), Nat.div_eq_of_lt hlt, Nat.zero_add]
  have hle : f.records.length ≤ f.records.length * f.evlen := Nat.le_mul_of_pos_right _ (by omega)
  have hprev : (f.records.length - 1) * f.evlen ≤ f.records.length * f.evlen :=
    Nat.mul_le_mul_right _ (Nat.sub_le _ _)
  have hpred : u64Sub f.records.length 1 = f.records.length - 1 := u64Sub_of_le hpos
  rw [lastRecord, hdiff, hcount, hpred, Nat.mod_eq_of_lt (by omega), pos, Nat.add_comm]

/-- What both searches begin with, from what is read. -/
theorem openDatafile_of {file : List UInt8} {len1 evlen x y : ℕ}
    (hheader : parseChannelHeader (read file 0) = .ok len1)
    (hevent : parseEvent ((read file 0).drop (2 + len1)) = .ok (evlen, x))
    (hlast : readTsAt evlen (lastRecord file.length (2 + len1) evlen) file = .ok y) :
    openDatafile file = .ok ⟨2 + len1, evlen, lastRecord file.length (2 + len1) evlen, x, y⟩ := by
  simp only [openDatafile, hheader, hevent, hlast]

/-- What both searches begin with, on a well-formed file. -/
theorem openDatafile_eq {first last : Record} (hfirst : f.records[0]? = some first)
    (hlast : f.records[f.records.length - 1]? = some last) :
    openDatafile f.bytes = .ok ⟨f.headoff, f.evlen, f.pos (f.records.length - 1), first.ts.toNat,
      last.ts.toNat⟩ := by
  have hlen : first.len = f.evlen := f.len_eq first (List.mem_of_getElem? hfirst)
  have hle : first.len ≤ 512 := hlen.le.trans f.evlen_le
  have hheadLe := f.head_le
  rcases f.drop_pos hfirst with ⟨rest, hdrop⟩
  have hpos : f.pos 0 = f.headoff := by simp [pos]
  have hall : f.bytes.drop 0 = (f.header ++ first.bytes) ++ rest := by
    rw [List.drop_zero, List.append_assoc, ← hdrop, hpos, bytes, List.append_assoc,
      ← length_header, List.drop_left]
  have hshort : (f.header ++ first.bytes).length ≤ 1024 := by
    rw [List.length_append, length_header, Record.length_bytes, headoff]
    omega
  rcases read_of_drop hall hshort with ⟨rest', hread⟩
  have hheader : parseChannelHeader (read f.bytes 0) = .ok (8 + f.head.length) := by
    rw [hread, List.append_assoc]
    exact f.parseChannelHeader_header _
  have hoff : 2 + (8 + f.head.length) = f.headoff := by
    rw [headoff]
    omega
  have hevent : parseEvent ((read f.bytes 0).drop f.headoff) = .ok (first.len, first.ts.toNat) := by
    rw [hread, List.append_assoc, ← length_header, List.drop_left]
    exact parseEvent_record hle _
  have hlastRead : readTsAt f.evlen (lastRecord f.bytes.length f.headoff f.evlen) f.bytes
      = .ok last.ts.toNat := by
    rw [lastRecord_eq]
    exact f.readTsAt_pos hlast
  have hopen := openDatafile_of hheader (hoff ▸ hlen ▸ hevent) (hoff ▸ hlastRead)
  rw [hopen, hoff, lastRecord_eq]

/-! ## Searching a well-formed file -/

theorem entries_getElem? (i : ℕ) :
    f.entries[i]? = f.records[i]?.map fun r => (r.ts.toNat, f.pos i) := by
  simp [entries, List.getElem?_mapIdx]

@[simp]
theorem length_entries : f.entries.length = f.records.length := by
  simp [entries]

theorem entries_map_fst : f.entries.map Prod.fst = f.records.map fun r => r.ts.toNat := by
  apply List.ext_getElem?
  intro i
  simp [entries_getElem?, Function.comp_def]

theorem pos_lt {i : ℕ} (hi : i < f.records.length) : f.pos i < 2 ^ 64 := by
  have hle : i * f.evlen ≤ f.records.length * f.evlen := Nat.mul_le_mul_right _ hi.le
  have hfits := f.fits
  rw [pos, headoff]
  omega

theorem pos_sub {i j : ℕ} (hij : i ≤ j) : f.pos j - f.pos i = (j - i) * f.evlen := by
  have hle : i * f.evlen ≤ j * f.evlen := Nat.mul_le_mul_right _ hij
  rw [pos, pos, Nat.sub_mul]
  omega

theorem pos_le {i j : ℕ} (hij : i ≤ j) : f.pos i ≤ f.pos j :=
  Nat.add_le_add_left (Nat.mul_le_mul_right _ hij) _

/-- The entries of a file make up an index. -/
theorem indexEntries : IndexEntries f.entries where
  ts_lt e he := by
    rcases List.mem_iff_getElem?.mp he with ⟨i, hi⟩
    rw [entries_getElem?, Option.map_eq_some_iff] at hi
    rcases hi with ⟨r, -, rfl⟩
    simpa using r.ts.toNat_lt
  pos_lt e he := by
    rcases List.mem_iff_getElem?.mp he with ⟨i, hi⟩
    rw [entries_getElem?, Option.map_eq_some_iff] at hi
    rcases hi with ⟨r, hr, rfl⟩
    have hlt := f.pos_lt (List.getElem?_eq_some_iff.mp hr).1
    norm_num at hlt ⊢
    exact hlt
  sorted := by
    have hsorted : (f.entries.map Prod.fst).Pairwise (· ≤ ·) := by
      rw [entries_map_fst, List.pairwise_map]
      exact f.sorted
    exact List.pairwise_map.mp hsorted

/-- Where two records are compared, both loops do arithmetic that does not wrap. -/
theorem u64Sub_pos {i j : ℕ} (hij : i ≤ j) : u64Sub (f.pos j) (f.pos i) = (j - i) * f.evlen := by
  rw [u64Sub_of_le (f.pos_le hij), f.pos_sub hij]

/-- The loop over a file runs over the timestamps of its records. -/
theorem fileBisection_over (range : NanoRange) {guard : Bracket ℕ → Except Fault Unit}
    (hguard : ∀ i j x y n, i < j → j < f.records.length → x < y →
      guard ⟨f.pos i, f.pos j, x, y, n⟩ = .ok ()) :
    (fileBisection range f.bytes f.evlen guard).Over (f.entries.map Prod.fst) f.pos where
  read i e he := by
    rw [entries_map_fst, List.getElem?_map, Option.map_eq_some_iff] at he
    rcases he with ⟨r, hr, rfl⟩
    exact f.readTsAt_pos hr
  mid i j hij hj := by
    have hge := f.evlen_ge
    have hj : j < f.records.length := by simpa using hj
    have hhalf : (j - i) * f.evlen / 2 / f.evlen = (j - i) / 2 := by
      rw [Nat.div_div_eq_div_mul, Nat.mul_div_mul_right _ _ (by omega)]
    have hmid : f.pos i + (j - i) / 2 * f.evlen = f.pos (i + (j - i) / 2) := by
      rw [pos, pos, Nat.add_mul, Nat.add_assoc]
    refine ⟨i + (j - i) / 2, by omega, by omega, ?_⟩
    simp only [fileBisection]
    rw [f.u64Sub_pos (by omega), hhalf, hmid, Nat.mod_eq_of_lt (f.pos_lt (by omega))]
  tight i j hij hj := by
    have hge := f.evlen_ge
    have hj : j < f.records.length := by simpa using hj
    simp only [fileBisection, decide_eq_true_eq]
    rw [f.u64Sub_pos hij.le, Nat.mul_lt_mul_right (by omega)]
    omega
  guard i j x y n hij hx hy hbelow habove := by
    have hj : j < f.records.length := by simpa using (List.getElem?_eq_some_iff.mp hy).1
    simp only [fileBisection, decide_eq_true_eq, decide_eq_false_iff_not] at hbelow habove
    exact hguard i j x y n hij hj (by omega)

/-- The loop over a file ends around the partition point. -/
theorem fileBisection_loop (range : NanoRange) {guard : Bracket ℕ → Except Fault Unit}
    (hguard : ∀ i j x y n, i < j → j < f.records.length → x < y →
      guard ⟨f.pos i, f.pos j, x, y, n⟩ = .ok ())
    {first last : Record} (hfirst : f.records[0]? = some first)
    (hlast : f.records[f.records.length - 1]? = some last) (hx : first.ts.toNat < range.beg)
    (hy : range.beg ≤ last.ts.toNat) :
    ∃ e e' n, firstGe range.beg f.entries = some e' ∧ lastLt range.beg f.entries = some e ∧
      (fileBisection range f.bytes f.evlen guard).loop
        (u64Sub (f.pos (f.records.length - 1)) f.headoff)
        ⟨f.headoff, f.pos (f.records.length - 1), first.ts.toNat, last.ts.toNat, 2⟩
          = .ok ⟨e.2, e'.2, e.1, e'.1, n⟩ := by
  have hge := f.evlen_ge
  have hpos : f.pos 0 = f.headoff := by simp [pos]
  have hn : 0 < f.records.length := List.length_pos_iff.mpr f.records_ne
  have hlt : 0 < f.records.length - 1 := by
    by_contra hzero
    have hsame : f.records.length - 1 = 0 := by omega
    rw [hsame, hfirst, Option.some.injEq] at hlast
    subst hlast
    omega
  have hrounds : f.records.length - 1 - 0 ≤ u64Sub (f.pos (f.records.length - 1)) (f.pos 0) := by
    rw [f.u64Sub_pos (Nat.zero_le _)]
    exact Nat.le_mul_of_pos_right _ (by omega)
  have hpart : Partitioned (fileBisection range f.bytes f.evlen guard).below
      (f.entries.map Prod.fst) :=
    partitioned_ts f.indexEntries.sorted range.beg
  have hx0 : (f.entries.map Prod.fst)[0]? = some first.ts.toNat := by
    simp [entries_map_fst, hfirst]
  have hy0 : (f.entries.map Prod.fst)[f.records.length - 1]? = some last.ts.toNat := by
    simp [entries_map_fst, hlast]
  rcases Bisection.loop_eq (n := 2) (f.fileBisection_over range hguard) hpart hlt hx0 hy0
      (by simpa [fileBisection] using hx) (by simpa [fileBisection] using hy) hrounds
    with ⟨c, x, y, n, hc, hx', hy', hloop⟩
  have hfound := of_partitionPoint f.indexEntries.sorted hc
  rw [entries_map_fst, List.getElem?_map, Option.map_eq_some_iff] at hx' hy'
  rcases hx' with ⟨r, hr, rfl⟩
  rcases hy' with ⟨r', hr', rfl⟩
  rw [hpos] at hloop
  refine ⟨(r.ts.toNat, f.pos c), (r'.ts.toNat, f.pos (c + 1)), n, ?_, ?_, hloop⟩
  · rw [hfound.1, entries_getElem?, hr']
    rfl
  · rw [hfound.2, entries_getElem?, hr]
    rfl

/-- The assertions hold. -/
theorem guard_assertBracket (i j x y n : ℕ) (hij : i < j) (_ : j < f.records.length) (hxy : x < y) :
    assertBracket f.evlen ⟨f.pos i, f.pos j, x, y, n⟩ = .ok () := by
  have hmod : u64Sub (f.pos j) (f.pos i) % f.evlen = 0 := by
    rw [f.u64Sub_pos hij.le, Nat.mul_mod_left]
  exact if_pos ⟨hxy, hmod⟩

theorem guard_unchecked (i j x y n : ℕ) (_ : i < j) (_ : j < f.records.length) (_ : x < y) :
    unchecked ⟨f.pos i, f.pos j, x, y, n⟩ = .ok () := rfl

/-- The search reports the entry, or that there is none. -/
def Reports (result : Except Fault Positioned) (entry : Option (ℕ × ℕ)) : Prop :=
  ∃ p, result = .ok p ∧ p.found = entry.isSome ∧ ∀ e ∈ entry, p.pos = e.2

/-- What a file has to offer for its first and last record. -/
theorem exists_first_last_record : ∃ first last, f.records[0]? = some first ∧
    f.records[f.records.length - 1]? = some last ∧
    f.entries.head? = some (first.ts.toNat, f.headoff) ∧
    f.entries.getLast? = some (last.ts.toNat, f.pos (f.records.length - 1)) := by
  have hpos : 0 < f.records.length := List.length_pos_iff.mpr f.records_ne
  have hfirst : f.records[0]? = some f.records[0] := List.getElem?_eq_getElem hpos
  have hlast : f.records[f.records.length - 1]? = some f.records[f.records.length - 1] :=
    List.getElem?_eq_getElem (by omega)
  refine ⟨_, _, hfirst, hlast, ?_, ?_⟩
  · rw [List.head?_eq_getElem?, entries_getElem?, hfirst]
    simp [pos]
  · rw [List.getLast?_eq_getElem?, entries_getElem?, length_entries, hlast]
    rfl

/-- The first entry not before {lit}`beg`, unless it is not before {lit}`end` either and the search is
not to expand. -/
def geEntry (range : NanoRange) (expandRight : Bool) : Option (ℕ × ℕ) :=
  (firstGe range.beg f.entries).filter fun e => e.1 < range.fin || expandRight

/-- The search that expands reports the first record whenever it is not before the end of the range,
and otherwise the first record not before its beginning. -/
theorem positionStaticLenDatafile_eq (range : NanoRange) (expandRight : Bool) :
    Reports (positionStaticLenDatafile f.bytes range expandRight)
      (if expandRight = true ∧ ∃ e ∈ f.entries.head?, range.fin ≤ e.1 then f.entries.head?
        else f.geEntry range expandRight) := by
  rcases f.exists_first_last_record with ⟨first, last, hfirst, hlast, hhead, hgetLast⟩
  have hsorted := f.indexEntries.sorted
  have hle : first.ts.toNat ≤ last.ts.toNat :=
    hsorted.le_getLast (List.mem_of_mem_head? hhead) _ hgetLast
  have hopen := f.openDatafile_eq hfirst hlast
  have hcase : (∃ e ∈ f.entries.head?, range.fin ≤ e.1) ↔ range.fin ≤ first.ts.toNat := by
    simp [hhead]
  simp only [positionStaticLenDatafile, hopen, hcase]
  by_cases hfin : range.fin ≤ first.ts.toNat
  · cases expandRight with
    | true =>
        rw [if_pos hfin, if_pos rfl, if_pos ⟨rfl, hfin⟩, hhead]
        exact ⟨_, rfl, by simp, by simp⟩
    | false =>
        -- what is not before the first record is not before the end of the range either
        have hnone : f.geEntry range false = none := by
          unfold geEntry
          rw [Option.filter_eq_none_iff]
          intro e he
          have hmem : e ∈ f.entries := List.mem_of_find?_eq_some he
          have hge : first.ts.toNat ≤ e.1 := hsorted.le_of_head? hhead hmem
          simp
          omega
        simp [hnone, hfin, Reports]
  have hnot : ¬ (expandRight = true ∧ range.fin ≤ first.ts.toNat) := fun h => hfin h.2
  rw [if_neg hfin, if_neg hnot]
  by_cases hafter : last.ts.toNat < range.beg
  · rw [if_pos hafter, geEntry, (of_last_lt_beg hsorted hgetLast hafter).1]
    exact ⟨_, rfl, by simp, by simp⟩
  rw [if_neg hafter]
  by_cases hbefore : range.beg ≤ first.ts.toNat
  · rw [if_pos hbefore, geEntry, (of_beg_le_first hsorted hhead hbefore).1]
    have hin : first.ts.toNat < range.fin := by omega
    simp [hin, Reports, Option.filter]
  rw [if_neg hbefore]
  rcases f.fileBisection_loop range (guard_assertBracket f) hfirst hlast (by omega) (by omega)
    with ⟨e, e', n, hge, -, hloop⟩
  rw [hloop, geEntry, hge]
  by_cases hin : (decide (e'.1 < range.fin) || expandRight) = true
  · simp [hin, Reports, Option.filter]
  · simp [hin, Reports, Option.filter]

/-- The search for the last record before the range reports it. -/
theorem positionStaticLenDatafileAtLargestSmallerThan_eq (range : NanoRange) (expandRight : Bool) :
    Reports (positionStaticLenDatafileAtLargestSmallerThan f.bytes range expandRight)
      (lastLt range.beg f.entries) := by
  rcases f.exists_first_last_record with ⟨first, last, hfirst, hlast, hhead, hgetLast⟩
  have hsorted := f.indexEntries.sorted
  have hopen := f.openDatafile_eq hfirst hlast
  simp only [positionStaticLenDatafileAtLargestSmallerThan, hopen]
  by_cases hbefore : range.beg ≤ first.ts.toNat
  · rw [if_pos hbefore, (of_beg_le_first hsorted hhead hbefore).2]
    exact ⟨_, rfl, by simp, by simp⟩
  rw [if_neg hbefore]
  by_cases hafter : last.ts.toNat < range.beg
  · rw [if_pos hafter, (of_last_lt_beg hsorted hgetLast hafter).2]
    exact ⟨_, rfl, by simp, by simp⟩
  rw [if_neg hafter]
  rcases f.fileBisection_loop range f.guard_unchecked hfirst hlast (by omega) (by omega)
    with ⟨e, e', n, -, hlt, hloop⟩
  rw [hloop, hlt]
  exact ⟨_, rfl, by simp, by simp⟩

/-! ## Exactness -/

/-- The bytes of the index of the file. -/
def index : List UInt8 := indexBytes f.entries

/-- The searches over the index find the entries they are meant to find, and those over the file
report found exactly when they do, and then the same position. -/
structure Exact (range : NanoRange) (expandRight : Bool) : Prop where
  findGe : findGe range expandRight f.index = .ok (f.geEntry range expandRight)
  findLargestSmallerThan :
    findLargestSmallerThan range expandRight f.index = .ok (lastLt range.beg f.entries)
  position : Reports (positionStaticLenDatafile f.bytes range expandRight)
    (f.geEntry range expandRight)
  positionLargestSmaller :
    Reports (positionStaticLenDatafileAtLargestSmallerThan f.bytes range expandRight)
      (lastLt range.beg f.entries)

/-- A range that is inverted around the first record: it ends at or before the record and begins
after it. -/
def InvertedAroundFirst (range : NanoRange) : Prop :=
  ∃ e ∈ f.entries.head?, range.fin ≤ e.1 ∧ e.1 < range.beg

/-- Only the first record is at the end of the header. -/
theorem ts_of_headoff {first : Record} (hfirst : f.records[0]? = some first) {e : ℕ × ℕ}
    (he : e ∈ f.entries) (hpos : e.2 = f.headoff) : e.1 = first.ts.toNat := by
  rcases List.mem_iff_getElem?.mp he with ⟨i, hi⟩
  rw [entries_getElem?, Option.map_eq_some_iff] at hi
  rcases hi with ⟨r, hr, rfl⟩
  have hge := f.evlen_ge
  have hzero : i = 0 := by
    have hmul : i * f.evlen = 0 := by
      simpa [pos] using hpos
    rcases Nat.mul_eq_zero.mp hmul with hi | hevlen
    · exact hi
    · omega
  subst hzero
  rw [hfirst, Option.some.injEq] at hr
  rw [← hr]

/-- The searches are exact and agree, except that the expanding search over a file reports the first
record of a range that is inverted around it. -/
theorem exact_iff (range : NanoRange) (expandRight : Bool) :
    f.Exact range expandRight ↔ ¬ (expandRight = true ∧ f.InvertedAroundFirst range) := by
  have hpos := f.positionStaticLenDatafile_eq range expandRight
  rcases f.exists_first_last_record with ⟨first, last, hfirst, hlast, hhead, hgetLast⟩
  have hsorted := f.indexEntries.sorted
  have hinv : f.InvertedAroundFirst range ↔
      range.fin ≤ first.ts.toNat ∧ first.ts.toNat < range.beg := by
    simp [InvertedAroundFirst, hhead]
  rw [hinv]
  have hcase : (∃ e ∈ f.entries.head?, range.fin ≤ e.1) ↔ range.fin ≤ first.ts.toNat := by
    simp [hhead]
  simp only [hcase] at hpos
  constructor
  · rintro hexact ⟨hexpand, hfin, hbeg⟩
    rw [if_pos ⟨hexpand, hfin⟩, hhead] at hpos
    rcases hpos with ⟨p, hp, hfound, hat⟩
    rcases hexact.position with ⟨q, hq, hfoundGe, hatGe⟩
    rw [hp, Except.ok.injEq] at hq
    subst hq
    have hsome : (f.geEntry range expandRight).isSome = true := by
      rw [← hfoundGe, hfound]
      rfl
    rcases Option.isSome_iff_exists.mp hsome with ⟨e, he⟩
    have hmem : e ∈ f.entries := List.mem_of_find?_eq_some (Option.eq_some_of_filter_eq_some he)
    have hge : range.beg ≤ e.1 := by
      simpa using List.find?_some (Option.eq_some_of_filter_eq_some he)
    have hsame : e.2 = f.headoff := by
      rw [← hatGe e he, hat _ rfl]
    have hts : e.1 = first.ts.toNat := f.ts_of_headoff hfirst hmem hsame
    omega
  · intro hnot
    have hentry : (if expandRight = true ∧ range.fin ≤ first.ts.toNat then f.entries.head?
        else f.geEntry range expandRight) = f.geEntry range expandRight := by
      by_cases hleft : expandRight = true ∧ range.fin ≤ first.ts.toNat
      · have hbefore : range.beg ≤ first.ts.toNat := by
          by_contra hlt
          exact hnot ⟨hleft.1, hleft.2, by omega⟩
        rw [if_pos hleft, geEntry, (of_beg_le_first hsorted hhead hbefore).1, hhead, hleft.1]
        simp [Option.filter]
      · rw [if_neg hleft]
    rw [hentry] at hpos
    exact ⟨findGe_of_entries range expandRight f.indexEntries,
      findLargestSmallerThan_of_entries range expandRight f.indexEntries, hpos,
      f.positionStaticLenDatafileAtLargestSmallerThan_eq range expandRight⟩

/-- A file with a single record. -/
def oneRecord : Datafile where
  head := [0]
  records := [⟨0, 5, []⟩]
  evlen := 24
  tail := []
  head_pos := by decide
  head_le := by decide
  records_ne := by decide
  len_eq := by decide
  evlen_le := by decide
  sorted := by simp [SortedBy]
  tail_lt := by decide
  fits := by decide

/-- Of a range that begins after the record and ends before it, the index has no event, but the file is
positioned at its record. -/
theorem not_exact_inverted : ¬ oneRecord.Exact ⟨10, 3⟩ true := by
  intro hexact
  rcases hexact.position with ⟨p, hp, hfound, -⟩
  have hfile : positionStaticLenDatafile oneRecord.bytes ⟨10, 3⟩ true = .ok ⟨true, 2, 11⟩ := by
    decide +kernel
  have hindex : oneRecord.geEntry ⟨10, 3⟩ true = none := by decide
  rw [hfile, Except.ok.injEq] at hp
  subst hp
  simp [hindex] at hfound

end Datafile

end Disk
end Daqbuf
