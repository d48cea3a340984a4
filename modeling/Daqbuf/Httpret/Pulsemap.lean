import Daqbuf.Bytes.Endian
import Daqbuf.Search.Bisect
/-!
# Pulse Lookup

The search for the time of a pulse in a data file, whose records have one length, and in an index, whose entries point
into a data file.  Both look at the first and the last record, and then halve the positions between them.

A file is given by its bytes.  A read gives as many bytes as there are, up to the room of the buffer where it does not
grow.

Main results:

- Theorem {lit}`searchPulse_iff`: the search in a data file of records of one length finds the record, unless the first
  one is only started.
- Theorem {lit}`searchIndexPulse_dataFile`: so does the search in the index of a data file.
-/

namespace Daqbuf
namespace Httpret

open Bytes Search

/-! ## Reading -/

/-- The errors of the reads and searches, by their texts -/
inductive PulseError where
  | unknownFileVersion (ver : ℕ)
  | lastNotEnough (flen posFirst chunkLen c1 n1 : ℕ)
  | lastMismatch (flen posFirst chunkLen clen c1 n1 : ℕ)
  | atNotEnough (n1 : ℕ)
  | atMismatch (pos clen chunkLen : ℕ)
  | searchPulse
  /-- {lit}`read_exact` at the end of the file -/
  | unexpectedEof
  | panicked
  deriving DecidableEq, Repr

/-- {lit}`ChunkInfo` -/
structure ChunkInfo where
  pos : ℕ
  len : ℕ
  ts : ℕ
  pulse : ℕ
  deriving DecidableEq, Repr

/-- {lit}`IndexChunkInfo` -/
structure IndexChunkInfo where
  posIndex : ℕ
  posData : ℕ
  len : ℕ
  ts : ℕ
  pulse : ℕ
  deriving DecidableEq, Repr

/-- The fields at the begin of a record: its length, the time to live, the timestamp and the pulse -/
def chunkInfo (pos : ℕ) (buf : List UInt8) : ChunkInfo where
  pos := pos
  len := ofBe (slice buf 0 4)
  ts := ofBe (slice buf 12 20)
  pulse := ofBe (slice buf 20 28)

/-- {lit}`read_first_chunk` -/
def readFirstChunk (file : List UInt8) : Except PulseError (Option ChunkInfo) :=
  let n1 := file.length
  if n1 < 6 then .ok none
  else
    let ver := ofBe (slice file 0 2)
    if ver ≠ 0 then .error (.unknownFileVersion ver)
    else
      let hlen := ofBe (slice file 2 6)
      if n1 < 2 + hlen + 4 + 3 * 8 then .ok none
      -- advancing by less than nothing
      else if hlen < 4 then .error .panicked
      else .ok (some (chunkInfo (2 + hlen) (file.drop (2 + hlen))))

/-- {lit}`read_last_chunk` -/
def readLastChunk (file : List UInt8) (posFirst chunkLen : ℕ) : Except PulseError (Option ChunkInfo) :=
  let flen := file.length
  if chunkLen = 0 ∨ flen < posFirst then .error .panicked
  else
    let c1 := (flen - posFirst) / chunkLen
    if c1 = 0 then .ok none
    else
      let p2 := posFirst + (c1 - 1) * chunkLen
      let buf := file.drop p2
      let n1 := buf.length
      if n1 < 4 + 3 * 8 then .error (.lastNotEnough flen posFirst chunkLen c1 n1)
      else
        let chunk := chunkInfo p2 buf
        if chunk.len ≠ chunkLen then .error (.lastMismatch flen posFirst chunkLen chunk.len c1 n1)
        else .ok (some chunk)

/-- {lit}`read_chunk_at` -/
def readChunkAt (file : List UInt8) (pos : ℕ) (chunkLen : Option ℕ) : Except PulseError ChunkInfo :=
  let buf := (file.drop pos).take 1024
  let n1 := buf.length
  if n1 < 4 + 3 * 8 then .error (.atNotEnough n1)
  else
    let chunk := chunkInfo pos buf
    match chunkLen with
    | some chunkLen => if chunk.len ≠ chunkLen then .error (.atMismatch pos chunk.len chunkLen) else .ok chunk
    | none => .ok chunk

/-- The chunk that an index entry points to, with the position of an entry -/
def readIndexed (fileData : List UInt8) (posIndex posData : ℕ) : Except PulseError IndexChunkInfo :=
  (readChunkAt fileData posData none).map fun chunk => ⟨posIndex, chunk.pos, chunk.len, chunk.ts, chunk.pulse⟩

/-- {lit}`read_first_index_chunk` -/
def readFirstIndexChunk (fileIndex fileData : List UInt8) : Except PulseError (Option IndexChunkInfo) :=
  let n1 := fileIndex.length
  if n1 < 18 then .ok none
  else
    let ver := ofBe (slice fileIndex 0 2)
    if ver ≠ 0 then .error (.unknownFileVersion ver)
    else
      let posData := ofBe (slice fileIndex 10 18)
      (readIndexed fileData 2 posData).map some

/-- {lit}`read_last_index_chunk` -/
def readLastIndexChunk (fileIndex fileData : List UInt8) : Except PulseError (Option IndexChunkInfo) :=
  let flen := fileIndex.length
  let entryLen := 16
  if flen < 2 then .error .panicked
  else
    let c1 := (flen - 2) / entryLen
    if c1 = 0 then .ok none
    else
      let p2 := 2 + (c1 - 1) * entryLen
      let buf := fileIndex.drop p2
      let n1 := buf.length
      if n1 < 16 then .ok none
      else
        let posData := ofBe (slice buf 8 16)
        (readIndexed fileData p2 posData).map some

/-- A read in the loop of {lit}`search_index_pulse`: the chunk that the entry at {lit}`m` points to.  Nothing reads the
position of an entry in the result there, which is left out. -/
def readEntryAt (fileIndex fileData : List UInt8) (m : ℕ) : Except PulseError ChunkInfo :=
  let buf3 := (fileIndex.drop m).take 16
  if buf3.length < 16 then .error .unexpectedEof
  else
    let posData := ofBe (slice buf3 8 16)
    readChunkAt fileData posData none

/-! ## Searching -/

/-- {lit}`search_pulse` -/
def searchPulse (pulse : ℕ) (file : List UInt8) : Except PulseError (Option ℕ) := do
  match ← readFirstChunk file with
  | some ck1 =>
      if ck1.pulse = pulse then return some ck1.ts
      else if pulse < ck1.pulse then return none
      else
        match ← readLastChunk file ck1.pos ck1.len with
        | some ck2 =>
            if ck2.pulse = pulse then return some ck2.ts
            else if ck2.pulse < pulse then return none
            else
              let z ← halve ck1.len .searchPulse (fun m => readChunkAt file m (some ck1.len)) ChunkInfo.pulse pulse
                ck1.pos ck2.pos
              return z.map ChunkInfo.ts
        | none => return none
  | none => return none

/-- {lit}`search_index_pulse` -/
def searchIndexPulse (pulse : ℕ) (fileIndex fileData : List UInt8) : Except PulseError (Option ℕ) := do
  match ← readFirstIndexChunk fileIndex fileData with
  | some ck1 =>
      if ck1.pulse = pulse then return some ck1.ts
      else if pulse < ck1.pulse then return none
      else
        match ← readLastIndexChunk fileIndex fileData with
        | some ck2 =>
            if ck2.pulse = pulse then return some ck2.ts
            else if ck2.pulse < pulse then return none
            else
              let z ← halve 16 .searchPulse (readEntryAt fileIndex fileData) ChunkInfo.pulse pulse ck1.posIndex
                ck2.posIndex
              return z.map ChunkInfo.ts
        | none => return none
  | none => return none

/-! ## Files -/

/-- A record of a data file: the fields at its begin, and what follows them.  Its length fits its field. -/
structure Record where
  ttl : UInt64
  ts : UInt64
  pulse : UInt64
  rest : List UInt8
  fits : 4 + 3 * 8 + rest.length < 2 ^ 32

namespace Record

/-- The length of a record, which is its first field -/
def len (r : Record) : ℕ := 4 + 3 * 8 + r.rest.length

def encode (r : Record) : List UInt8 :=
  beBytes 4 r.len ++ beBytes 8 r.ttl.toNat ++ beBytes 8 r.ts.toNat ++ beBytes 8 r.pulse.toNat ++ r.rest

/-- What is read from a record -/
def info (pos : ℕ) (r : Record) : ChunkInfo := ⟨pos, r.len, r.ts.toNat, r.pulse.toNat⟩

end Record

/-- The header of a data file: the version, its own length without the version, and what it holds -/
def fileHeader (desc : List UInt8) : List UInt8 := [0, 0] ++ beBytes 4 (4 + desc.length) ++ desc

/-- A data file, possibly with a part of one more record -/
def dataFile (desc : List UInt8) (recs : List Record) (tail : List UInt8) : List UInt8 :=
  fileHeader desc ++ recs.flatMap Record.encode ++ tail

/-- Where a record begins -/
def posOf (desc : List UInt8) (recs : List Record) (i : ℕ) : ℕ :=
  (fileHeader desc).length + ((recs.take i).flatMap Record.encode).length

/-- The entry of an index for a record and its place -/
def indexEntry (desc : List UInt8) (recs : List Record) (r : Record × ℕ) : List UInt8 :=
  beBytes 8 r.1.ts.toNat ++ beBytes 8 (posOf desc recs r.2)

/-- The index of a data file, with the timestamp and the position of each record, and possibly a part of one more
entry -/
def indexFile (desc : List UInt8) (recs : List Record) (tail : List UInt8) : List UInt8 :=
  [0, 0] ++ recs.zipIdx.flatMap (indexEntry desc recs) ++ tail

/-- The timestamp of the record with a pulse, if there is one -/
def tsOfPulse (recs : List Record) (pulse : ℕ) : Option ℕ :=
  (recs.find? fun r => r.pulse.toNat = pulse).map fun r => r.ts.toNat

/-! ## Records in a file -/

section Records

variable {desc tail rest bs : List UInt8} {recs : List Record} {r : Record} {i pos pulse : ℕ}

theorem length_encode (r : Record) : r.encode.length = r.len := by
  simp only [Record.encode, Record.len, List.length_append, length_beBytes]

theorem le_len (r : Record) : 28 ≤ r.len := Nat.le_add_right _ _

/-- The fields of a record are read back. -/
theorem chunkInfo_encode (pos : ℕ) (r : Record) (rest : List UInt8) :
    chunkInfo pos (r.encode ++ rest) = r.info pos := by
  have hfield : ∀ (as : List UInt8) n v bs, v < 256 ^ n →
      ofBe (slice (as ++ beBytes n v ++ bs) as.length (as.length + n)) = v := by
    intro as n v bs hlt
    rw [slice_middle rfl (by rw [length_beBytes]), ofBe_beBytes_of_lt hlt]
  have hlen := hfield [] 4 r.len
    (beBytes 8 r.ttl.toNat ++ beBytes 8 r.ts.toNat ++ beBytes 8 r.pulse.toNat ++ r.rest ++ rest) (by exact r.fits)
  have hts := hfield (beBytes 4 r.len ++ beBytes 8 r.ttl.toNat) 8 r.ts.toNat (beBytes 8 r.pulse.toNat ++ r.rest ++ rest)
    (by exact r.ts.toNat_lt)
  have hpulse := hfield (beBytes 4 r.len ++ beBytes 8 r.ttl.toNat ++ beBytes 8 r.ts.toNat) 8 r.pulse.toNat
    (r.rest ++ rest) (by exact r.pulse.toNat_lt)
  simp only [List.length_append, length_beBytes, List.append_assoc, List.nil_append, List.length_nil] at hlen hts hpulse
  simp only [chunkInfo, Record.info, Record.encode, List.append_assoc, hlen, hts, hpulse]

/-- At the position of a record there is the record. -/
theorem drop_posOf (desc tail : List UInt8) (hr : recs[i]? = some r) :
    ∃ rest, (dataFile desc recs tail).drop (posOf desc recs i) = r.encode ++ rest := by
  obtain ⟨hi, rfl⟩ := List.getElem?_eq_some_iff.mp hr
  have hsplit : dataFile desc recs tail = (fileHeader desc ++ (recs.take i).flatMap Record.encode) ++
      (recs[i].encode ++ ((recs.drop (i + 1)).flatMap Record.encode ++ tail)) := by
    have hrecs : recs = recs.take i ++ recs[i] :: recs.drop (i + 1) := by
      rw [← List.drop_eq_getElem_cons hi, List.take_append_drop]
    conv_lhs => rw [dataFile, hrecs]
    simp only [List.flatMap_append, List.flatMap_cons, List.append_assoc]
  rw [hsplit, posOf, ← List.length_append, List.drop_left]
  exact ⟨_, rfl⟩

theorem slice_take {n beg fin : ℕ} (hle : fin ≤ n) : slice (bs.take n) beg fin = slice bs beg fin := by
  rw [slice, List.take_take, min_eq_left hle, slice]

/-- The part of a record that a read gets is enough for its fields. -/
theorem chunkInfo_take {n : ℕ} (hn : 28 ≤ n) : chunkInfo pos (bs.take n) = chunkInfo pos bs := by
  simp only [chunkInfo, slice_take hn, slice_take (show 4 ≤ n by omega), slice_take (show 20 ≤ n by omega)]

/-- A record is read at its position. -/
theorem readChunkAt_dataFile (hr : recs[i]? = some r) {chunkLen : Option ℕ} (hlen : ∀ n ∈ chunkLen, r.len = n) :
    readChunkAt (dataFile desc recs tail) (posOf desc recs i) chunkLen = .ok (r.info (posOf desc recs i)) := by
  obtain ⟨rest, hdrop⟩ := drop_posOf desc tail hr
  have hn1 : ¬ ((r.encode ++ rest).take 1024).length < 4 + 3 * 8 := by
    have hle := le_len r
    rw [List.length_take, List.length_append, length_encode]
    omega
  simp only [readChunkAt, hdrop, if_neg hn1]
  rw [chunkInfo_take (by norm_num), chunkInfo_encode]
  cases chunkLen with
  | none => rfl
  | some n => exact if_neg (not_not.mpr (hlen n rfl))

@[simp]
theorem length_fileHeader (desc : List UInt8) : (fileHeader desc).length = 6 + desc.length := by
  simp only [fileHeader, List.length_append, length_beBytes, List.length_cons, List.length_nil]

/-- The version and the length in the header are read back. -/
theorem slices_fileHeader (hdesc : 4 + desc.length < 2 ^ 32) (rest : List UInt8) :
    ofBe (slice (fileHeader desc ++ rest) 0 2) = 0 ∧ ofBe (slice (fileHeader desc ++ rest) 2 6) = 4 + desc.length := by
  constructor
  · rfl
  · have hslice : slice (fileHeader desc ++ rest) 2 6 = beBytes 4 (4 + desc.length) := by
      rw [fileHeader, List.append_assoc]
      exact slice_middle rfl (by rw [length_beBytes]; rfl)
    rw [hslice, ofBe_beBytes_of_lt (by exact hdesc)]

theorem dataFile_eq : dataFile desc recs tail = fileHeader desc ++ (recs.flatMap Record.encode ++ tail) :=
  List.append_assoc _ _ _

/-- The first record is read behind the header. -/
theorem readFirstChunk_cons (hdesc : 4 + desc.length < 2 ^ 32) :
    readFirstChunk (dataFile desc (r :: recs) tail) = .ok (some (r.info (6 + desc.length))) := by
  obtain ⟨hver, hhlen⟩ := slices_fileHeader hdesc ((r :: recs).flatMap Record.encode ++ tail)
  have hlen : (dataFile desc (r :: recs) tail).length =
      6 + desc.length + (r.len + ((recs.flatMap Record.encode).length + tail.length)) := by
    simp only [dataFile_eq, List.length_append, length_fileHeader, List.flatMap_cons, length_encode, Nat.add_assoc]
  have hle := le_len r
  have hhead : (fileHeader desc).length = 2 + (4 + desc.length) := by
    rw [length_fileHeader]
    omega
  unfold readFirstChunk
  rw [← dataFile_eq] at hver hhlen
  simp only [hver, hhlen, hlen]
  rw [if_neg (by omega), if_neg (not_not.mpr rfl), if_neg (by omega), if_neg (by omega), dataFile_eq, ← hhead,
    List.drop_left, List.flatMap_cons, List.append_assoc, chunkInfo_encode, length_fileHeader]

/-- Without a record there is no first one, if there is not enough of it. -/
theorem readFirstChunk_nil (hdesc : 4 + desc.length < 2 ^ 32) (htail : tail.length < 28) :
    readFirstChunk (dataFile desc [] tail) = .ok none := by
  obtain ⟨hver, hhlen⟩ := slices_fileHeader hdesc tail
  have hfile : dataFile desc [] tail = fileHeader desc ++ tail := by
    rw [dataFile, List.flatMap_nil, List.append_nil]
  unfold readFirstChunk
  simp only [hfile, hver, hhlen, List.length_append, length_fileHeader]
  rw [if_neg (by omega), if_neg (not_not.mpr rfl), if_pos (by omega)]

/-- The fields of a record that is only started -/
theorem chunkInfo_prefix (htail : tail <+: r.encode) (hlong : 28 ≤ tail.length) :
    chunkInfo pos tail = r.info pos := by
  rw [List.prefix_iff_eq_take.mp htail, chunkInfo_take hlong, ← List.append_nil r.encode, chunkInfo_encode]

/-- They are read as those of the first record, if they are there. -/
theorem readFirstChunk_started (hdesc : 4 + desc.length < 2 ^ 32) (htail : tail <+: r.encode)
    (hlong : 28 ≤ tail.length) :
    readFirstChunk (dataFile desc [] tail) = .ok (some (r.info (6 + desc.length))) := by
  obtain ⟨hver, hhlen⟩ := slices_fileHeader hdesc tail
  have hfile : dataFile desc [] tail = fileHeader desc ++ tail := by
    rw [dataFile, List.flatMap_nil, List.append_nil]
  have hhead : (fileHeader desc).length = 2 + (4 + desc.length) := by
    rw [length_fileHeader]
    omega
  unfold readFirstChunk
  simp only [hfile, hver, hhlen, List.length_append, length_fileHeader]
  rw [if_neg (by omega), if_neg (not_not.mpr rfl), if_neg (by omega), if_neg (by omega), ← hhead, List.drop_left,
    length_fileHeader, chunkInfo_prefix htail hlong]

/-! ## Records of one length -/

variable {L : ℕ}

theorem length_flatMap_encode (hlen : ∀ r ∈ recs, r.len = L) :
    (recs.flatMap Record.encode).length = L * recs.length := by
  induction recs with
  | nil => rfl
  | cons r rs ih =>
      obtain ⟨hr, hrs⟩ := List.forall_mem_cons.mp hlen
      rw [List.flatMap_cons, List.length_append, length_encode, hr, ih hrs, List.length_cons]
      ring

theorem posOf_of_len (hlen : ∀ r ∈ recs, r.len = L) (hi : i ≤ recs.length) :
    posOf desc recs i = 6 + desc.length + L * i := by
  rw [posOf, length_fileHeader, length_flatMap_encode fun r hr => hlen r (List.mem_of_mem_take hr),
    List.length_take_of_le hi]

theorem readChunkAt_of_len (hlen : ∀ r ∈ recs, r.len = L) (hr : recs[i]? = some r) :
    readChunkAt (dataFile desc recs tail) (6 + desc.length + L * i) (some L) =
      .ok (r.info (6 + desc.length + L * i)) := by
  obtain ⟨hi, -⟩ := List.getElem?_eq_some_iff.mp hr
  rw [← posOf_of_len hlen hi.le]
  refine readChunkAt_dataFile hr ?_
  intro n hn
  rw [hlen r (List.mem_of_getElem? hr), Option.some.inj hn]

/-- The last record is the one before the part of one more. -/
theorem readLastChunk_dataFile (hlen : ∀ r ∈ recs, r.len = L) (htail : tail.length < L) (hi : i + 1 = recs.length)
    (hr : recs[i]? = some r) :
    readLastChunk (dataFile desc recs tail) (6 + desc.length) L = .ok (some (r.info (6 + desc.length + L * i))) := by
  have hflen : (dataFile desc recs tail).length = 6 + desc.length + (L * recs.length + tail.length) := by
    simp only [dataFile_eq, List.length_append, length_fileHeader, length_flatMap_encode hlen]
  have hc1 : (L * recs.length + tail.length) / L = recs.length := by
    rw [Nat.mul_add_div (by omega), Nat.div_eq_of_lt htail, Nat.add_zero]
  have hp2 : 6 + desc.length + (recs.length - 1) * L = 6 + desc.length + L * i := by
    rw [← hi, Nat.add_sub_cancel, mul_comm]
  have hrlen : r.len = L := hlen r (List.mem_of_getElem? hr)
  obtain ⟨rest, hdrop⟩ := drop_posOf desc tail hr
  rw [posOf_of_len hlen (by omega)] at hdrop
  have hn1 : ¬ (r.encode ++ rest).length < 4 + 3 * 8 := by
    have hle := le_len r
    rw [List.length_append, length_encode]
    omega
  unfold readLastChunk
  simp only [hflen, Nat.add_sub_cancel_left, hc1, hp2, hdrop, chunkInfo_encode]
  rw [if_neg (by omega), if_neg (by omega), if_neg hn1]
  exact if_neg (not_not.mpr hrlen)

end Records

/-! ## Entries in an index -/

section Entries

variable {desc tail itail : List UInt8} {recs : List Record} {r : Record} {i : ℕ}

theorem length_entries (desc : List UInt8) (recs : List Record) (xs : List (Record × ℕ)) :
    (xs.flatMap (indexEntry desc recs)).length = 16 * xs.length := by
  induction xs with
  | nil => rfl
  | cons x xs ih =>
      rw [List.flatMap_cons, List.length_append, ih, List.length_cons]
      simp only [indexEntry, List.length_append, length_beBytes]
      ring

theorem length_indexFile : (indexFile desc recs itail).length = 2 + 16 * recs.length + itail.length := by
  simp only [indexFile, List.length_append, length_entries, List.length_zipIdx, List.length_cons, List.length_nil]

/-- At the position of an entry there is the entry. -/
theorem drop_entry (desc itail : List UInt8) (hr : recs[i]? = some r) :
    ∃ rest, (indexFile desc recs itail).drop (2 + 16 * i) = indexEntry desc recs (r, i) ++ rest := by
  have hget : recs.zipIdx[i]? = some (r, i) := by
    rw [List.getElem?_zipIdx, hr, Option.map_some, Nat.zero_add]
  obtain ⟨hi, hat⟩ := List.getElem?_eq_some_iff.mp hget
  have hsplit : indexFile desc recs itail = ([0, 0] ++ (recs.zipIdx.take i).flatMap (indexEntry desc recs)) ++
      (indexEntry desc recs (r, i) ++ ((recs.zipIdx.drop (i + 1)).flatMap (indexEntry desc recs) ++ itail)) := by
    have hrecs : recs.zipIdx = recs.zipIdx.take i ++ (r, i) :: recs.zipIdx.drop (i + 1) := by
      rw [← hat, ← List.drop_eq_getElem_cons hi, List.take_append_drop]
    conv_lhs => rw [indexFile, hrecs]
    simp only [List.flatMap_append, List.flatMap_cons, List.append_assoc]
  have hlen : ([0, 0] ++ (recs.zipIdx.take i).flatMap (indexEntry desc recs)).length = 2 + 16 * i := by
    rw [List.length_append, length_entries, List.length_take_of_le hi.le]
    rfl
  rw [hsplit, ← hlen, List.drop_left]
  exact ⟨_, rfl⟩

theorem posOf_lt (hsize : (dataFile desc recs tail).length < 2 ^ 64) : posOf desc recs i < 2 ^ 64 := by
  refine lt_of_le_of_lt ?_ hsize
  rw [dataFile_eq, posOf, List.length_append, List.length_append]
  have hle : ((recs.take i).flatMap Record.encode).length ≤ (recs.flatMap Record.encode).length := by
    conv_rhs => rw [← List.take_append_drop i recs, List.flatMap_append, List.length_append]
    exact Nat.le_add_right _ _
  omega

/-- The position in an entry is read back. -/
theorem posData_of_entry (hsize : (dataFile desc recs tail).length < 2 ^ 64) (rest : List UInt8) :
    ofBe (slice (indexEntry desc recs (r, i) ++ rest) 8 16) = posOf desc recs i := by
  have hslice : slice (indexEntry desc recs (r, i) ++ rest) 8 16 = beBytes 8 (posOf desc recs i) := by
    refine slice_middle ?_ ?_
    · rw [length_beBytes]
    · rw [length_beBytes, length_beBytes]
  rw [hslice, ofBe_beBytes_of_lt (by exact posOf_lt hsize)]

theorem length_indexEntry (x : Record × ℕ) : (indexEntry desc recs x).length = 16 := by
  rw [indexEntry, List.length_append, length_beBytes, length_beBytes]

/-- An entry is read at its position. -/
theorem readEntryAt_indexFile (hsize : (dataFile desc recs tail).length < 2 ^ 64) (hr : recs[i]? = some r) :
    readEntryAt (indexFile desc recs itail) (dataFile desc recs tail) (2 + 16 * i) =
      .ok (r.info (posOf desc recs i)) := by
  obtain ⟨rest, hdrop⟩ := drop_entry desc itail hr
  have htake : (indexEntry desc recs (r, i) ++ rest).take 16 = indexEntry desc recs (r, i) :=
    List.take_left' (length_indexEntry (r, i))
  have hpos := posData_of_entry (i := i) (r := r) hsize []
  rw [List.append_nil] at hpos
  unfold readEntryAt
  simp only [hdrop, htake, length_indexEntry, lt_self_iff_false, if_false, hpos]
  exact readChunkAt_dataFile hr nofun

/-- The chunk of an entry, with its position in the index -/
def Record.indexed (posIndex pos : ℕ) (r : Record) : IndexChunkInfo := ⟨posIndex, pos, r.len, r.ts.toNat, r.pulse.toNat⟩

theorem readIndexed_dataFile {posIndex : ℕ} (hr : recs[i]? = some r) :
    readIndexed (dataFile desc recs tail) posIndex (posOf desc recs i) =
      .ok (r.indexed posIndex (posOf desc recs i)) := by
  have hnone : ∀ n ∈ (none : Option ℕ), r.len = n := nofun
  rw [readIndexed, readChunkAt_dataFile hr hnone]
  rfl

theorem readFirstIndexChunk_cons (hsize : (dataFile desc (r :: recs) tail).length < 2 ^ 64) :
    readFirstIndexChunk (indexFile desc (r :: recs) itail) (dataFile desc (r :: recs) tail) =
      .ok (some (r.indexed 2 (posOf desc (r :: recs) 0))) := by
  obtain ⟨rest, hdrop⟩ := drop_entry desc itail (List.getElem?_cons_zero (a := r) (l := recs))
  have hfile : indexFile desc (r :: recs) itail = [0, 0] ++ (indexEntry desc (r :: recs) (r, 0) ++ rest) := by
    rw [← hdrop]
    rfl
  have hpos : ofBe (slice (indexFile desc (r :: recs) itail) 10 18) = posOf desc (r :: recs) 0 := by
    rw [← posData_of_entry hsize rest (r := r), hfile, slice, slice]
    rfl
  have hlen : ¬ (indexFile desc (r :: recs) itail).length < 18 := by
    rw [length_indexFile, List.length_cons]
    omega
  have hver : ofBe (slice (indexFile desc (r :: recs) itail) 0 2) = 0 := rfl
  unfold readFirstIndexChunk
  simp only [if_neg hlen, hver, hpos]
  rw [if_neg (not_not.mpr rfl), readIndexed_dataFile List.getElem?_cons_zero]
  rfl

theorem readFirstIndexChunk_nil (hitail : itail.length < 16) :
    readFirstIndexChunk (indexFile desc [] itail) (dataFile desc [] tail) = .ok none := by
  have hlen : (indexFile desc [] itail).length < 18 := by
    rw [length_indexFile, List.length_nil]
    omega
  unfold readFirstIndexChunk
  simp only [if_pos hlen]

theorem readLastIndexChunk_dataFile (hsize : (dataFile desc recs tail).length < 2 ^ 64) (hitail : itail.length < 16)
    (hi : i + 1 = recs.length) (hr : recs[i]? = some r) :
    readLastIndexChunk (indexFile desc recs itail) (dataFile desc recs tail) =
      .ok (some (r.indexed (2 + 16 * i) (posOf desc recs i))) := by
  obtain ⟨rest, hdrop⟩ := drop_entry desc itail hr
  have hc1 : (2 + 16 * recs.length + itail.length - 2) / 16 = i + 1 := by omega
  have hp2 : 2 + (i + 1 - 1) * 16 = 2 + 16 * i := by omega
  have hn1 : ¬ (indexEntry desc recs (r, i) ++ rest).length < 16 := by
    rw [List.length_append, length_indexEntry]
    omega
  unfold readLastIndexChunk
  simp only [length_indexFile, hc1, hp2, hdrop, posData_of_entry hsize, if_neg hn1]
  rw [if_neg (by omega), if_neg (by omega), readIndexed_dataFile hr]
  rfl

end Entries

/-! ## Searches -/

section Searches

variable {desc tail itail : List UInt8} {recs : List Record} {r : Record} {pulse i : ℕ}

/-- What is read of the records, each at its position -/
def infos (pos : ℕ → ℕ) (recs : List Record) : List ChunkInfo := recs.zipIdx.map fun r => r.1.info (pos r.2)

theorem getElem?_infos (pos : ℕ → ℕ) : (infos pos recs)[i]? = recs[i]?.map (Record.info (pos i)) := by
  rw [infos, List.getElem?_map, List.getElem?_zipIdx, Option.map_map, Nat.zero_add]
  rfl

/-- The pulses of the records increase. -/
def PulsesIncrease (recs : List Record) : Prop := StrictlySortedBy (fun r : Record => r.pulse.toNat) recs

theorem sorted_infos (hsorted : PulsesIncrease recs) (pos : ℕ → ℕ) :
    StrictlySortedBy ChunkInfo.pulse (infos pos recs) := by
  have hzip : (recs.zipIdx.map Prod.fst).Pairwise fun a b => a.pulse.toNat < b.pulse.toNat := by
    rwa [List.zipIdx_map_fst]
  have hpairs := List.pairwise_map.mp hzip
  exact List.pairwise_map.mpr hpairs

/-- What is found among what is read has the timestamp of the record. -/
theorem map_find?_infos (pos : ℕ → ℕ) (recs : List Record) (pulse : ℕ) :
    ((infos pos recs).find? fun c => c.pulse = pulse).map ChunkInfo.ts = tsOfPulse recs pulse := by
  have hrecs : recs.find? (fun r => r.pulse.toNat = pulse) =
      (recs.zipIdx.find? fun r => r.1.pulse.toNat = pulse).map Prod.fst := by
    conv_lhs => rw [← List.zipIdx_map_fst 0 recs]
    rw [List.find?_map]
    rfl
  rw [infos, List.find?_map, tsOfPulse, hrecs, Option.map_map, Option.map_map]
  rfl

theorem tsOfPulse_of_mem (hsorted : PulsesIncrease recs) (hr : r ∈ recs) (hpulse : r.pulse.toNat = pulse) :
    tsOfPulse recs pulse = some r.ts.toNat := by
  rw [tsOfPulse, find?_of_mem hsorted hr hpulse, Option.map_some]

theorem tsOfPulse_eq_none (h : ∀ r ∈ recs, r.pulse.toNat ≠ pulse) : tsOfPulse recs pulse = none := by
  rw [tsOfPulse, Option.map_eq_none_iff, List.find?_eq_none]
  intro r hr
  simpa using h r hr

/-- No record is before the first one. -/
theorem tsOfPulse_of_lt_first (hsorted : PulsesIncrease (r :: recs)) (hlt : pulse < r.pulse.toNat) :
    tsOfPulse (r :: recs) pulse = none := by
  apply tsOfPulse_eq_none
  intro r' hr'
  exact (hlt.trans_le (hsorted.sorted.head_le hr')).ne'

/-- No record is behind the last one. -/
theorem tsOfPulse_of_last_lt (hsorted : PulsesIncrease recs) (hi : i + 1 = recs.length) (hr : recs[i]? = some r)
    (hlt : r.pulse.toNat < pulse) : tsOfPulse recs pulse = none := by
  apply tsOfPulse_eq_none
  intro r' hr'
  obtain ⟨j, hj⟩ := List.mem_iff_getElem?.mp hr'
  obtain ⟨hjlt, -⟩ := List.getElem?_eq_some_iff.mp hj
  obtain rfl | hji := (show j ≤ i by omega).eq_or_lt
  · obtain rfl := Option.some.inj (hj.symm.trans hr)
    exact hlt.ne
  · exact ((hsorted.lt_of_lt hji hj hr).trans hlt).ne

/-- Halving the positions of the records finds the timestamp. -/
theorem halve_infos {step : ℕ} (base : ℕ) (read : ℕ → Except PulseError ChunkInfo) (pos : ℕ → ℕ) {first last : Record}
    (hstep : 0 < step) (hsorted : PulsesIncrease recs)
    (hread : ∀ i r, recs[i]? = some r → read (base + step * i) = .ok (r.info (pos i))) (hfirst : recs[0]? = some first)
    (hlast : recs[i]? = some last) (hbelow : first.pulse.toNat < pulse) (habove : pulse < last.pulse.toNat) :
    (halve step PulseError.searchPulse read ChunkInfo.pulse pulse base (base + step * i)).map
      (Option.map ChunkInfo.ts) = .ok (tsOfPulse recs pulse) := by
  have hpos : 0 < i := by
    by_contra hzero
    obtain rfl := Nat.eq_zero_of_not_pos hzero
    obtain rfl := Option.some.inj (hfirst.symm.trans hlast)
    omega
  have hread' : ∀ i c, (infos pos recs)[i]? = some c → read (base + step * i) = .ok c := by
    intro i c hc
    rw [getElem?_infos, Option.map_eq_some_iff] at hc
    obtain ⟨r, hr, rfl⟩ := hc
    exact hread i r hr
  have hat : ∀ (i : ℕ) (r : Record), recs[i]? = some r → (infos pos recs)[i]? = some (r.info (pos i)) := by
    intro i r hr
    rw [getElem?_infos, hr, Option.map_some]
  have hhalve : halve step PulseError.searchPulse read ChunkInfo.pulse pulse (base + step * 0) (base + step * i) =
      .ok ((infos pos recs).find? fun c => c.pulse = pulse) :=
    halve_eq hstep (sorted_infos hsorted pos) hread' hpos (hat 0 first hfirst) (hat i last hlast) hbelow habove
  rw [Nat.mul_zero, Nat.add_zero] at hhalve
  rw [hhalve, ← map_find?_infos pos]
  rfl

/-- The searches compare the pulse to that of the first and of the last record before they halve. -/
theorem search_ends {first last : Record} {x : Except PulseError (Option ℕ)} (hsorted : PulsesIncrease (first :: recs))
    (hlast : (first :: recs)[recs.length]? = some last)
    (hbetween : first.pulse.toNat < pulse → pulse < last.pulse.toNat → x = .ok (tsOfPulse (first :: recs) pulse)) :
    (if first.pulse.toNat = pulse then .ok (some first.ts.toNat)
      else if pulse < first.pulse.toNat then .ok none
      else if last.pulse.toNat = pulse then .ok (some last.ts.toNat)
      else if last.pulse.toNat < pulse then .ok none
      else x) = .ok (tsOfPulse (first :: recs) pulse) := by
  by_cases heq : first.pulse.toNat = pulse
  · rw [if_pos heq, tsOfPulse_of_mem hsorted List.mem_cons_self heq]
  by_cases hlt : pulse < first.pulse.toNat
  · rw [if_neg heq, if_pos hlt, tsOfPulse_of_lt_first hsorted hlt]
  by_cases heq' : last.pulse.toNat = pulse
  · rw [if_neg heq, if_neg hlt, if_pos heq', tsOfPulse_of_mem hsorted (List.mem_of_getElem? hlast) heq']
  by_cases hlt' : last.pulse.toNat < pulse
  · rw [if_neg heq, if_neg hlt, if_neg heq', if_pos hlt', tsOfPulse_of_last_lt hsorted rfl hlast hlt']
  · rw [if_neg heq, if_neg hlt, if_neg heq', if_neg hlt']
    exact hbetween (lt_of_le_of_ne (not_lt.mp hlt) heq) (lt_of_le_of_ne (not_lt.mp hlt') (Ne.symm heq'))

end Searches

/-- For every data file with records of one length and increasing pulses, possibly with a part of one more record, which
is not the first one, or too short for its fields: the search ends and gives the timestamp of the record with the pulse,
if there is one. -/
theorem searchPulse_dataFile {desc tail : List UInt8} {recs : List Record} {L : ℕ} (pulse : ℕ)
    (hdesc : 4 + desc.length < 2 ^ 32) (hlen : ∀ r ∈ recs, r.len = L) (hsorted : PulsesIncrease recs)
    (htail : tail.length < L) (hbegun : recs ≠ [] ∨ tail.length < 28) :
    searchPulse pulse (dataFile desc recs tail) = .ok (tsOfPulse recs pulse) := by
  cases recs with
  | nil =>
      rw [searchPulse, readFirstChunk_nil hdesc (hbegun.resolve_left (not_not_intro rfl))]
      rfl
  | cons r rs =>
      have hi : rs.length + 1 = (r :: rs).length := List.length_cons.symm
      have hfirst : (r :: rs)[0]? = some r := rfl
      have hlast : (r :: rs)[rs.length]? = some (r :: rs)[rs.length] := List.getElem?_eq_getElem (by simp)
      generalize (r :: rs)[rs.length] = last at hlast
      obtain rfl : r.len = L := hlen r List.mem_cons_self
      have hreadLast : readLastChunk (dataFile desc (r :: rs) tail) (6 + desc.length) r.len =
          .ok (some (last.info (6 + desc.length + r.len * rs.length))) := readLastChunk_dataFile hlen htail hi hlast
      have hread : ∀ i r', (r :: rs)[i]? = some r' →
          readChunkAt (dataFile desc (r :: rs) tail) (6 + desc.length + r.len * i) (some r.len) =
            .ok (r'.info (6 + desc.length + r.len * i)) := fun i r' hr' => readChunkAt_of_len hlen hr'
      unfold searchPulse
      rw [readFirstChunk_cons hdesc]
      simp only [bind, Except.bind, pure, Except.pure, hreadLast, Record.info]
      refine search_ends hsorted hlast fun hbelow habove => ?_
      have hhalve := halve_infos (6 + desc.length) (fun m => readChunkAt (dataFile desc (r :: rs) tail) m (some r.len))
        (fun i => 6 + desc.length + r.len * i) (Nat.zero_lt_of_lt htail) hsorted hread hfirst hlast hbelow habove
      rw [← hhalve]
      generalize halve r.len PulseError.searchPulse _ ChunkInfo.pulse pulse _ _ = res
      cases res <;> rfl

/-- Where the fields of the first record are there, but not all of it, the search gives the timestamp of this record. -/
theorem searchPulse_started {desc tail : List UInt8} {r : Record} (pulse : ℕ) (hdesc : 4 + desc.length < 2 ^ 32)
    (htail : tail <+: r.encode) (hpart : tail.length < r.len) (hlong : 28 ≤ tail.length) :
    searchPulse pulse (dataFile desc [] tail) = .ok (if r.pulse.toNat = pulse then some r.ts.toNat else none) := by
  have hlast : readLastChunk (dataFile desc [] tail) (6 + desc.length) r.len = .ok none := by
    have hlen : (dataFile desc [] tail).length = 6 + desc.length + tail.length := by
      simp only [dataFile_eq, List.length_append, length_fileHeader, List.flatMap_nil, List.nil_append]
    unfold readLastChunk
    simp only [hlen, Nat.add_sub_cancel_left, Nat.div_eq_of_lt hpart]
    rw [if_neg (by omega)]
    exact if_pos trivial
  unfold searchPulse
  rw [readFirstChunk_started hdesc htail hlong]
  simp only [bind, Except.bind, pure, Except.pure, Record.info, hlast]
  split_ifs <;> rfl

/-- For every data file with records of one length and increasing pulses, possibly with a part of one more record: the
search gives the timestamp of the record with the pulse, if there is one, exactly if there is a complete record, or if
the fields of the first one are not there or have another pulse. -/
theorem searchPulse_iff {desc tail : List UInt8} {recs : List Record} {L : ℕ} (pulse : ℕ)
    (hdesc : 4 + desc.length < 2 ^ 32) (hlen : ∀ r ∈ recs, r.len = L) (hsorted : PulsesIncrease recs)
    (htail : tail.length < L) (hpart : recs = [] → ∃ r : Record, r.len = L ∧ tail <+: r.encode) :
    searchPulse pulse (dataFile desc recs tail) = .ok (tsOfPulse recs pulse) ↔
      recs ≠ [] ∨ tail.length < 28 ∨ ofBe (slice tail 20 28) ≠ pulse := by
  by_cases hbegun : recs ≠ [] ∨ tail.length < 28
  · refine iff_of_true (searchPulse_dataFile pulse hdesc hlen hsorted htail hbegun) ?_
    exact hbegun.imp_right Or.inl
  · obtain ⟨hrecs, hlong⟩ := not_or.mp hbegun
    obtain rfl := not_not.mp hrecs
    obtain ⟨r, hr, hprefix⟩ := hpart rfl
    have hinfo : chunkInfo 0 tail = r.info 0 := chunkInfo_prefix hprefix (not_lt.mp hlong)
    have hpulse : ofBe (slice tail 20 28) = r.pulse.toNat := congrArg ChunkInfo.pulse hinfo
    rw [searchPulse_started pulse hdesc hprefix (hr ▸ htail) (not_lt.mp hlong), hpulse, or_iff_right hrecs,
      or_iff_right hlong]
    by_cases heq : r.pulse.toNat = pulse
    · rw [if_pos heq]
      exact iff_of_false (by rintro ⟨⟩) (not_not_intro heq)
    · rw [if_neg heq]
      exact iff_of_true rfl heq

/-- For every data file with increasing pulses and its index, possibly with a part of one more record and of one more
entry: the search ends and gives the timestamp of the record with the pulse, if there is one. -/
theorem searchIndexPulse_dataFile {desc tail itail : List UInt8} {recs : List Record} (pulse : ℕ)
    (hsorted : PulsesIncrease recs) (hsize : (dataFile desc recs tail).length < 2 ^ 64) (hitail : itail.length < 16) :
    searchIndexPulse pulse (indexFile desc recs itail) (dataFile desc recs tail) = .ok (tsOfPulse recs pulse) := by
  cases recs with
  | nil =>
      rw [searchIndexPulse, readFirstIndexChunk_nil hitail]
      rfl
  | cons r rs =>
      have hi : rs.length + 1 = (r :: rs).length := List.length_cons.symm
      have hfirst : (r :: rs)[0]? = some r := rfl
      have hlast : (r :: rs)[rs.length]? = some (r :: rs)[rs.length] := List.getElem?_eq_getElem (by simp)
      generalize (r :: rs)[rs.length] = last at hlast
      have hread : ∀ i r', (r :: rs)[i]? = some r' →
          readEntryAt (indexFile desc (r :: rs) itail) (dataFile desc (r :: rs) tail) (2 + 16 * i) =
            .ok (r'.info (posOf desc (r :: rs) i)) := fun i r' hr' => readEntryAt_indexFile hsize hr'
      unfold searchIndexPulse
      rw [readFirstIndexChunk_cons hsize]
      simp only [bind, Except.bind, pure, Except.pure, readLastIndexChunk_dataFile hsize hitail hi hlast,
        Record.indexed]
      refine search_ends hsorted hlast fun hbelow habove => ?_
      have hhalve := halve_infos 2 (readEntryAt (indexFile desc (r :: rs) itail) (dataFile desc (r :: rs) tail))
        (posOf desc (r :: rs)) (by norm_num) hsorted hread hfirst hlast hbelow habove
      rw [← hhalve]
      generalize halve 16 PulseError.searchPulse _ ChunkInfo.pulse pulse _ _ = res
      cases res <;> rfl

/-- The search in a data file of records of one length ends and gives the timestamp of the record with the pulse, and
none without one, exactly if there is a complete record, or if the fields of the first one are not there or have another
pulse.  The search in the index of a data file always does. -/
theorem pulse_lookup_iff (pulse : ℕ) :
    (∀ (desc tail : List UInt8) (recs : List Record) (L : ℕ), 4 + desc.length < 2 ^ 32 → (∀ r ∈ recs, r.len = L) →
      PulsesIncrease recs → tail.length < L → (recs = [] → ∃ r : Record, r.len = L ∧ tail <+: r.encode) →
        (searchPulse pulse (dataFile desc recs tail) = .ok (tsOfPulse recs pulse) ↔
          recs ≠ [] ∨ tail.length < 28 ∨ ofBe (slice tail 20 28) ≠ pulse)) ∧
    ∀ (desc tail itail : List UInt8) (recs : List Record), PulsesIncrease recs →
      (dataFile desc recs tail).length < 2 ^ 64 → itail.length < 16 →
        searchIndexPulse pulse (indexFile desc recs itail) (dataFile desc recs tail) = .ok (tsOfPulse recs pulse) :=
  ⟨fun _ _ _ _ hdesc hlen hsorted htail hpart => searchPulse_iff pulse hdesc hlen hsorted htail hpart,
    fun _ _ _ _ hsorted hsize hitail => searchIndexPulse_dataFile pulse hsorted hsize hitail⟩

/-- Three records without anything behind their fields -/
def threeRecords : List Record :=
  [⟨0, 10, 5, [], by decide⟩, ⟨0, 20, 7, [], by decide⟩, ⟨0, 30, 8, [], by decide⟩]

/-- The middle one of three records -/
theorem pulse_lookup_three :
    searchPulse 7 (dataFile [] threeRecords [0]) = .ok (tsOfPulse threeRecords 7) ∧
      searchIndexPulse 7 (indexFile [] threeRecords [0]) (dataFile [] threeRecords []) =
        .ok (tsOfPulse threeRecords 7) := by
  have hsorted : PulsesIncrease threeRecords := by
    simp [PulsesIncrease, StrictlySortedBy, threeRecords]
  constructor
  · refine ((pulse_lookup_iff 7).1 [] [0] threeRecords 28 (by decide) (by decide) hsorted (by decide) ?_).mpr ?_
    · rintro ⟨⟩
    · exact .inl (by rintro ⟨⟩)
  · exact (pulse_lookup_iff 7).2 [] [] [0] threeRecords hsorted (by decide) (by decide)

/-- A record with a byte behind its fields -/
def longRecord : Record := ⟨0, 4711, 7, [1], by decide⟩

/-- The first record of a file is found before it is complete. -/
theorem not_pulse_lookup :
    searchPulse 7 (dataFile [] [] (longRecord.encode.take 28)) ≠ .ok (tsOfPulse [] 7) := by
  have hlen : (longRecord.encode.take 28).length = 28 := by decide
  rw [searchPulse_started 7 (by decide) (List.take_prefix 28 longRecord.encode) (hlen.trans_lt (by decide)) hlen.ge]
  rintro ⟨⟩

end Httpret
end Daqbuf
