import Daqbuf.Poll.Loop
import Daqbuf.Scylla.PartMerge
/-!
# Reading Partitions Forwards

{lit}`LspFwdMspMulti` merges the partitions of a series.  It reads ahead: the times of the next partitions go into a
reserve, and of the first of these the pages go into the buffers of streams that are opened before they are needed.

All queries are answered at once.  The loops of the source give up with an error after a fixed number of rounds.

Main results:

- Theorem {lit}`pollAllInp_spec`: polling the inputs takes few rounds.
- Theorem {lit}`checkInputs_spec`: what is handed out is what the merge of the partitions chooses.
-/

namespace Daqbuf
namespace Scylla
namespace LspFwdMspMulti

open Items Poll Search
open Items.Merger (Tslows)
open PartMerge (pageLen)

/-- The errors of {lit}`lsp_fwd_msp_multi` that its own code makes; an {lit}`unwrap` that fails is one of them. -/
inductive Error where
  | findNextTsWithoutBuf
  | findNextTsOnEmptyBuf
  | loopTooMany
  | logic
  | panicked
  deriving DecidableEq, Repr

/-- {lit}`Opts` -/
structure Opts where
  mspLimit : ℕ
  lspLimit : ℕ
  mspReserveMin : ℕ
  mspPreopenMin : ℕ
  lspSingleBufMax : ℕ
  deriving DecidableEq, Repr

variable {V : Type}

/-! ## The streams -/

/-- {lit}`ReadMspFwdStream`: the times of partitions that it has not read, unless it has ended -/
abbrev MspStream := Option (List ℕ)

/-- The limit that {lit}`ReadMspFwdStream` takes for a page -/
def mspPageLen (limit : ℕ) : ℕ := min (max limit 1) 40

/-- {lit}`poll_next` of {lit}`ReadMspFwdStream`; it ends behind a page that is not full. -/
def pollMsps (o : Opts) : MspStream → Option (List ℕ × MspStream)
  | none => none
  | some left =>
      let page := left.take (mspPageLen o.mspLimit)
      let next := if page.length < mspPageLen o.mspLimit then none else some (left.drop (mspPageLen o.mspLimit))
      some (page, next)

/-- An item of a stream of events, which is an entry for the log or has events -/
inductive Item (V : Type) where
  | log
  | data (evs : List (EventSingle V))
  deriving DecidableEq, Repr

/-- {lit}`LspFwdMspSingleStream`: what is in its buffer, and the events of the partition that it has not read -/
structure Single (V : Type) where
  outbuf : List (Item V)
  rest : List (EventSingle V)
  deriving DecidableEq, Repr

namespace Single

/-- {lit}`poll_to_buffer`: a page goes into the buffer, with an entry for the log. -/
def pollToBuffer (o : Opts) (s : Single V) : Option (Single V) :=
  if s.outbuf.length < o.lspSingleBufMax ∧ s.rest ≠ [] then
    some ⟨s.outbuf ++ [.log, .data (s.rest.take (pageLen o.lspLimit))], s.rest.drop (pageLen o.lspLimit)⟩
  else none

/-- {lit}`poll_next` -/
def pollNext (o : Opts) (s : Single V) : Option (Item V × Single V) :=
  match s.outbuf with
  | x :: outbuf => some (x, ⟨outbuf, s.rest⟩)
  | [] =>
      match s.pollToBuffer o with
      | some ⟨x :: outbuf, rest⟩ => some (x, ⟨outbuf, rest⟩)
      | _ => none

end Single

/-! ## Polling the inputs -/

/-- {lit}`Inp` -/
structure Inp (V : Type) where
  evs : Option (Single V)
  buf : Option (List (EventSingle V))
  deriving DecidableEq, Repr

/-- The body of the loop over the inputs: the input, whether a log item ends the loop, and whether there is progress -/
def pollInp (o : Opts) (inp : Inp V) : Inp V × Bool × Bool :=
  match inp.buf with
  | some [] => ({ inp with buf := none }, false, true)
  | some (_ :: _) => (inp, false, false)
  | none =>
      match inp.evs with
      | none => (inp, false, false)
      | some s =>
          match s.pollNext o with
          | none => ({ inp with evs := none }, false, true)
          | some (.log, s) => ({ inp with evs := some s }, true, true)
          | some (.data [], s) => ({ inp with evs := some s }, false, true)
          | some (.data (ev :: evs), s) => (⟨some s, some (ev :: evs)⟩, false, true)

/-- The loop over the inputs -/
def pollInps (o : Opts) : List (Inp V) → List (Inp V) × Bool × Bool
  | [] => ([], false, false)
  | inp :: inps =>
      match pollInp o inp with
      | (inp, true, progress) => (inp :: inps, true, progress)
      | (inp, false, progress) =>
          let x := pollInps o inps
          (inp :: x.1, x.2.1, progress || x.2.2)

/-- Whether an input stays in the list -/
def retained (inp : Inp V) : Bool := inp.buf.isSome || inp.evs.isSome

/-- What {lit}`poll_all_inp` returns -/
inductive Polled where
  | ready
  | log
  | failed (e : Error)
  | ended
  deriving DecidableEq, Repr

/-- {lit}`poll_all_inp`, with the number of rounds that are left -/
def pollAllInp (o : Opts) : ℕ → List (Inp V) → Polled × List (Inp V)
  | 0, inps => (.failed .loopTooMany, inps)
  | n + 1, inps =>
      match pollInps o inps with
      | (inps, true, _) => (.log, inps)
      | (inps, false, progress) =>
          let kept := inps.filter retained
          if progress || decide (inps.length ≠ kept.length) then pollAllInp o n kept
          else if (kept.filter fun inp => inp.buf.isNone).length = 0 then (.ready, kept)
          else (.ended, kept)

/-! ## Choosing events -/

/-- The loop of {lit}`find_next_ts` -/
def findNextTsFrom : List (Inp V) → ℕ → Tslows → Except Error Tslows
  | [], _, tslows => .ok tslows
  | inp :: inps, ix, tslows =>
      match inp.buf with
      | none => .error .findNextTsWithoutBuf
      | some [] => .error .findNextTsOnEmptyBuf
      | some (ev :: _) => findNextTsFrom inps (ix + 1) (tslows.insert ix ev.ts)

/-- What {lit}`check_inputs` returns; the first two are {lit}`CheckInputItem`. -/
inductive Checked (V : Type) where
  | openNextMsp
  | item (evs : List (EventSingle V))
  | log
  | failed (e : Error)
  | ended
  deriving DecidableEq, Repr

/-- Sets the buffer of an input -/
def setBuf (inps : List (Inp V)) (ix : ℕ) (buf : Option (List (EventSingle V))) : List (Inp V) :=
  inps.modify ix fun inp => { inp with buf := buf }

/-- There is a next partition, and it begins at the time or before it. -/
def opensNext (mspNext : Option ℕ) (ts : ℕ) : Bool := mspNext.any fun msp => decide (msp * 1000000 ≤ ts)

/-- The events that {lit}`check_inputs` takes from the input with the lowest timestamp -/
def drain (mspNext : Option ℕ) (inps : List (Inp V)) (ix1 : ℕ) (b2 : List (EventSingle V)) :
    Option (ℕ × ℕ) → Checked V × List (Inp V)
  | none =>
      match b2.getLast? with
      | none => (.failed .panicked, inps)
      | some ev =>
          if opensNext mspNext ev.ts then (.openNextMsp, inps)
          else (.item b2, setBuf inps ix1 none)
  | some (_, ts2) =>
      if opensNext mspNext ts2 then (.openNextMsp, inps)
      else
        let i3 := partitionPoint (fun ev => decide (ev.ts ≤ ts2)) b2
        if b2.length = (b2.drop i3).length then (.failed .logic, setBuf inps ix1 (some (b2.drop i3)))
        else (.item (b2.take i3), setBuf inps ix1 (some (b2.drop i3)))

/-- {lit}`check_inputs`, with the number of rounds that are left -/
def checkInputs (o : Opts) (mspNext : Option ℕ) : ℕ → List (Inp V) → Checked V × List (Inp V)
  | 0, inps => (.failed .loopTooMany, inps)
  | n + 1, inps =>
      match pollAllInp o 200 inps with
      | (.log, inps) => (.log, inps)
      | (.failed e, inps) => (.failed e, inps)
      | (.ended, inps) => (.ended, inps)
      | (.ready, inps) =>
          match findNextTsFrom inps 0 (none, none) with
          | .error e => (.failed e, inps)
          | .ok (none, _) =>
              if inps.length = 0 then (.openNextMsp, inps)
              else checkInputs o mspNext n []
          | .ok (some (ix1, _), second) =>
              match inps[ix1]?.bind Inp.buf with
              | none => (.failed .panicked, inps)
              | some b2 => drain mspNext inps ix1 b2 second

/-! ## Reading ahead -/

/-- {lit}`Merging`: the stream of partition times, the times in reserve, the streams that are opened, and the inputs -/
structure Merging (V : Type) where
  msps : Option MspStream
  mspbufRe : List ℕ
  mspbufPo : List (ℕ × Single V)
  inps : List (Inp V)
  deriving DecidableEq, Repr

namespace Merging

/-- The next partition for {lit}`check_inputs`, or none if there is no further one; it is not known while partitions
are still to be opened. -/
def mspNext (s : Merging V) : Option (Option ℕ) :=
  match s.mspbufPo with
  | m :: _ => some (some m.1)
  | [] =>
      if s.msps.isSome then none
      else if s.mspbufRe.length ≠ 0 then none
      else some none

/-- {lit}`poll_state_2`.  Where its loop makes progress it is left, so that it never gives up. -/
def pollState2 (o : Opts) (s : Merging V) : Option (Except Error (Item V)) × Merging V :=
  match s.mspNext with
  | none => (none, s)
  | some mspNext =>
      match checkInputs o mspNext 200 s.inps with
      | (.openNextMsp, inps) =>
          match s.mspbufPo with
          | (_, inp) :: po => (some (.ok .log), { s with mspbufPo := po, inps := inps ++ [⟨some inp, none⟩] })
          | [] => (none, { s with inps := inps })
      | (.item evs, inps) => (some (.ok (.data evs)), { s with inps := inps })
      | (.log, inps) => (some (.ok .log), { s with inps := inps })
      | (.failed e, inps) => (some (.error e), { s with inps := inps })
      | (.ended, inps) => (none, { s with inps := inps })

/-- The reserve is filled, by one page. -/
def reserve (o : Opts) (s : Merging V) : Bool × Merging V :=
  if s.mspbufRe.length < o.mspReserveMin then
    match s.msps with
    | none => (false, s)
    | some inp =>
        match pollMsps o inp with
        | some (page, inp) => (true, { s with msps := some inp, mspbufRe := s.mspbufRe ++ page })
        | none => (true, { s with msps := none })
  else (false, s)

/-- A stream is opened for the first partition in reserve; {lit}`part` is what is read of a partition. -/
def preopen (o : Opts) (part : ℕ → List (EventSingle V)) (s : Merging V) : Option (Merging V) :=
  if s.mspbufPo.length < o.mspPreopenMin then
    match s.mspbufRe with
    | msp :: re => some { s with mspbufRe := re, mspbufPo := s.mspbufPo ++ [(msp, ⟨[], part msp⟩)] }
    | [] => none
  else none

/-- The streams that are opened read a page each.  Progress of those of the inputs is not marked. -/
def fill (o : Opts) (s : Merging V) : Bool × Merging V :=
  (s.mspbufPo.any fun m => (m.2.pollToBuffer o).isSome,
    { s with
      mspbufPo := s.mspbufPo.map fun m => (m.1, (m.2.pollToBuffer o).getD m.2)
      inps := s.inps.map fun inp => { inp with evs := inp.evs.map fun x => (x.pollToBuffer o).getD x } })

/-- {lit}`poll_state`, with the number of rounds that are left.  To open a stream leaves the loop, and what was to be
returned is lost. -/
def pollState (o : Opts) (part : ℕ → List (EventSingle V)) :
    ℕ → Option (Item V) → Merging V → Option (Except Error (Item V)) × Merging V
  | 0, _, s => (some (.error .loopTooMany), s)
  | n + 1, retitem, s =>
      let (read, s) := s.reserve o
      match s.preopen o part with
      | some s => (some (.ok .log), s)
      | none =>
          let (filled, s) := s.fill o
          match retitem with
          | some x => if read || filled then pollState o part n (some x) s else (some (.ok x), s)
          | none =>
              match s.pollState2 o with
              | (some (.ok x), s) => pollState o part n (some x) s
              | (some (.error e), s) => (some (.error e), s)
              | (none, s) => if read || filled then pollState o part n none s else (none, s)

end Merging

/-- {lit}`LspFwdMspMulti`, as its {lit}`State` -/
inductive State (V : Type) where
  | merging (s : Merging V)
  | done
  deriving DecidableEq, Repr

/-- {lit}`new`, given the stream for the times of the further partitions -/
def new (inp : MspStream) (msps : List ℕ) : State V := .merging ⟨some inp, msps, [], []⟩

/-- {lit}`poll_next`.  Its loop goes round a second time only to report the end. -/
def pollNext (o : Opts) (part : ℕ → List (EventSingle V)) : State V → Pass (State V) (Except Error (Item V))
  | .merging s =>
      match s.pollState o part 2000 none with
      | (some (.ok x), s) => .item (.ok x) (.merging s)
      | (some (.error e), _) => .item (.error e) .done
      | (none, _) => .done .done
  | .done => .done .done

/-! ## What is still to come -/

/-- The events in a buffer -/
def pages : List (Item V) → List (EventSingle V)
  | [] => []
  | .log :: outbuf => pages outbuf
  | .data evs :: outbuf => evs ++ pages outbuf

/-- The pages in a buffer are those that the merge of the partitions would take one after another. -/
def Paged (limit : ℕ) (rest : List (EventSingle V)) : List (Item V) → Prop
  | [] => True
  | .log :: outbuf => Paged limit rest outbuf
  | .data evs :: outbuf =>
      evs ≠ [] ∧ (evs ++ (pages outbuf ++ rest)).take (pageLen limit) = evs ∧ Paged limit rest outbuf

/-- A bound on the items that a buffer and what is not yet read can give -/
def weightOf : List (Item V) → ℕ
  | [] => 0
  | .log :: outbuf => 1 + weightOf outbuf
  | .data evs :: outbuf => evs.length + weightOf outbuf

namespace Single

/-- The events that a stream still has -/
def events (s : Single V) : List (EventSingle V) := pages s.outbuf ++ s.rest

/-- A bound on the items that a stream still gives.  A page of one event brings an entry for the log. -/
def weight (s : Single V) : ℕ := weightOf s.outbuf + 2 * s.rest.length

/-- The number of pages for which a stream has room -/
def room (o : Opts) (s : Single V) : ℕ :=
  if s.rest = [] then 0 else (o.lspSingleBufMax + 1 - s.outbuf.length) / 2

end Single

namespace Inp

/-- The input as the merge of the partitions has it -/
def toMerge (inp : Inp V) : PartMerge.Inp V := ⟨inp.buf.getD [], (inp.evs.map Single.events).getD []⟩

def weight (inp : Inp V) : ℕ := (inp.buf.getD []).length + (inp.evs.map Single.weight).getD 0

/-- The pages of the stream -/
def Good (limit : ℕ) (inp : Inp V) : Prop := ∀ s ∈ inp.evs, Paged limit s.rest s.outbuf

/-- How many rounds an input needs, until it has events in its buffer -/
def stage (inp : Inp V) : ℕ :=
  match inp.buf with
  | some (_ :: _) => 0
  | some [] => 2
  | none => 1

end Inp

namespace Merging

/-- The times of partitions for which no stream is opened -/
def unopened (s : Merging V) : List ℕ := s.mspbufRe ++ s.msps.join.getD []

/-- The merge of the partitions that is still to come -/
def toMerge (part : ℕ → List (EventSingle V)) (s : Merging V) : PartMerge.Merging V where
  msps := (s.mspbufPo.map fun m => (m.1, m.2.events)) ++ s.unopened.map fun msp => (msp, part msp)
  inps := s.inps.map Inp.toMerge

/-- A bound on the items that are still to come -/
def weight (part : ℕ → List (EventSingle V)) (s : Merging V) : ℕ :=
  (s.unopened.map fun msp => 2 + 2 * (part msp).length).sum + (s.mspbufPo.map fun m => 1 + m.2.weight).sum +
    (s.inps.map Inp.weight).sum

/-- The pages of all streams -/
structure Good (limit : ℕ) (s : Merging V) : Prop where
  po : ∀ m ∈ s.mspbufPo, Paged limit m.2.rest m.2.outbuf
  inps : ∀ inp ∈ s.inps, inp.Good limit

end Merging

/-! ## Pages -/

section Pages

variable {o : Opts} {limit : ℕ} {outbuf outbuf' : List (Item V)} {rest : List (EventSingle V)} {s s' : Single V}

theorem pages_append : pages (outbuf ++ outbuf') = pages outbuf ++ pages outbuf' := by
  induction outbuf with
  | nil => rfl
  | cons x outbuf ih =>
      cases x with
      | log => exact ih
      | data evs => rw [List.cons_append, pages, ih, pages, List.append_assoc]

theorem weightOf_append : weightOf (outbuf ++ outbuf') = weightOf outbuf + weightOf outbuf' := by
  induction outbuf with
  | nil => exact (Nat.zero_add _).symm
  | cons x outbuf ih => cases x <;> simp only [List.cons_append, weightOf, ih, Nat.add_assoc]

theorem pages_page (evs : List (EventSingle V)) : pages [.log, .data evs] = evs := List.append_nil evs

/-- The next page goes behind those in the buffer. -/
theorem paged_append (hpaged : Paged limit rest outbuf) (hne : rest ≠ []) :
    Paged limit (rest.drop (pageLen limit)) (outbuf ++ [.log, .data (rest.take (pageLen limit))]) := by
  induction outbuf with
  | nil =>
      refine ⟨?_, ?_, trivial⟩
      · rw [Ne, List.take_eq_nil_iff, not_or]
        exact ⟨(PartMerge.pageLen_pos limit).ne', hne⟩
      · rw [pages, List.nil_append, List.take_append_drop]
  | cons x outbuf ih =>
      cases x with
      | log => exact ih hpaged
      | data evs =>
          obtain ⟨hevs, htake, hpaged⟩ := hpaged
          refine ⟨hevs, ?_, ih hpaged⟩
          change (evs ++ (pages (outbuf ++ _) ++ _)).take _ = _
          rw [pages_append, pages_page, List.append_assoc, List.take_append_drop, htake]

namespace Single

/-- Reading a page keeps the events, and takes room. -/
theorem pollToBuffer_spec (hpaged : Paged o.lspLimit s.rest s.outbuf) (hpoll : s.pollToBuffer o = some s') :
    s'.events = s.events ∧ Paged o.lspLimit s'.rest s'.outbuf ∧ s'.weight ≤ s.weight ∧ s'.room o < s.room o := by
  unfold pollToBuffer at hpoll
  split_ifs at hpoll with hfree
  obtain ⟨hlt, hne⟩ := hfree
  obtain rfl := Option.some.inj hpoll
  have hpos := PartMerge.pageLen_pos o.lspLimit
  have hlen := List.length_pos_iff.mpr hne
  refine ⟨?_, paged_append hpaged hne, ?_, ?_⟩
  · rw [events, events, pages_append, pages_page, List.append_assoc, List.take_append_drop]
  · rw [weight, weight, weightOf_append, weightOf, weightOf, weightOf, List.length_take, List.length_drop]
    omega
  · rw [room, room, if_neg hne, List.length_append]
    simp only [List.length_cons, List.length_nil]
    split_ifs <;> omega

/-- A stream that reads no page has no room. -/
theorem room_of_none (hpoll : s.pollToBuffer o = none) : s.room o = 0 := by
  unfold pollToBuffer at hpoll
  split_ifs at hpoll with hfree
  unfold room
  split_ifs with hrest
  · rfl
  · have hle : o.lspSingleBufMax ≤ s.outbuf.length := not_lt.mp fun hlt => hfree ⟨hlt, hrest⟩
    omega

/-- What a stream gives: an entry for the log, or the next page, and nothing only where no event is left -/
inductive Gives (o : Opts) (s : Single V) : Option (Item V × Single V) → Prop
  | log {s' : Single V} (hevents : s'.events = s.events) (hpaged : Paged o.lspLimit s'.rest s'.outbuf)
      (hweight : s'.weight < s.weight) : Gives o s (some (.log, s'))
  | page {s' : Single V} {evs : List (EventSingle V)} (hne : evs ≠ []) (hpage : s.events.take (pageLen o.lspLimit) = evs)
      (hevents : s'.events = s.events.drop (pageLen o.lspLimit)) (hpaged : Paged o.lspLimit s'.rest s'.outbuf)
      (hweight : evs.length + s'.weight ≤ s.weight) : Gives o s (some (.data evs, s'))
  | ended (hevents : s.events = []) : Gives o s none

/-- What is in the buffer is given. -/
theorem gives_cons {x : Item V} (hpaged : Paged o.lspLimit rest (x :: outbuf)) :
    Gives o ⟨x :: outbuf, rest⟩ (some (x, ⟨outbuf, rest⟩)) := by
  cases x with
  | log =>
      refine .log rfl hpaged ?_
      simp only [weight, weightOf]
      omega
  | data evs =>
      obtain ⟨hne, htake, hpaged⟩ := hpaged
      have hevents : events ⟨.data evs :: outbuf, rest⟩ = evs ++ (pages outbuf ++ rest) := List.append_assoc _ _ _
      have hdrop := List.take_append_drop (pageLen o.lspLimit) (evs ++ (pages outbuf ++ rest))
      rw [htake] at hdrop
      refine .page hne (hevents ▸ htake) ?_ hpaged ?_
      · rw [hevents]
        exact (List.append_cancel_left hdrop).symm
      · simp only [weight, weightOf]
        omega

/-- With a buffer that holds something, a stream gives all of its events. -/
theorem pollNext_gives (hmax : 0 < o.lspSingleBufMax) (hpaged : Paged o.lspLimit s.rest s.outbuf) :
    Gives o s (s.pollNext o) := by
  obtain ⟨outbuf, rest⟩ := s
  cases outbuf with
  | cons x outbuf => exact gives_cons hpaged
  | nil =>
      by_cases hrest : rest = []
      · have hnone : pollToBuffer o (⟨[], rest⟩ : Single V) = none := if_neg fun h => h.2 hrest
        have hpoll : pollNext o (⟨[], rest⟩ : Single V) = none := by
          unfold pollNext
          simp only [hnone]
        rw [hpoll]
        exact .ended hrest
      · have hsome : pollToBuffer o ⟨[], rest⟩ =
            some ⟨[.log, .data (rest.take (pageLen o.lspLimit))], rest.drop (pageLen o.lspLimit)⟩ := if_pos ⟨hmax, hrest⟩
        have hpoll : pollNext o ⟨[], rest⟩ =
            some (.log, ⟨[.data (rest.take (pageLen o.lspLimit))], rest.drop (pageLen o.lspLimit)⟩) := by
          unfold pollNext
          simp only [hsome]
        obtain ⟨hevents, hpaged, hweight, -⟩ := pollToBuffer_spec hpaged hsome
        rw [hpoll]
        refine .log hevents hpaged (lt_of_lt_of_le ?_ hweight)
        simp only [weight, weightOf]
        omega

end Single

end Pages

/-! ## The inputs -/

section Inputs

variable {o : Opts} {limit k : ℕ} {inp inp' : Inp V} {inps inps' inps'' : List (Inp V)}

/-- The inputs as the merge of the partitions has them after its poll -/
def taken (limit : ℕ) (inps : List (Inp V)) : List (PartMerge.Inp V) :=
  PartMerge.pollAllInp limit (inps.map Inp.toMerge)

theorem taken_cons (limit : ℕ) (inp : Inp V) (inps : List (Inp V)) :
    taken limit (inp :: inps) = (PartMerge.pollInp limit inp.toMerge).toList ++ taken limit inps := by
  unfold taken PartMerge.pollAllInp
  rw [List.map_cons, List.filterMap_cons]
  cases PartMerge.pollInp limit inp.toMerge <;> rfl

/-- An input that goes on to another one, of which the merge takes the same -/
structure Inp.Same (limit : ℕ) (inp inp' : Inp V) : Prop where
  good : inp'.Good limit
  poll : PartMerge.pollInp limit inp'.toMerge = PartMerge.pollInp limit inp.toMerge
  weight : inp'.weight ≤ inp.weight

/-- Inputs that go on to others, of which the merge takes the same -/
structure Same (limit : ℕ) (inps inps' : List (Inp V)) : Prop where
  good : ∀ inp ∈ inps', inp.Good limit
  taken : taken limit inps' = taken limit inps
  weight : (inps'.map Inp.weight).sum ≤ (inps.map Inp.weight).sum

theorem Same.refl (hgood : ∀ inp ∈ inps, inp.Good limit) : Same limit inps inps := ⟨hgood, rfl, le_rfl⟩

theorem Same.trans (h : Same limit inps inps') (h' : Same limit inps' inps'') : Same limit inps inps'' :=
  ⟨h'.good, h'.taken.trans h.taken, h'.weight.trans h.weight⟩

theorem Same.cons (h : inp.Same limit inp') (hs : Same limit inps inps') : Same limit (inp :: inps) (inp' :: inps') where
  good := List.forall_mem_cons.mpr ⟨h.good, hs.good⟩
  taken := by rw [taken_cons, taken_cons, h.poll, hs.taken]
  weight := by
    have hle := h.weight
    have hles := hs.weight
    simp only [List.map_cons, List.sum_cons]
    omega

/-- What the poll of an input does: there are events in its buffer, or it has ended, or it comes closer to one of these,
or gives an entry for the log. -/
inductive Inp.Polls (o : Opts) (inp : Inp V) : Inp V × Bool × Bool → Prop
  | full (hstage : inp.stage = 0) : Polls o inp (inp, false, false)
  | gone (hstage : inp.stage = 1) (hgone : retained inp = false) : Polls o inp (inp, false, false)
  | nearer {inp' : Inp V} (hsame : inp.Same o.lspLimit inp')
      (hstage : retained inp' = true → inp'.stage < inp.stage) (hpos : 0 < inp.stage) : Polls o inp (inp', false, true)
  | log {inp' : Inp V} (hsame : inp.Same o.lspLimit inp') (hweight : inp'.weight < inp.weight) :
      Polls o inp (inp', true, true)

theorem pollInp_polls (hmax : 0 < o.lspSingleBufMax) (hgood : inp.Good o.lspLimit) : inp.Polls o (pollInp o inp) := by
  obtain ⟨evs, buf⟩ := inp
  cases buf with
  | some b =>
      cases b with
      | nil => exact .nearer ⟨hgood, rfl, le_rfl⟩ (fun _ => Nat.one_lt_two) Nat.two_pos
      | cons ev b => exact .full rfl
  | none =>
      cases evs with
      | none => exact .gone rfl rfl
      | some s =>
          have hgives := s.pollNext_gives hmax (hgood s rfl)
          unfold pollInp
          simp only
          cases hpoll : s.pollNext o with
          | none =>
              rw [hpoll] at hgives
              cases hgives with
              | ended hevents =>
                  refine .nearer ⟨nofun, ?_, Nat.zero_le _⟩ nofun Nat.one_pos
                  simp only [Inp.toMerge, Option.map_some, Option.map_none, Option.getD_some, Option.getD_none, hevents]
          | some x =>
              rw [hpoll] at hgives
              cases hgives with
              | log hevents hpaged hweight =>
                  refine .log ⟨?_, ?_, ?_⟩ ?_
                  · rintro _ ⟨⟩
                    exact hpaged
                  · simp only [Inp.toMerge, Option.map_some, Option.getD_some, hevents]
                  · exact Nat.add_le_add_left hweight.le _
                  · exact Nat.add_lt_add_left hweight _
              | page hne hpage hevents hpaged hweight =>
                  rename_i s' evs
                  obtain ⟨ev, rest, rfl⟩ := List.exists_cons_of_ne_nil hne
                  refine .nearer ⟨?_, ?_, ?_⟩ (fun _ => Nat.one_pos) Nat.one_pos
                  · rintro _ ⟨⟩
                    exact hpaged
                  · have hsome : s.events ≠ [] := by
                      rintro hnil
                      rw [hnil, List.take_nil] at hpage
                      cases hpage
                    have hbefore : PartMerge.pollInp o.lspLimit ⟨[], s.events⟩ =
                        some ⟨s.events.take (pageLen o.lspLimit), s.events.drop (pageLen o.lspLimit)⟩ := if_neg hsome
                    change _ = PartMerge.pollInp o.lspLimit ⟨[], s.events⟩
                    rw [hbefore, hpage, ← hevents]
                    exact if_pos hne
                  · simpa [Inp.weight] using hweight

/-- An input that goes takes nothing. -/
theorem pollInp_toMerge_gone (hgone : retained inp = false) : PartMerge.pollInp limit inp.toMerge = none := by
  obtain ⟨evs, buf⟩ := inp
  cases buf with
  | some b => cases hgone
  | none =>
      cases evs with
      | some s => cases hgone
      | none => rfl

/-- To remove the inputs that have ended -/
theorem same_retained (hgood : ∀ inp ∈ inps, inp.Good limit) : Same limit inps (inps.filter retained) := by
  induction inps with
  | nil => exact .refl hgood
  | cons inp inps ih =>
      obtain ⟨hinp, hinps⟩ := List.forall_mem_cons.mp hgood
      have hrest := ih hinps
      rw [List.filter_cons]
      split_ifs with hret
      · exact .cons ⟨hinp, rfl, le_rfl⟩ hrest
      · refine ⟨hrest.good, ?_, ?_⟩
        · rw [taken_cons, pollInp_toMerge_gone (Bool.eq_false_iff.mpr hret), hrest.taken]
          rfl
        · rw [List.map_cons, List.sum_cons]
          exact hrest.weight.trans (Nat.le_add_left _ _)

theorem Inp.Polls.same {log progress : Bool} (hgood : inp.Good o.lspLimit) (h : inp.Polls o (inp', log, progress)) :
    inp.Same o.lspLimit inp' := by
  cases h with
  | full | gone => exact ⟨hgood, rfl, le_rfl⟩
  | nearer hsame | log hsame => exact hsame

/-- What the loop over the inputs does, unless an entry for the log ends it -/
structure Rounds (inps inps' : List (Inp V)) (progress : Bool) : Prop where
  nearer : ∀ k, (∀ inp ∈ inps, inp.stage ≤ k) → ∀ inp ∈ inps', retained inp = true → inp.stage ≤ k - 1
  still : progress = false → inps' = inps ∧ ∀ inp ∈ inps, retained inp = true → inp.stage = 0
  moves : progress = true → ∃ inp ∈ inps, 0 < inp.stage

theorem Rounds.cons {p q : Bool} (h : inp.Polls o (inp', false, p)) (hs : Rounds inps inps' q) :
    Rounds (inp :: inps) (inp' :: inps') (p || q) := by
  have hfirst : (retained inp' = true → inp'.stage ≤ inp.stage - 1) ∧
      (p = false → inp' = inp ∧ (retained inp = true → inp.stage = 0)) ∧ (p = true → 0 < inp.stage) := by
    cases h with
    | full hstage => exact ⟨fun _ => by omega, fun _ => ⟨rfl, fun _ => hstage⟩, nofun⟩
    | gone hstage hgone =>
        have hno : retained inp ≠ true := Bool.eq_false_iff.mp hgone
        exact ⟨fun hret => absurd hret hno, fun _ => ⟨rfl, fun hret => absurd hret hno⟩, nofun⟩
    | nearer _ hstage hpos => exact ⟨fun hret => Nat.le_sub_one_of_lt (hstage hret), nofun, fun _ => hpos⟩
  obtain ⟨hnearer, hstill, hmoves⟩ := hfirst
  constructor
  · intro k hk
    obtain ⟨hkinp, hkinps⟩ := List.forall_mem_cons.mp hk
    refine List.forall_mem_cons.mpr ⟨fun hret => ?_, hs.nearer k hkinps⟩
    exact (hnearer hret).trans (Nat.sub_le_sub_right hkinp 1)
  · intro hprogress
    obtain ⟨hp, hq⟩ := Bool.or_eq_false_iff.mp hprogress
    obtain ⟨rfl, hinp⟩ := hstill hp
    obtain ⟨rfl, hinps⟩ := hs.still hq
    exact ⟨rfl, List.forall_mem_cons.mpr ⟨hinp, hinps⟩⟩
  · intro hprogress
    rw [Bool.or_eq_true] at hprogress
    obtain hp | hq := hprogress
    · exact ⟨inp, List.mem_cons_self, hmoves hp⟩
    · obtain ⟨inp, hmem, hpos⟩ := hs.moves hq
      exact ⟨inp, List.mem_cons_of_mem _ hmem, hpos⟩

/-- The loop over the inputs: an entry for the log ends it, or all inputs are polled. -/
theorem pollInps_spec (hmax : 0 < o.lspSingleBufMax) (hgood : ∀ inp ∈ inps, inp.Good o.lspLimit) :
    ∃ inps' log progress, pollInps o inps = (inps', log, progress) ∧ Same o.lspLimit inps inps' ∧
      (log = true → (inps'.map Inp.weight).sum < (inps.map Inp.weight).sum) ∧
      (log = false → Rounds inps inps' progress) := by
  induction inps with
  | nil => exact ⟨[], false, false, rfl, .refl hgood, nofun, fun _ => ⟨nofun, fun _ => ⟨rfl, nofun⟩, nofun⟩⟩
  | cons inp inps ih =>
      obtain ⟨hinp, hinps⟩ := List.forall_mem_cons.mp hgood
      obtain ⟨inps', log, progress, heq, hsame, hlog, hrounds⟩ := ih hinps
      have hpolls := pollInp_polls hmax hinp
      unfold pollInps
      generalize pollInp o inp = x at hpolls ⊢
      obtain ⟨inp', log', progress'⟩ := x
      cases log' with
      | true =>
          refine ⟨inp' :: inps, true, progress', rfl, .cons (hpolls.same hinp) (.refl hinps), fun _ => ?_, nofun⟩
          cases hpolls with
          | log _ hweight =>
              rw [List.map_cons, List.map_cons, List.sum_cons, List.sum_cons]
              exact Nat.add_lt_add_right hweight _
      | false =>
          refine ⟨inp' :: inps', log, progress' || progress, ?_, .cons (hpolls.same hinp) hsame, fun hl => ?_, fun hl =>
            (hrounds hl).cons hpolls⟩
          · simp only [heq]
          · have hle := (hpolls.same hinp).weight
            have hlt := hlog hl
            simp only [List.map_cons, List.sum_cons]
            omega

/-- What comes of a poll of the inputs: an entry for the log, or events in every buffer -/
inductive Readies (o : Opts) (inps : List (Inp V)) : Polled × List (Inp V) → Prop
  | log {inps' : List (Inp V)} (hsame : Same o.lspLimit inps inps')
      (hweight : (inps'.map Inp.weight).sum < (inps.map Inp.weight).sum) : Readies o inps (.log, inps')
  | ready {inps' : List (Inp V)} (hsame : Same o.lspLimit inps inps') (hready : ∀ inp ∈ inps', inp.stage = 0) :
      Readies o inps (.ready, inps')

theorem Readies.of_same {x : Polled × List (Inp V)} (hsame : Same o.lspLimit inps inps') (h : Readies o inps' x) :
    Readies o inps x := by
  cases h with
  | log hsame' hweight => exact .log (hsame.trans hsame') (hweight.trans_le hsame.weight)
  | ready hsame' hready => exact .ready (hsame.trans hsame') hready

theorem retained_of_stage (h : inp.stage = 0) : retained inp = true := by
  obtain ⟨evs, buf⟩ := inp
  cases buf with
  | none => cases h
  | some b => rfl

theorem buf_of_stage (h : inp.stage = 0) : ∃ ev evs, inp.buf = some (ev :: evs) := by
  obtain ⟨evs, buf⟩ := inp
  rcases buf with _ | _ | ⟨ev, b⟩
  · cases h
  · cases h
  · exact ⟨ev, b, rfl⟩

/-- Polling the inputs takes few rounds. -/
theorem pollAllInp_spec (hmax : 0 < o.lspSingleBufMax) (n : ℕ) (hgood : ∀ inp ∈ inps, inp.Good o.lspLimit)
    (hstage : ∀ inp ∈ inps, inp.stage ≤ k) (hn : k < n) : Readies o inps (pollAllInp o n inps) := by
  induction n generalizing inps k with
  | zero => exact absurd hn (Nat.not_lt_zero k)
  | succ n ih =>
      obtain ⟨inps', log, progress, heq, hsame, hlog, hrounds⟩ := pollInps_spec hmax hgood
      unfold pollAllInp
      rw [heq]
      cases log with
      | true => exact .log hsame (hlog rfl)
      | false =>
          have hrounds := hrounds rfl
          have hkept := hsame.trans (same_retained hsame.good)
          simp only
          split_ifs with hprogress hnone
          · -- An input was not ready, so that one round less is needed.
            have hpos : 0 < k := by
              rw [Bool.or_eq_true, decide_eq_true_eq] at hprogress
              cases hmoves : progress with
              | true =>
                  obtain ⟨inp, hmem, hpos⟩ := hrounds.moves hmoves
                  exact hpos.trans_le (hstage inp hmem)
              | false =>
                  obtain ⟨hinps', -⟩ := hrounds.still hmoves
                  by_contra hzero
                  apply hprogress.resolve_left (Bool.eq_false_iff.mp hmoves)
                  have hall : ∀ inp ∈ inps', retained inp = true := by
                    intro inp hmem
                    have hle := hstage inp (hinps' ▸ hmem)
                    exact retained_of_stage (by omega)
                  rw [List.filter_eq_self.mpr hall]
            refine (ih hkept.good (fun inp hmem => ?_) (show k - 1 < n by omega)).of_same hkept
            obtain ⟨hmem, hret⟩ := List.mem_filter.mp hmem
            exact hrounds.nearer k hstage inp hmem hret
          · -- All inputs are ready.
            rw [Bool.or_eq_true, decide_eq_true_eq, not_or] at hprogress
            refine .ready hkept fun inp hmem => ?_
            obtain ⟨hmem, hret⟩ := List.mem_filter.mp hmem
            obtain ⟨hinps', hzero⟩ := hrounds.still (Bool.eq_false_iff.mpr hprogress.1)
            exact hzero inp (hinps' ▸ hmem) hret
          · rw [Bool.or_eq_true, decide_eq_true_eq, not_or] at hprogress
            obtain ⟨hinps', hzero⟩ := hrounds.still (Bool.eq_false_iff.mpr hprogress.1)
            refine absurd ?_ hnone
            rw [List.length_eq_zero_iff, List.filter_eq_nil_iff]
            intro inp hmem
            obtain ⟨hmem, hret⟩ := List.mem_filter.mp hmem
            obtain ⟨ev, evs, hbuf⟩ := buf_of_stage (hzero inp (hinps' ▸ hmem) hret)
            rw [hbuf]
            exact nofun

end Inputs

/-! ## Handing out -/

section Handing

variable {o : Opts} {limit : ℕ} {mspNext : Option ℕ} {inp : Inp V} {inps inps' : List (Inp V)}
  {evs : List (EventSingle V)}

theorem toMerge_buf_ne_nil (h : inp.stage = 0) : inp.toMerge.buf ≠ [] := by
  obtain ⟨ev, evs, hbuf⟩ := buf_of_stage h
  rw [Inp.toMerge, hbuf]
  exact List.cons_ne_nil _ _

/-- Inputs that are ready are those that the merge of the partitions has. -/
theorem taken_of_ready (hready : ∀ inp ∈ inps, inp.stage = 0) : taken limit inps = inps.map Inp.toMerge := by
  apply PartMerge.pollAllInp_of_buf
  intro m hm
  obtain ⟨inp, hmem, rfl⟩ := List.mem_map.mp hm
  exact toMerge_buf_ne_nil (hready inp hmem)

/-- The lowest times are those that the merge of the partitions finds. -/
theorem findNextTsFrom_eq (hready : ∀ inp ∈ inps, inp.stage = 0) (ix : ℕ) (tslows : Tslows) :
    ∃ r, findNextTsFrom inps ix tslows = .ok r ∧ PartMerge.findNextTsFrom (inps.map Inp.toMerge) ix tslows = .ok r := by
  induction inps generalizing ix tslows with
  | nil => exact ⟨tslows, rfl, rfl⟩
  | cons inp inps ih =>
      obtain ⟨hinp, hinps⟩ := List.forall_mem_cons.mp hready
      obtain ⟨ev, evs, hbuf⟩ := buf_of_stage hinp
      rw [List.map_cons, findNextTsFrom, PartMerge.findNextTsFrom, Inp.toMerge, hbuf]
      exact ih hinps _ _

/-- To set the buffer of an input -/
theorem setBuf_eq {ix : ℕ} (hix : inps[ix]? = some inp) (buf : Option (List (EventSingle V))) :
    setBuf inps ix buf = inps.set ix { inp with buf := buf } := by
  rw [setBuf, List.modify_eq_set_getElem?, hix]
  rfl

/-- The inputs after some events of one of them are handed out -/
theorem setBuf_spec {ix : ℕ} {b rest : List (EventSingle V)} {buf : Option (List (EventSingle V))}
    (hgood : ∀ inp ∈ inps, inp.Good limit) (hix : inps[ix]? = some inp) (hb : inp.buf = some b)
    (hbuf : buf.getD [] = rest) (hlen : evs.length + rest.length = b.length) :
    (∀ inp ∈ setBuf inps ix buf, inp.Good limit) ∧
      (setBuf inps ix buf).map Inp.toMerge = (inps.map Inp.toMerge).set ix { inp.toMerge with buf := rest } ∧
      evs.length + ((setBuf inps ix buf).map Inp.weight).sum = (inps.map Inp.weight).sum := by
  have hmem : inp ∈ inps := List.mem_of_getElem? hix
  rw [setBuf_eq hix]
  refine ⟨?_, ?_, ?_⟩
  · intro x hx
    obtain hx | rfl := List.mem_or_eq_of_mem_set hx
    · exact hgood x hx
    · exact hgood inp hmem
  · rw [List.map_set, Inp.toMerge, hbuf]
    rfl
  · obtain ⟨hlt, hget⟩ := List.getElem?_eq_some_iff.mp hix
    obtain ⟨pre, post, hsplit, -, hset⟩ := @List.exists_of_set _ _ { inp with buf := buf } _ hlt
    rw [hset, hsplit, hget]
    simp only [List.map_append, List.map_cons, List.sum_append, List.sum_cons, Inp.weight, hb, hbuf, Option.getD_some]
    omega

/-- What comes of the inputs: an entry for the log, or the next partition is to be opened, or the events that the merge of
the partitions chooses are handed out. -/
inductive Checks (o : Opts) (mspNext : Option ℕ) (inps : List (Inp V)) : Checked V × List (Inp V) → Prop
  | log {inps' : List (Inp V)} (hsame : Same o.lspLimit inps inps')
      (hweight : (inps'.map Inp.weight).sum < (inps.map Inp.weight).sum) : Checks o mspNext inps (.log, inps')
  | opens {inps' : List (Inp V)} (hsame : Same o.lspLimit inps inps')
      (htaken : taken o.lspLimit inps = inps'.map Inp.toMerge)
      (hchoose : (inps' = [] ∧ PartMerge.choose (taken o.lspLimit inps) = .ok none) ∨
        ∃ ts evs m, PartMerge.choose (taken o.lspLimit inps) = .ok (some (ts, evs, m)) ∧ opensNext mspNext ts = true) :
      Checks o mspNext inps (.openNextMsp, inps')
  | item {inps' : List (Inp V)} {ts : ℕ} {evs : List (EventSingle V)} (hgood : ∀ inp ∈ inps', inp.Good o.lspLimit)
      (hchoose : PartMerge.choose (taken o.lspLimit inps) = .ok (some (ts, evs, inps'.map Inp.toMerge)))
      (hopens : opensNext mspNext ts = false) (hne : evs ≠ [])
      (hweight : evs.length + (inps'.map Inp.weight).sum ≤ (inps.map Inp.weight).sum) :
      Checks o mspNext inps (.item evs, inps')

theorem opensNext_none (ts : ℕ) : opensNext none ts = false := rfl

theorem opensNext_some (msp ts : ℕ) : opensNext (some msp) ts = true ↔ msp * 1000000 ≤ ts := by
  rw [opensNext, Option.any_some]
  exact decide_eq_true_iff

/-- From one of the inputs that are ready the events are handed out that the merge chooses. -/
theorem drain_spec {ix ts : ℕ} {b : List (EventSingle V)} {second : Option (ℕ × ℕ)} (hsame : Same o.lspLimit inps inps')
    (hready : ∀ inp ∈ inps', inp.stage = 0) (hix : inps'[ix]? = some inp) (hb : inp.buf = some b)
    (hfind : PartMerge.findNextTsFrom (inps'.map Inp.toMerge) 0 (none, none) = .ok (some (ix, ts), second)) :
    Checks o mspNext inps (drain mspNext inps' ix b second) := by
  have htaken : taken o.lspLimit inps = inps'.map Inp.toMerge := hsame.taken.symm.trans (taken_of_ready hready)
  have hmerge : (inps'.map Inp.toMerge)[ix]? = some inp.toMerge := by
    rw [List.getElem?_map, hix]
    rfl
  have hbuf : inp.toMerge.buf = b := by
    rw [Inp.toMerge, hb]
    rfl
  have hne : b ≠ [] := hbuf ▸ toMerge_buf_ne_nil (hready inp (List.mem_of_getElem? hix))
  cases second with
  | none =>
      have hlast : b.getLast? = some (b.getLast hne) := List.getLast?_eq_some_getLast hne
      have hchoose : PartMerge.choose (taken o.lspLimit inps) =
          .ok (some ((b.getLast hne).ts, b, (inps'.map Inp.toMerge).set ix { inp.toMerge with buf := [] })) := by
        rw [PartMerge.choose, htaken, hfind]
        simp only [hmerge, hbuf, hlast]
      unfold drain
      simp only [hlast]
      split_ifs with hopens
      · exact .opens hsame htaken (.inr ⟨_, _, _, hchoose, hopens⟩)
      · obtain ⟨hgood, hset, hweight⟩ := @setBuf_spec _ _ inp inps' b ix b [] none hsame.good hix hb rfl rfl
        refine .item hgood ?_ (Bool.eq_false_iff.mpr hopens) hne (hweight.le.trans hsame.weight)
        rw [hchoose, hset]
  | some second =>
      obtain ⟨ix2, ts2⟩ := second
      set i3 := partitionPoint (fun ev => decide (ev.ts ≤ ts2)) b with hi3
      have hchoose : PartMerge.choose (taken o.lspLimit inps) = .ok (some (ts2, b.take i3,
          (inps'.map Inp.toMerge).set ix { inp.toMerge with buf := b.drop i3 })) := by
        rw [PartMerge.choose, htaken, hfind]
        simp only [hmerge, hbuf, hi3]
      have htake : b.take i3 ≠ [] := by
        have hbufs : ∀ m ∈ inps'.map Inp.toMerge, m.buf ≠ [] := by
          intro m hm
          obtain ⟨x, hx, rfl⟩ := List.mem_map.mp hm
          exact toMerge_buf_ne_nil (hready x hx)
        obtain ⟨-, hnone⟩ | ⟨_, _, _, hsome, hsome', -⟩ := PartMerge.choose_spec hbufs
        · rw [← htaken, hchoose] at hnone
          cases hnone
        · rw [← htaken, hchoose] at hsome
          cases hsome
          exact hsome'
      have hlen : (b.take i3).length + (b.drop i3).length = b.length := by
        rw [← List.length_append, List.take_append_drop]
      have hpos := List.length_pos_iff.mpr htake
      unfold drain
      simp only [← hi3]
      split_ifs with hopens hnone
      · exact .opens hsame htaken (.inr ⟨_, _, _, hchoose, hopens⟩)
      · omega
      · obtain ⟨hgood, hset, hweight⟩ :=
          @setBuf_spec _ _ inp inps' (b.take i3) ix b (b.drop i3) (some (b.drop i3)) hsame.good hix hb rfl hlen
        refine .item hgood ?_ (Bool.eq_false_iff.mpr hopens) htake (hweight.le.trans hsame.weight)
        rw [hchoose, hset]

theorem stage_le_two (inp : Inp V) : inp.stage ≤ 2 := by
  obtain ⟨evs, buf⟩ := inp
  rcases buf with _ | _ | ⟨ev, b⟩
  · exact Nat.le_succ 1
  · exact le_rfl
  · exact Nat.zero_le 2

/-- What is handed out is what the merge of the partitions chooses. -/
theorem checkInputs_spec (hmax : 0 < o.lspSingleBufMax) (n : ℕ) (hgood : ∀ inp ∈ inps, inp.Good o.lspLimit) :
    Checks o mspNext inps (checkInputs o mspNext (n + 1) inps) := by
  have hreadies := pollAllInp_spec hmax 200 hgood (fun inp _ => stage_le_two inp) (by omega)
  unfold checkInputs
  generalize pollAllInp o 200 inps = x at hreadies ⊢
  cases hreadies with
  | log hsame hweight => exact .log hsame hweight
  | ready hsame hready =>
      rename_i inps'
      obtain ⟨⟨first, second⟩, hfind, hmerge⟩ := findNextTsFrom_eq hready 0 (none, none)
      have hbuf : ∀ m ∈ inps'.map Inp.toMerge, m.buf ≠ [] := by
        intro m hm
        obtain ⟨inp, hmem, rfl⟩ := List.mem_map.mp hm
        exact toMerge_buf_ne_nil (hready inp hmem)
      have hstart : PartMerge.Lowest ([] : List (PartMerge.Inp V)) (none, none) := ⟨fun _ => ⟨rfl, rfl⟩, nofun, nofun⟩
      obtain ⟨r, hr, hlowest⟩ := PartMerge.findNextTsFrom_lowest hstart hbuf
      rw [List.length_nil, hmerge] at hr
      obtain rfl := Except.ok.inj hr
      rw [List.nil_append] at hlowest
      simp only [hfind]
      cases first with
      | none =>
          have hnil : inps' = [] := List.map_eq_nil_iff.mp (hlowest.empty rfl).1
          have htaken : taken o.lspLimit inps = inps'.map Inp.toMerge := hsame.taken.symm.trans (taken_of_ready hready)
          subst hnil
          refine .opens hsame htaken (.inl ⟨rfl, ?_⟩)
          rw [htaken]
          rfl
      | some a =>
          obtain ⟨ix, ts⟩ := a
          obtain ⟨m, -, hix, -, -⟩ := hlowest.first ix ts rfl
          rw [List.getElem?_map] at hix
          obtain ⟨inp, hix, -⟩ := Option.map_eq_some_iff.mp hix
          obtain ⟨ev, evs, hb⟩ := buf_of_stage (hready inp (List.mem_of_getElem? hix))
          simp only [hix, Option.bind_some, hb]
          exact drain_spec hsame hready hix hb hmerge

end Handing

end LspFwdMspMulti
end Scylla
end Daqbuf
