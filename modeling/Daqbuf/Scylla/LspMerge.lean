import Daqbuf.Items.ContainerEvents
import Daqbuf.Items.Merger
import Daqbuf.Search.OrderedMerge
/-!
# Merging the Stores

{lit}`LspMerge` merges the event streams of the stores of one series.  It keeps one container of every
input, and moves what comes first either straight to the caller or into a buffer that it fills up to the
chunk limit.

The loops of the source give up with an error after a fixed number of rounds.

Main results:

- Theorem {lit}`Merging.pollAllInp_spec`: polling the inputs changes nothing of what is left to merge.
- Theorem {lit}`Merging.checkInputs_spec`: one call hands out what comes first.
- Theorem {lit}`LspMerge.merges`: the chunks are the inputs, merged in order, unless a loop gives up.
-/

namespace Daqbuf
namespace Scylla

open Netpod Poll Items Search
open Items.Merger (Tslows)

/-- {lit}`Sitemty2` -/
abbrev Sitemty2 (T E : Type*) := Except E (StreamItem (RangeCompletableItem T))

/-- {lit}`sitem2_data` -/
@[match_pattern]
abbrev sitem2Data {T E : Type*} (x : T) : Sitemty2 T E := .ok (.dataItem (.data x))

/-- {lit}`HaveProgressPending` -/
structure HaveProgressPending where
  progress : Bool := false
  pending : Bool := false
  deriving DecidableEq, Repr

/-- {lit}`mark_progress` -/
def HaveProgressPending.markProgress (hpp : HaveProgressPending) : HaveProgressPending :=
  { hpp with progress := true }

/-- {lit}`mark_pending` -/
def HaveProgressPending.markPending (hpp : HaveProgressPending) : HaveProgressPending :=
  { hpp with pending := true }

/-- {lit}`find_pp_le` of {lit}`MergeableTy` -/
class FindPpLe (T : Type*) extends MergeableTy T where
  findPpLe : T → ℕ → ℕ

instance {V : Type*} [EventValueType V] : FindPpLe (ContainerEvents V) where
  findPpLe c ts := partitionPoint (fun ev => decide (ev.ts ≤ ts)) c.evs

namespace LspMerge

/-- The errors of {lit}`lspmerge` that a merge can report -/
inductive Error (E : Type*) where
  | findNextTsWithoutBuf
  | findNextTsOnEmptyBuf
  | loopTooMany
  | badDrain (n1 n2 : ℕ)
  | notCompatible
  | inputBoxed (e : E)
  deriving DecidableEq, Repr

end LspMerge

open LspMerge (Error)

/-- {lit}`Inp` -/
structure Inp (T E : Type*) where
  evs : Option (Script (Sitemty2 T E))
  buf : Option T

/-- {lit}`Merging` -/
structure Merging (T E : Type*) where
  inps : List (Inp T E)
  evbuf : Option T
  lspLimit : ℕ
  lspMinfill : ℕ

section Model

variable {T E : Type*} [FindPpLe T]

namespace Merging

/-! ## The lowest timestamps -/

/-- The loop of {lit}`find_next_ts` -/
def findNextTsFrom : List (Inp T E) → ℕ → Tslows → Except (Error E) Tslows
  | [], _, tslows => .ok tslows
  | inp :: inps, ix, tslows =>
      match inp.buf with
      | none => .error .findNextTsWithoutBuf
      | some buf =>
          match MergeableTy.tsMin buf with
          | none => .error .findNextTsOnEmptyBuf
          | some ts => findNextTsFrom inps (ix + 1) (tslows.insert ix ts)

/-- {lit}`find_next_ts` -/
def findNextTs (s : Merging T E) : Except (Error E) Tslows := findNextTsFrom s.inps 0 (none, none)

/-! ## Polling the inputs -/

/-- The body of the loop over the inputs: the input, what ends the loop, and the marks. -/
def pollInp (inp : Inp T E) (hpp : HaveProgressPending) :
    Inp T E × Option (Sitemty2 Unit (Error E)) × HaveProgressPending :=
  match inp.buf with
  | some buf =>
      if MergeableTy.len buf = 0 then ({ inp with buf := none }, none, hpp.markProgress)
      else (inp, none, hpp)
  | none =>
      match inp.evs with
      | none => (inp, none, hpp)
      | some [] => ({ inp with evs := none }, none, hpp.markProgress)
      | some (.pending :: rest) => ({ inp with evs := some rest }, none, hpp.markPending)
      | some (.ready x :: rest) =>
          let inp := { inp with evs := some rest }
          let hpp := hpp.markProgress
          match x with
          | .ok (.dataItem (.data x)) =>
              if MergeableTy.len x = 0 then (inp, none, hpp)
              else ({ inp with buf := some x }, none, hpp)
          | .ok (.dataItem .rangeComplete) => (inp, some (.ok (.dataItem .rangeComplete)), hpp)
          | .ok (.log x) => (inp, some (.ok (.log x)), hpp)
          | .ok (.stats x) => (inp, some (.ok (.stats x)), hpp)
          | .error e => (inp, some (.error (.inputBoxed e)), hpp)

/-- The loop over the inputs. -/
def pollInps : List (Inp T E) → HaveProgressPending →
    List (Inp T E) × Option (Sitemty2 Unit (Error E)) × HaveProgressPending
  | [], hpp => ([], none, hpp)
  | inp :: inps, hpp =>
      match pollInp inp hpp with
      | (inp, some x, hpp) => (inp :: inps, some x, hpp)
      | (inp, none, hpp) =>
          let x := pollInps inps hpp
          (inp :: x.1, x.2)

/-- Whether an input stays in the list. -/
def retained (inp : Inp T E) : Bool := inp.buf.isSome || inp.evs.isSome

/-- {lit}`poll_all_inp`, with the number of rounds that are left. -/
def pollAllInp : ℕ → Merging T E → Answer (Option (Sitemty2 Unit (Error E))) × Merging T E
  | 0, s => (.ready (some (.error .loopTooMany)), s)
  | n + 1, s =>
      match pollInps s.inps {} with
      | (inps, some x, _) => (.ready (some x), { s with inps := inps })
      | (inps, none, hpp) =>
          let s := { s with inps := inps.filter retained }
          let hpp := if inps.length ≠ s.inps.length then hpp.markProgress else hpp
          if hpp.progress then pollAllInp n s
          else if hpp.pending then (.pending, s)
          else if (s.inps.filter fun inp => inp.buf.isNone).length = 0 then
            (.ready (some (sitem2Data ())), s)
          else (.ready none, s)

/-! ## Draining -/

/-- How a round of {lit}`check_inputs` ends. -/
inductive Drained (T E : Type*) where
  | item (x : Sitemty2 T (Error E)) (s : Merging T E)
  | next (s : Merging T E)

/-- Replaces the buffer of one input. -/
def setBuf (s : Merging T E) (ix : ℕ) (buf : Option T) : Merging T E :=
  { s with inps := s.inps.modify ix fun inp => { inp with buf := buf } }

/-- The rest of a container, or nothing when it is empty. -/
def nonEmpty (b : T) : Option T := if MergeableTy.len b = 0 then none else some b

/-- A drain into the buffer {lit}`evbuf`. -/
def drainToBuf (s : Merging T E) (ix : ℕ) (b2 : T) (i3 : ℕ) (evbuf : T) : Drained T E :=
  let b2len0 := MergeableTy.len b2
  let evbuflen0 := MergeableTy.len evbuf
  if s.lspLimit ≤ evbuflen0 then .item (sitem2Data evbuf) { s with evbuf := none }
  else
    let space := s.lspLimit - evbuflen0
    let ndr := min i3 space
    match MergeableTy.drainInto b2 evbuf 0 ndr with
    | (.notCompatible, b2, evbuf) =>
        .item (sitem2Data evbuf) { s.setBuf ix (nonEmpty b2) with evbuf := none }
    | (_, b2, evbuf) =>
        let s := { s.setBuf ix (nonEmpty b2) with evbuf := some evbuf }
        if b2len0 ≤ MergeableTy.len b2 then .item (.error (.badDrain b2len0 (MergeableTy.len b2))) s
        else if s.lspLimit < MergeableTy.len evbuf then
          .item (.error (.badDrain b2len0 (MergeableTy.len b2))) s
        else if s.lspLimit ≤ MergeableTy.len evbuf then
          .item (sitem2Data evbuf) { s with evbuf := none }
        else .next s

/-- A drain without a buffer. -/
def drainToNew (s : Merging T E) (ix : ℕ) (b2 : T) (i3 : ℕ) : Drained T E :=
  let b2len0 := MergeableTy.len b2
  if b2len0 ≤ i3 ∧ b2len0 ≤ s.lspLimit then .item (sitem2Data b2) (s.setBuf ix none)
  else
    let ndr := min i3 s.lspLimit
    match MergeableTy.drainIntoNew b2 0 ndr with
    | (.notCompatible, _) => .item (.error .notCompatible) (s.setBuf ix none)
    | (.done c, b2) | (.partially c, b2) =>
        let s := s.setBuf ix (nonEmpty b2)
        if b2len0 ≤ MergeableTy.len b2 then .item (.error (.badDrain b2len0 (MergeableTy.len b2))) s
        else if s.lspLimit < MergeableTy.len c then
          .item (.error (.badDrain b2len0 (MergeableTy.len b2))) s
        else if s.lspMinfill ≤ MergeableTy.len c then .item (sitem2Data c) s
        else .next { s with evbuf := some c }

/-- A drain of the first {lit}`i3` events of one input. -/
def drain (s : Merging T E) (ix : ℕ) (b2 : T) (i3 : ℕ) : Drained T E :=
  match s.evbuf with
  | some evbuf => s.drainToBuf ix b2 i3 evbuf
  | none => s.drainToNew ix b2 i3

/-- The number of events that a round may take from the lowest input. -/
def takable (second : Option (ℕ × ℕ)) (b2 : T) : ℕ :=
  match second with
  | none => MergeableTy.len b2
  | some (_, ts2) => FindPpLe.findPpLe b2 ts2

/-- {lit}`check_inputs`, with the number of rounds that are left. -/
def checkInputs : ℕ → Merging T E → Pass (Merging T E) (Sitemty2 T (Error E))
  | 0, s => .item (.error .loopTooMany) s
  | n + 1, s =>
      match s.pollAllInp 200 with
      | (.pending, s) => .pending s
      | (.ready none, s) => .done s
      | (.ready (some (.ok (.dataItem (.data ())))), s) =>
          match s.findNextTs with
          | .error e => .item (.error e) s
          | .ok (none, _) =>
              if s.inps.length = 0 then
                match s.evbuf with
                | some evbuf => .item (sitem2Data evbuf) { s with evbuf := none }
                | none => .done s
              else checkInputs n { s with inps := [] }
          | .ok (some (ix1, _), second) =>
              match s.inps[ix1]?.bind Inp.buf with
              | none => .panic
              | some b2 =>
                  match s.drain ix1 b2 (takable second b2) with
                  | .item x s => .item x s
                  | .next s => checkInputs n s
      | (.ready (some (.ok (.dataItem .rangeComplete))), s) => .item (.ok (.dataItem .rangeComplete)) s
      | (.ready (some (.ok (.log x))), s) => .item (.ok (.log x)) s
      | (.ready (some (.ok (.stats x))), s) => .item (.ok (.stats x)) s
      | (.ready (some (.error e)), s) => .item (.error e) s

end Merging

/-! ## The stream -/

/-- {lit}`LspMerge`, as its {lit}`State` -/
inductive LspMerge (T E : Type*) where
  | merging (s : Merging T E)
  | done

namespace LspMerge

/-- {lit}`new` -/
def new (inps : List (Script (Sitemty2 T E))) (lspLimit : ℕ) : LspMerge T E :=
  .merging {
    inps := inps.map fun x => { evs := some x, buf := none }
    evbuf := none
    lspLimit := lspLimit
    lspMinfill := lspLimit / 3 }

/-- {lit}`poll_next`.  Its loop goes round a second time only to report the end. -/
def pollNext : LspMerge T E → Pass (LspMerge T E) (Sitemty2 T (Error E))
  | .merging s =>
      match s.checkInputs 140000 with
      | .item (.ok x) s => .item (.ok x) (.merging s)
      | .item (.error e) _ => .item (.error e) .done
      | .pending s => .pending (.merging s)
      | .again s => .again (.merging s)
      | .done _ => .done .done
      | .panic => .panic
  | .done => .done .done

end LspMerge

end Model

/-! ## Inputs that carry data -/

section Data

variable {V E : Type*}

/-- The batches that an input will deliver. -/
def batches : Script (Sitemty2 (ContainerEvents V) E) → List (ContainerEvents V)
  | [] => []
  | .ready (sitem2Data c) :: rest => c :: batches rest
  | _ :: rest => batches rest

/-- Every answer of the input is a batch, or pending. -/
def DataOnly (sc : Script (Sitemty2 (ContainerEvents V) E)) : Prop :=
  ∀ x, .ready x ∈ sc → ∃ c, x = sitem2Data c

/-- The longest sequence of empty batches. -/
def emptyRun : List (ContainerEvents V) → ℕ
  | [] => 0
  | c :: cs => max (((c :: cs).takeWhile fun c => c.evs.isEmpty).length) (emptyRun cs)

/-- The empty batches that come next. -/
def nextEmpties (cs : List (ContainerEvents V)) : ℕ := (cs.takeWhile fun c => c.evs.isEmpty).length

theorem nextEmpties_le_emptyRun (cs : List (ContainerEvents V)) : nextEmpties cs ≤ emptyRun cs := by
  cases cs with
  | nil => simp [nextEmpties]
  | cons c cs => exact le_max_left _ _

theorem emptyRun_tail_le (c : ContainerEvents V) (cs : List (ContainerEvents V)) :
    emptyRun cs ≤ emptyRun (c :: cs) := le_max_right _ _

namespace Inp

/-- What an input still delivers, after what it has in its buffer. -/
def upcoming (inp : Inp (ContainerEvents V) E) : List (ContainerEvents V) := batches (inp.evs.getD [])

/-- The events that an input still contributes. -/
def rest (inp : Inp (ContainerEvents V) E) : List (EventSingle V) :=
  ContainerEvents.slotEvents inp.buf ++ ContainerEvents.eventsOf inp.upcoming

/-- The answers that polling the input in this call can still take in. -/
def answers (inp : Inp (ContainerEvents V) E) : ℕ :=
  match inp.buf with
  | some _ => 0
  | none => nextEmpties inp.upcoming + 1

/-- The input has not ended, delivers data only, and has no empty container in its buffer. -/
structure Live (inp : Inp (ContainerEvents V) E) : Prop where
  evs : ∃ sc, inp.evs = some sc ∧ DataOnly sc
  buf : ∀ c, inp.buf = some c → c.evs ≠ []

/-- The answers that the input will give. -/
def size (inp : Inp (ContainerEvents V) E) : ℕ := (inp.evs.getD []).length

end Inp

variable [EventValueType V]

namespace Merging

open ContainerEvents

/-- What one poll of an input does. -/
theorem pollInp_cases {inp : Inp (ContainerEvents V) E} (hlive : inp.Live) (hpp : HaveProgressPending) :
    (inp.buf.isSome ∧ pollInp inp hpp = (inp, none, hpp)) ∨
    (∃ next : Inp (ContainerEvents V) E, pollInp inp hpp = (next, none, hpp.markPending) ∧ next.Live ∧
      next.rest = inp.rest ∧ next.upcoming = inp.upcoming ∧ next.buf = inp.buf ∧ next.size < inp.size) ∨
    (∃ next : Inp (ContainerEvents V) E, pollInp inp hpp = (next, none, hpp.markProgress) ∧
      (next.Live ∨ (next.evs = none ∧ next.buf = none)) ∧
      next.rest = inp.rest ∧ next.size ≤ inp.size ∧
      (retained next = true → next.answers < inp.answers) ∧ 0 < inp.answers ∧
      emptyRun next.upcoming ≤ emptyRun inp.upcoming) := by
  rcases inp with ⟨evs, buf⟩
  rcases hlive with ⟨⟨sc, hevs, hdata⟩, hbuf⟩
  obtain rfl : evs = some sc := hevs
  cases buf with
  | some c =>
      have hlen : c.len ≠ 0 := by
        have hne := hbuf c rfl
        simpa [len] using hne
      exact .inl ⟨rfl, by simp [pollInp, hlen]⟩
  | none =>
      cases sc with
      | nil =>
          refine .inr (.inr ⟨⟨none, none⟩, rfl, .inr ⟨rfl, rfl⟩, rfl, Nat.zero_le _, ?_, ?_, le_rfl⟩)
          · simp [retained]
          · simp [Inp.answers]
      | cons answer rest =>
          have hrest : DataOnly rest := fun x hx => hdata x (List.mem_cons_of_mem _ hx)
          cases answer with
          | pending =>
              exact .inr (.inl ⟨⟨some rest, none⟩, rfl, ⟨⟨rest, rfl, hrest⟩, by simp⟩, rfl, rfl, rfl,
                by simp [Inp.size]⟩)
          | ready x =>
              obtain ⟨c, rfl⟩ := hdata x (List.mem_cons_self ..)
              by_cases hempty : c.evs = []
              · have hlen : c.len = 0 := by simp [len, hempty]
                refine .inr (.inr ⟨⟨some rest, none⟩, by simp [pollInp, hlen],
                  .inl ⟨⟨rest, rfl, hrest⟩, by simp⟩, ?_, by simp [Inp.size], fun _ => ?_, ?_, ?_⟩)
                · simp [Inp.rest, Inp.upcoming, batches, hempty]
                · simp [Inp.answers, Inp.upcoming, batches, nextEmpties, hempty]
                · simp [Inp.answers]
                · exact emptyRun_tail_le _ _
              · have hlen : c.len ≠ 0 := by simpa [len] using hempty
                refine .inr (.inr ⟨⟨some rest, some c⟩, by simp [pollInp, hlen],
                  .inl ⟨⟨rest, rfl, hrest⟩, ?_⟩, ?_, by simp [Inp.size], fun _ => ?_, ?_, ?_⟩)
                · intro d hd
                  simp only [Option.some.injEq] at hd
                  exact hd ▸ hempty
                · simp [Inp.rest, Inp.upcoming, batches]
                · simp [Inp.answers]
                · simp [Inp.answers]
                · exact emptyRun_tail_le _ _

/-- The answers that polling the inputs in this call can still take in. -/
def answers (inps : List (Inp (ContainerEvents V) E)) : ℕ := (inps.map Inp.answers).sum

/-- A bound on the answers that any one call can take in. -/
def answersBound (inps : List (Inp (ContainerEvents V) E)) : ℕ :=
  (inps.map fun inp => emptyRun inp.upcoming + 1).sum

/-- The answers that the inputs will give. -/
def size (inps : List (Inp (ContainerEvents V) E)) : ℕ := (inps.map Inp.size).sum

omit [EventValueType V] in
theorem answers_le_answersBound (inps : List (Inp (ContainerEvents V) E)) :
    answers inps ≤ answersBound inps := by
  induction inps with
  | nil => exact le_rfl
  | cons inp inps ih =>
      have hinp : inp.answers ≤ emptyRun inp.upcoming + 1 := by
        unfold Inp.answers
        split
        · omega
        · exact Nat.add_le_add_right (nextEmpties_le_emptyRun _) 1
      simp only [answers, answersBound, List.map_cons, List.sum_cons] at ih ⊢
      omega

omit [EventValueType V] in
@[simp]
theorem answers_cons (inp : Inp (ContainerEvents V) E) (inps : List (Inp (ContainerEvents V) E)) :
    answers (inp :: inps) = inp.answers + answers inps := List.sum_cons

omit [EventValueType V] in
@[simp]
theorem answersBound_cons (inp : Inp (ContainerEvents V) E) (inps : List (Inp (ContainerEvents V) E)) :
    answersBound (inp :: inps) = emptyRun inp.upcoming + 1 + answersBound inps := List.sum_cons

omit [EventValueType V] in
@[simp]
theorem size_cons (inp : Inp (ContainerEvents V) E) (inps : List (Inp (ContainerEvents V) E)) :
    size (inp :: inps) = inp.size + size inps := List.sum_cons

omit [EventValueType V] in
theorem size_filter_le (p : Inp (ContainerEvents V) E → Bool) (inps : List (Inp (ContainerEvents V) E)) :
    size (inps.filter p) ≤ size inps := by
  induction inps with
  | nil => exact le_rfl
  | cons inp inps ih =>
      rw [List.filter_cons]
      split
      · simpa using ih
      · rw [size_cons]
        omega

/-- What polling all inputs once does. -/
structure PolledOnce (inps : List (Inp (ContainerEvents V) E)) (hpp : HaveProgressPending)
    (x : List (Inp (ContainerEvents V) E) × Option (Sitemty2 Unit (Error E)) × HaveProgressPending) :
    Prop where
  goesOn : x.2.1 = none
  live : ∀ next ∈ x.1, next.Live ∨ (x.2.2.progress ∧ next.evs = none ∧ next.buf = none)
  rest : x.1.map Inp.rest = inps.map Inp.rest
  size_le : size x.1 ≤ size inps
  answers_le : answers (x.1.filter retained) ≤ answers inps
  bound_le : answersBound (x.1.filter retained) ≤ answersBound inps
  keepsMarks : (hpp.progress → x.2.2.progress) ∧ (hpp.pending → x.2.2.pending)
  progress : x.2.2.progress → hpp.progress ∨ answers (x.1.filter retained) < answers inps
  pending : x.2.2.pending → hpp.pending ∨ size x.1 < size inps
  idle : ¬ x.2.2.progress → ¬ x.2.2.pending → x.1 = inps ∧ ∀ inp ∈ inps, inp.buf.isSome

omit [EventValueType V] in
theorem retained_of_live {inp : Inp (ContainerEvents V) E} (hlive : inp.Live) : retained inp = true := by
  rcases hlive.evs with ⟨sc, hevs, _⟩
  simp [retained, hevs]

/-- The loop over the inputs changes nothing of what is left to merge. -/
theorem pollInps_spec {inps : List (Inp (ContainerEvents V) E)} (hlive : ∀ inp ∈ inps, inp.Live)
    (hpp : HaveProgressPending) : PolledOnce inps hpp (pollInps inps hpp) := by
  induction inps generalizing hpp with
  | nil => constructor <;> simp [pollInps]
  | cons inp inps ih =>
      have hinp := hlive inp (List.mem_cons_self ..)
      have hinps := ih fun other hother => hlive other (List.mem_cons_of_mem _ hother)
      rcases pollInp_cases hinp hpp with ⟨hbuf, hpoll⟩ | ⟨next, hpoll, hnext, hrest, hup, hbuf, hsize⟩ |
        ⟨next, hpoll, hnext, hrest, hsize, hanswers, hpos, hrun⟩
      · -- the input has a container already
        have hrec := hinps hpp
        have hkeep := retained_of_live hinp
        have heq : pollInps (inp :: inps) hpp =
            (inp :: (pollInps inps hpp).1, (pollInps inps hpp).2) := by simp [pollInps, hpoll]
        rw [heq]
        constructor
        · exact hrec.goesOn
        · intro other hother
          rcases List.mem_cons.mp hother with rfl | hother
          · exact .inl hinp
          · exact hrec.live other hother
        · simp [hrec.rest]
        · simpa using hrec.size_le
        · simpa [hkeep] using hrec.answers_le
        · simpa [hkeep] using hrec.bound_le
        · exact hrec.keepsMarks
        · simpa [hkeep] using hrec.progress
        · simpa using hrec.pending
        · intro hno hno'
          rcases hrec.idle hno hno' with ⟨hsame, hall⟩
          refine ⟨by simp [hsame], fun other hother => ?_⟩
          rcases List.mem_cons.mp hother with rfl | hother
          · exact hbuf
          · exact hall other hother
      · -- the input is pending
        have hrec := hinps hpp.markPending
        have hkeep := retained_of_live hnext
        have heq : pollInps (inp :: inps) hpp =
            (next :: (pollInps inps hpp.markPending).1, (pollInps inps hpp.markPending).2) := by
          simp [pollInps, hpoll]
        have hpend : (pollInps inps hpp.markPending).2.2.pending = true := hrec.keepsMarks.2 rfl
        have hsame : next.answers = inp.answers := by simp [Inp.answers, hup, hbuf]
        rw [heq]
        constructor
        · exact hrec.goesOn
        · intro other hother
          rcases List.mem_cons.mp hother with rfl | hother
          · exact .inl hnext
          · exact hrec.live other hother
        · simp [hrec.rest, hrest]
        · simpa using Nat.add_le_add hsize.le hrec.size_le
        · simpa [hkeep, hsame] using hrec.answers_le
        · simpa [hkeep, hup] using hrec.bound_le
        · exact ⟨hrec.keepsMarks.1, fun _ => hpend⟩
        · simpa [hkeep, hsame, HaveProgressPending.markPending] using hrec.progress
        · intro _
          exact .inr (by simpa using Nat.add_lt_add_of_lt_of_le hsize hrec.size_le)
        · intro _ hno
          exact absurd hpend hno
      · -- the input has answered
        have hrec := hinps hpp.markProgress
        have heq : pollInps (inp :: inps) hpp =
            (next :: (pollInps inps hpp.markProgress).1, (pollInps inps hpp.markProgress).2) := by
          simp [pollInps, hpoll]
        have hprog : (pollInps inps hpp.markProgress).2.2.progress = true := hrec.keepsMarks.1 rfl
        have hlt : answers ((next :: (pollInps inps hpp.markProgress).1).filter retained) <
            answers (inp :: inps) := by
          have hle := hrec.answers_le
          rw [List.filter_cons]
          split <;> rename_i hkeep
          · have hdrop := hanswers hkeep
            rw [answers_cons, answers_cons]
            omega
          · rw [answers_cons]
            omega
        rw [heq]
        constructor
        · exact hrec.goesOn
        · intro other hother
          rcases List.mem_cons.mp hother with rfl | hother
          · exact hnext.imp_right fun hended => ⟨hprog, hended⟩
          · exact hrec.live other hother
        · simp [hrec.rest, hrest]
        · simpa using Nat.add_le_add hsize hrec.size_le
        · exact hlt.le
        · have hle := hrec.bound_le
          rw [List.filter_cons]
          split
          · rw [answersBound_cons, answersBound_cons]
            omega
          · rw [answersBound_cons]
            omega
        · exact ⟨fun _ => hprog, hrec.keepsMarks.2⟩
        · exact fun _ => .inr hlt
        · intro hmark
          apply (hrec.pending hmark).imp_right
          intro hlt
          simpa using Nat.add_lt_add_of_le_of_lt hsize hlt
        · intro hno _
          exact absurd hprog hno

omit [EventValueType V] in
/-- What is removed from the list has nothing left to merge. -/
theorem flatten_filter_retained {inps : List (Inp (ContainerEvents V) E)}
    (hlive : ∀ inp ∈ inps, inp.Live ∨ (inp.evs = none ∧ inp.buf = none)) :
    ((inps.filter retained).map Inp.rest).flatten = (inps.map Inp.rest).flatten := by
  induction inps with
  | nil => rfl
  | cons inp inps ih =>
      have hrec := ih fun other hother => hlive other (List.mem_cons_of_mem _ hother)
      rcases hlive inp (List.mem_cons_self ..) with hinp | ⟨hevs, hbuf⟩
      · simp [retained_of_live hinp, hrec]
      · simp [retained, hevs, hbuf, hrec, Inp.rest, Inp.upcoming, batches]

/-- What {lit}`poll_all_inp` does with {lit}`n` rounds. -/
structure PolledAll (n : ℕ) (s : Merging (ContainerEvents V) E)
    (x : Answer (Option (Sitemty2 Unit (Error E))) × Merging (ContainerEvents V) E) : Prop where
  frame : x.2 = { s with inps := x.2.inps }
  live : ∀ inp ∈ x.2.inps, inp.Live
  sublist : (x.2.inps.map Inp.rest).Sublist (s.inps.map Inp.rest)
  flatten : (x.2.inps.map Inp.rest).flatten = (s.inps.map Inp.rest).flatten
  size_le : size x.2.inps ≤ size s.inps
  bound_le : answersBound x.2.inps ≤ answersBound s.inps
  outcome : (x.1 = .pending ∧ size x.2.inps < size s.inps) ∨
    (x.1 = .ready (some (sitem2Data ())) ∧ ∀ inp ∈ x.2.inps, inp.buf.isSome) ∨
    (x.1 = .ready (some (.error .loopTooMany)) ∧ n ≤ answers s.inps)

/-- Polling the inputs until all have a container changes nothing of what is left to merge. -/
theorem pollAllInp_spec (n : ℕ) (s : Merging (ContainerEvents V) E) (hlive : ∀ inp ∈ s.inps, inp.Live) :
    PolledAll n s (pollAllInp n s) := by
  induction n generalizing s with
  | zero =>
      exact ⟨rfl, hlive, List.Sublist.refl _, rfl, le_rfl, le_rfl, .inr (.inr ⟨rfl, Nat.zero_le _⟩)⟩
  | succ n ih =>
      have honce := pollInps_spec hlive {}
      rcases hx : pollInps s.inps {} with ⟨inps, stop, hpp⟩
      rw [hx] at honce
      obtain rfl : stop = none := honce.goesOn
      have hends : ∀ inp ∈ inps, inp.Live ∨ (inp.evs = none ∧ inp.buf = none) :=
        fun inp hinp => (honce.live inp hinp).imp_right And.right
      have hkeptLive : ∀ inp ∈ inps.filter retained, inp.Live := by
        intro inp hinp
        rcases List.mem_filter.mp hinp with ⟨hinp, hkeep⟩
        rcases hends inp hinp with hinp | ⟨hevs, hbuf⟩
        · exact hinp
        · simp [retained, hevs, hbuf] at hkeep
      have hsub : ((inps.filter retained).map Inp.rest).Sublist (s.inps.map Inp.rest) := by
        rw [← honce.rest]
        exact List.filter_sublist.map _
      have hflat : ((inps.filter retained).map Inp.rest).flatten = (s.inps.map Inp.rest).flatten := by
        rw [flatten_filter_retained hends, honce.rest]
      have hsize : size (inps.filter retained) ≤ size inps := size_filter_le _ _
      have hsizeS : size (inps.filter retained) ≤ size s.inps := hsize.trans honce.size_le
      -- without progress no input has ended
      have hsameLen : ¬ hpp.progress → inps.filter retained = inps := by
        intro hno
        rw [List.filter_eq_self]
        intro inp hinp
        rcases honce.live inp hinp with hinp | ⟨hprog, _⟩
        · exact retained_of_live hinp
        · exact absurd hprog hno
      by_cases hprog : hpp.progress = true
      · have heq : pollAllInp (n + 1) s = pollAllInp n { s with inps := inps.filter retained } := by
          simp only [pollAllInp, hx]
          split
          · simp [HaveProgressPending.markProgress]
          · rfl
        have hlt := (honce.progress hprog).resolve_left (by simp)
        have hrec := ih { s with inps := inps.filter retained } hkeptLive
        rw [heq]
        refine ⟨hrec.frame, hrec.live, hrec.sublist.trans hsub, hrec.flatten.trans hflat,
          hrec.size_le.trans hsizeS, hrec.bound_le.trans honce.bound_le, ?_⟩
        rcases hrec.outcome with ⟨hres, hless⟩ | hdata | ⟨hres, hmany⟩
        · exact .inl ⟨hres, hless.trans_le hsizeS⟩
        · exact .inr (.inl hdata)
        · exact .inr (.inr ⟨hres, Nat.succ_le_of_lt (hmany.trans_lt hlt)⟩)
      · have hsame := hsameLen hprog
        by_cases hpend : hpp.pending = true
        · have heq : pollAllInp (n + 1) s = (.pending, { s with inps := inps.filter retained }) := by
            simp only [pollAllInp, hx]
            simp [hsame, hprog, hpend]
          have hlt := (honce.pending hpend).resolve_left (by simp)
          rw [heq]
          exact ⟨rfl, hkeptLive, hsub, hflat, hsizeS, honce.bound_le, .inl ⟨rfl, hsize.trans_lt hlt⟩⟩
        · rcases honce.idle hprog hpend with ⟨hinps, hbufs⟩
          have hnone : (inps.filter fun inp => inp.buf.isNone) = [] := by
            rw [List.filter_eq_nil_iff]
            intro inp hinp
            have hbuf := hbufs inp (hinps ▸ hinp)
            simp [Option.isSome_iff_ne_none.mp hbuf]
          have heq : pollAllInp (n + 1) s =
              (.ready (some (sitem2Data ())), { s with inps := inps.filter retained }) := by
            simp only [pollAllInp, hx]
            simp [hsame, hprog, hpend, hnone]
          rw [heq]
          refine ⟨rfl, hkeptLive, hsub, hflat, hsizeS, honce.bound_le, .inr (.inl ⟨rfl, ?_⟩)⟩
          intro inp hinp
          exact hbufs inp (hinps ▸ (List.mem_filter.mp hinp).1)

/-! ## Choosing an input -/

/-- An input as a lane of the merger, for its buffer. -/
def lane (inp : Inp (ContainerEvents V) E) : Lane (ContainerEvents V) :=
  { inp := none, item := inp.buf }

/-- Where every input has a buffer, the scan is the one of the merger. -/
theorem findNextTsFrom_eq_scan {inps : List (Inp (ContainerEvents V) E)} (hbuf : ∀ inp ∈ inps, inp.buf.isSome)
    (ix : ℕ) (acc : Tslows) :
    findNextTsFrom inps ix acc =
      (Merger.scan (inps.map lane) ix acc).mapError fun _ => (.findNextTsOnEmptyBuf : Error E) := by
  induction inps generalizing ix acc with
  | nil => rfl
  | cons inp inps ih =>
      rcases Option.isSome_iff_exists.mp (hbuf inp (List.mem_cons_self ..)) with ⟨buf, hsome⟩
      have hrec := ih fun other hother => hbuf other (List.mem_cons_of_mem _ hother)
      simp only [findNextTsFrom, hsome, List.map_cons, Merger.scan, lane]
      cases MergeableTy.tsMin buf with
      | none => rfl
      | some ts => exact hrec _ _

/-- With a container in every buffer, the two lowest timestamps are found. -/
theorem findNextTs_spec {s : Merging (ContainerEvents V) E} (hlive : ∀ inp ∈ s.inps, inp.Live)
    (hbuf : ∀ inp ∈ s.inps, inp.buf.isSome) :
    ∃ tslows, s.findNextTs = .ok tslows ∧ Merger.Lows (s.inps.map lane) tslows := by
  rw [findNextTs, findNextTsFrom_eq_scan hbuf]
  cases hscan : Merger.scan (s.inps.map lane) 0 (none, none) with
  | ok tslows =>
      refine ⟨tslows, rfl, ?_⟩
      have hlows := Merger.scan_lows (T := ContainerEvents V) [] (.zero (by simp)) hscan
      simpa using hlows
  | error i =>
      rcases Merger.scan_error (T := ContainerEvents V) [] hscan with ⟨pre, l, post, item, heq, _, hitem, hmin⟩
      have hmem : l ∈ s.inps.map lane := by
        rw [List.nil_append] at heq
        rw [heq]
        simp
      rcases List.mem_map.mp hmem with ⟨inp, hinp, rfl⟩
      have hne := (hlive inp hinp).buf item hitem
      exact absurd (ContainerEvents.tsMin_eq_none.mp hmin) hne

/-- What the lowest timestamps say about a list of inputs. -/
structure Lowest (pre post : List (Inp (ContainerEvents V) E)) (b2 : ContainerEvents V) (i3 : ℕ) : Prop where
  pos : 0 < i3
  le_len : i3 ≤ b2.len
  lowest : ∀ ev ∈ b2.evs.take i3, ∀ other ∈ pre ++ post, ∀ y ∈ other.rest, ev.ts ≤ y.ts

omit [EventValueType V] in
/-- Splitting a mapped list splits the list. -/
theorem map_lane_split {inps : List (Inp (ContainerEvents V) E)} {pre post : List (Lane (ContainerEvents V))}
    {l : Lane (ContainerEvents V)} (heq : pre ++ l :: post = inps.map lane) :
    ∃ pre' inp post', inps = pre' ++ inp :: post' ∧ pre'.map lane = pre ∧ lane inp = l ∧
      post'.map lane = post := by
  rcases List.map_eq_append_iff.mp heq.symm with ⟨pre', rest, rfl, hpre, hrest⟩
  rcases List.map_eq_cons_iff.mp hrest with ⟨inp, post', rfl, hinp, hpost⟩
  exact ⟨pre', inp, post', rfl, hpre, hinp, hpost⟩

/-- The lowest input, and how many of its events come before all others. -/
theorem findNextTs_cases {s : Merging (ContainerEvents V) E} (hlive : ∀ inp ∈ s.inps, inp.Live)
    (hbuf : ∀ inp ∈ s.inps, inp.buf.isSome) (hsorted : ∀ inp ∈ s.inps, TsSorted inp.rest) :
    (s.inps = [] ∧ s.findNextTs = .ok (none, none)) ∨
      ∃ pre inp post b2 t second, s.inps = pre ++ inp :: post ∧ inp.buf = some b2 ∧
        s.findNextTs = .ok (some (pre.length, t), second) ∧ Lowest pre post b2 (takable second b2) := by
  rcases findNextTs_spec hlive hbuf with ⟨tslows, hfind, hlows⟩
  generalize hlanes : s.inps.map lane = lanes at hlows
  cases hlows with
  | zero hothers =>
      left
      refine ⟨?_, hfind⟩
      cases hinps : s.inps with
      | nil => rfl
      | cons inp inps =>
          have hsome := hbuf inp (by simp [hinps])
          have hnone := hothers (lane inp) (by simp [← hlanes, hinps])
          simp only [lane] at hnone
          simp [hnone] at hsome
  | @one pre post l b2 t hitem hmin hothers =>
      right
      rcases map_lane_split hlanes.symm with ⟨pre', inp, post', hinps, rfl, rfl, rfl⟩
      have hne := (hlive inp (by simp [hinps])).buf b2 hitem
      refine ⟨pre', inp, post', b2, t, none, hinps, hitem, by simpa using hfind, ?_, le_rfl, ?_⟩
      · simpa [takable, ContainerEvents.len, List.length_pos_iff] using hne
      · intro ev _ other hother y hy
        have hsome := hbuf other (by rcases List.mem_append.mp hother with h | h <;> simp [hinps, h])
        have hnone := hothers (lane other) (by simpa [← List.map_append] using ⟨other, by simpa using hother, rfl⟩)
        simp only [lane] at hnone
        simp [hnone] at hsome
  | @two pre post l b2 t i1 ts2 hitem hmin hle hothers hsecond hbefore =>
      right
      rcases map_lane_split hlanes.symm with ⟨pre', inp, post', hinps, rfl, rfl, rfl⟩
      rcases ContainerEvents.tsMin_eq_some.mp hmin with ⟨ev0, evs0, hevs, rfl⟩
      refine ⟨pre', inp, post', b2, ev0.ts, some (i1, ts2), hinps, hitem, by simpa using hfind, ?_, ?_, ?_⟩
      · simp [takable, FindPpLe.findPpLe, partitionPoint, hevs, hle]
      · exact partitionPoint_le_length _ _
      · intro ev hev other hother y hy
        have hevle : ev.ts ≤ ts2 := by
          simp only [takable, FindPpLe.findPpLe, take_partitionPoint_eq_takeWhile] at hev
          simpa using List.mem_takeWhile_imp hev
        have hmem : other ∈ s.inps := by
          rcases List.mem_append.mp hother with h | h <;> simp [hinps, h]
        rcases Option.isSome_iff_exists.mp (hbuf other hmem) with ⟨c, hc⟩
        have hlaneMem : lane other ∈ pre'.map lane ++ post'.map lane := by
          rw [← List.map_append]
          exact List.mem_map_of_mem hother
        rcases hothers (lane other) hlaneMem c hc with ⟨u, hu, hts⟩
        rcases ContainerEvents.tsMin_eq_some.mp hu with ⟨ev1, evs1, hevs1, rfl⟩
        have hrest : other.rest = ev1 :: (evs1 ++ ContainerEvents.eventsOf other.upcoming) := by
          simp [Inp.rest, hc, hevs1]
        have hhead := hsorted other hmem
        rw [hrest] at hhead hy
        exact hevle.trans (hts.trans (SortedBy.head_le hhead hy))

/-! ## Moving events -/

/-- What holds between two calls: {lit}`out` has been handed out of {lit}`all`. -/
structure Inv (all : List (EventSingle V)) (s : Merging (ContainerEvents V) E)
    (out : List (EventSingle V)) : Prop where
  left : Interleaved EventSingle.ts all (out ++ slotEvents s.evbuf) (s.inps.map Inp.rest)
  live : ∀ inp ∈ s.inps, inp.Live
  evbuf : ∀ c, s.evbuf = some c → c.evs ≠ [] ∧ c.len < s.lspLimit
  limit : 0 < s.lspLimit
  minfill : s.lspMinfill ≤ s.lspLimit

variable {all out : List (EventSingle V)} {s : Merging (ContainerEvents V) E}
  {pre post : List (Inp (ContainerEvents V) E)} {inp : Inp (ContainerEvents V) E}

omit [EventValueType V] in
/-- The number of events in the buffer. -/
theorem Inv.length_slotEvents (hinv : Inv all s out) : (slotEvents s.evbuf).length < s.lspLimit := by
  cases hbuf : s.evbuf with
  | none => simpa using hinv.limit
  | some c => simpa [len] using (hinv.evbuf c hbuf).2

omit [EventValueType V] in
/-- Every event is handed out, in the buffer, or left. -/
theorem Inv.length_all (hinv : Inv all s out) :
    out.length + (slotEvents s.evbuf).length + ((s.inps.map Inp.rest).flatten).length = all.length := by
  have hlen := hinv.left.perm.length_eq
  simpa only [List.length_append] using hlen

omit [EventValueType V] in
/-- Polling the inputs keeps what holds between two calls. -/
theorem PolledAll.inv {n : ℕ} {x : Answer (Option (Sitemty2 Unit (Error E))) × Merging (ContainerEvents V) E}
    (hpoll : PolledAll n s x) (hinv : Inv all s out) : Inv all x.2 out := by
  have hframe := hpoll.frame
  constructor
  · have hleft := hinv.left.drop_nil hpoll.sublist hpoll.flatten
    rw [hframe]
    exact hleft
  · exact hpoll.live
  · rw [hframe]
    exact hinv.evbuf
  · rw [hframe]
    exact hinv.limit
  · rw [hframe]
    exact hinv.minfill

omit [EventValueType V] in
theorem setBuf_eq (hinps : s.inps = pre ++ inp :: post) (buf : Option (ContainerEvents V)) :
    s.setBuf pre.length buf = { s with inps := pre ++ { inp with buf := buf } :: post } := by
  rw [setBuf, hinps]
  congr 1
  clear hinps
  induction pre with
  | nil => rfl
  | cons first pre ih => simpa using ih

@[simp]
theorem slotEvents_nonEmpty (c : ContainerEvents V) : slotEvents (nonEmpty c) = c.evs := by
  by_cases hempty : c.evs = []
  · simp [nonEmpty, len, hempty]
  · simp [nonEmpty, len, hempty]

theorem nonEmpty_ne_nil {c d : ContainerEvents V} (hsome : nonEmpty c = some d) : d.evs ≠ [] := by
  unfold nonEmpty at hsome
  split at hsome <;> rename_i hlen
  · simp at hsome
  · simp only [Option.some.injEq] at hsome
    subst d
    simpa [len] using hlen

/-- The state after {lit}`k` events of the lowest input moved to the buffer {lit}`evbuf`. -/
def moved (s : Merging (ContainerEvents V) E) (pre post : List (Inp (ContainerEvents V) E))
    (inp : Inp (ContainerEvents V) E) (buf evbuf : Option (ContainerEvents V)) :
    Merging (ContainerEvents V) E :=
  { s with inps := pre ++ { inp with buf := buf } :: post, evbuf := evbuf }

variable {b2 : ContainerEvents V} {i3 : ℕ}

omit [EventValueType V] in
/-- Events of the lowest input may move when they come before all others. -/
theorem Inv.move (hinv : Inv all s out) (hinps : s.inps = pre ++ inp :: post) (hbuf : inp.buf = some b2)
    (hlow : Lowest pre post b2 i3) {k : ℕ} (hk : k ≤ i3) {buf : Option (ContainerEvents V)}
    (hrest : slotEvents buf = b2.evs.drop k) (hne : ∀ c, buf = some c → c.evs ≠ []) :
    Interleaved EventSingle.ts all (out ++ slotEvents s.evbuf ++ b2.evs.take k)
        ((pre ++ { inp with buf := buf } :: post).map Inp.rest) ∧
      ∀ other ∈ pre ++ { inp with buf := buf } :: post, other.Live := by
  constructor
  · have hleft := hinv.left
    rw [hinps, List.map_append, List.map_cons] at hleft
    have hsplit : inp.rest = b2.evs.take k ++ Inp.rest { inp with buf := buf } := by
      have hup : Inp.upcoming { inp with buf := buf } = inp.upcoming := rfl
      simp [Inp.rest, hbuf, hup, hrest, ← List.append_assoc]
    rw [hsplit] at hleft
    rw [List.map_append, List.map_cons]
    apply hleft.take
    intro ev hev other hother y hy
    rw [← List.map_append] at hother
    rcases List.mem_map.mp hother with ⟨o, ho, rfl⟩
    have hev' : ev ∈ b2.evs.take i3 := List.take_subset_take_left _ hk hev
    exact hlow.lowest ev hev' o ho y hy
  · have hlive := hinv.live
    rw [hinps] at hlive
    intro other hother
    rcases List.mem_append.mp hother with hother | hother
    · exact hlive other (List.mem_append_left _ hother)
    · rcases List.mem_cons.mp hother with rfl | hother
      · exact ⟨(hlive inp (by simp)).evs, hne⟩
      · exact hlive other (List.mem_append_right _ (List.mem_cons_of_mem _ hother))

omit [EventValueType V] in
theorem size_moved (hinps : s.inps = pre ++ inp :: post) (buf evbuf : Option (ContainerEvents V)) :
    size (s.moved pre post inp buf evbuf).inps = size s.inps := by
  simp [size, moved, hinps, Inp.size]

omit [EventValueType V] in
theorem answersBound_moved (hinps : s.inps = pre ++ inp :: post) (buf evbuf : Option (ContainerEvents V)) :
    answersBound (s.moved pre post inp buf evbuf).inps = answersBound s.inps := by
  simp [answersBound, moved, hinps, Inp.upcoming]

/-- What a drain of the lowest input leads to: a chunk, or more events in the buffer. -/
inductive DrainResult (all out : List (EventSingle V)) (s : Merging (ContainerEvents V) E) :
    Drained (ContainerEvents V) E → Prop
  | chunk {c : ContainerEvents V} {next : Merging (ContainerEvents V) E} (hinv : Inv all next (out ++ c.evs))
      (hne : c.evs ≠ []) (hlen : c.len ≤ s.lspLimit) (hlimit : next.lspLimit = s.lspLimit)
      (hsize : size next.inps = size s.inps) (hbound : answersBound next.inps = answersBound s.inps) :
      DrainResult all out s (.item (sitem2Data c) next)
  | more {next : Merging (ContainerEvents V) E} (hinv : Inv all next out)
      (hmore : (slotEvents s.evbuf).length < (slotEvents next.evbuf).length)
      (hlimit : next.lspLimit = s.lspLimit)
      (hsize : size next.inps = size s.inps) (hbound : answersBound next.inps = answersBound s.inps) :
      DrainResult all out s (.next next)

theorem drainToBuf_spec (hinv : Inv all s out) (hinps : s.inps = pre ++ inp :: post)
    (hbuf : inp.buf = some b2) (hlow : Lowest pre post b2 i3) {evbuf : ContainerEvents V}
    (hevbuf : s.evbuf = some evbuf) :
    DrainResult all out s (s.drainToBuf pre.length b2 i3 evbuf) := by
  rcases hinv.evbuf evbuf hevbuf with ⟨hne, hlen⟩
  have hpos := hlow.pos
  have hlenB := hlow.le_len
  unfold len at hlen hlenB
  set k := min i3 (s.lspLimit - evbuf.len) with hk
  have hkpos : 0 < k := by unfold len at hk; omega
  have hki : k ≤ i3 := min_le_left _ _
  have htake : (b2.evs.take k).length = k := by
    rw [List.length_take]
    omega
  have hspace : evbuf.evs.length + k ≤ s.lspLimit := by unfold len at hk; omega
  set b2' : ContainerEvents V := { b2 with evs := b2.evs.drop k } with hb2'
  set evbuf' : ContainerEvents V := { evbuf with evs := evbuf.evs ++ b2.evs.take k } with hevbuf'
  have hslot : slotEvents (nonEmpty b2') = b2.evs.drop k := by simp [hb2']
  rcases hinv.move hinps hbuf hlow hki hslot fun c hc => nonEmpty_ne_nil hc with ⟨hleft, hlive⟩
  rw [hevbuf, slotEvents_some, List.append_assoc] at hleft
  have hdrain : s.drainToBuf pre.length b2 i3 evbuf =
      if s.lspLimit ≤ evbuf'.len then .item (sitem2Data evbuf') (s.moved pre post inp (nonEmpty b2') none)
      else .next (s.moved pre post inp (nonEmpty b2') (some evbuf')) := by
    have hno : ¬ s.lspLimit ≤ evbuf.len := by unfold len; omega
    have hdrop : ¬ b2.len ≤ b2'.len := by
      simp only [len, hb2', List.length_drop]
      omega
    have hover : ¬ s.lspLimit < evbuf'.len := by
      simp only [len, hevbuf', List.length_append, htake]
      omega
    simp only [drainToBuf, mergeable_len, mergeable_drainInto, drain_prefix, hno, if_false, ← hk, ← hb2',
      ← hevbuf', hdrop, hover, setBuf_eq hinps]
    rfl
  rw [hdrain]
  split <;> rename_i hfull
  · refine .chunk ⟨?_, hlive, by simp [moved], hinv.limit, hinv.minfill⟩ ?_ ?_ rfl
      (size_moved hinps _ _) (answersBound_moved hinps _ _)
    · simpa [moved, hevbuf'] using hleft
    · simp [hevbuf', hne]
    · simp only [len, hevbuf', List.length_append, htake]
      exact hspace
  · refine .more ⟨?_, hlive, ?_, hinv.limit, hinv.minfill⟩ ?_ rfl (size_moved hinps _ _)
      (answersBound_moved hinps _ _)
    · simpa [moved, hevbuf'] using hleft
    · intro c hc
      obtain rfl : evbuf' = c := by simpa [moved] using hc
      exact ⟨by simp [hevbuf', hne], not_le.mp hfull⟩
    · simp only [moved, hevbuf, slotEvents_some, hevbuf', List.length_append, htake]
      omega

theorem drainToNew_spec (hinv : Inv all s out) (hinps : s.inps = pre ++ inp :: post)
    (hbuf : inp.buf = some b2) (hlow : Lowest pre post b2 i3) (hevbuf : s.evbuf = none) :
    DrainResult all out s (s.drainToNew pre.length b2 i3) := by
  have hpos := hlow.pos
  have hlenB := hlow.le_len
  have hlimit := hinv.limit
  by_cases hwhole : b2.len ≤ i3 ∧ b2.len ≤ s.lspLimit
  · -- the whole container goes out
    have hslot : slotEvents (none : Option (ContainerEvents V)) = b2.evs.drop i3 := by
      have hall : b2.evs.length ≤ i3 := hwhole.1
      simp [List.drop_eq_nil_of_le hall]
    rcases hinv.move hinps hbuf hlow le_rfl hslot (by simp) with ⟨hleft, hlive⟩
    have htake : b2.evs.take i3 = b2.evs := List.take_of_length_le hwhole.1
    rw [htake, hevbuf, slotEvents_none, List.append_nil] at hleft
    have hdrain : s.drainToNew pre.length b2 i3 = .item (sitem2Data b2) (s.moved pre post inp none none) := by
      simp only [drainToNew, mergeable_len, hwhole, and_self, if_true, setBuf_eq hinps, moved, hevbuf]
    rw [hdrain]
    refine .chunk ⟨?_, hlive, by simp [moved], hinv.limit, hinv.minfill⟩ ?_ hwhole.2 rfl
      (size_moved hinps _ _) (answersBound_moved hinps _ _)
    · simpa [moved] using hleft
    · have hpos' : 0 < b2.evs.length := lt_of_lt_of_le hpos hlenB
      exact List.ne_nil_of_length_pos hpos'
  · unfold len at hlenB
    set k := min i3 s.lspLimit with hk
    have hki : k ≤ i3 := min_le_left _ _
    have hkpos : 0 < k := by omega
    have hkl : k ≤ s.lspLimit := min_le_right _ _
    have htake : (b2.evs.take k).length = k := by
      rw [List.length_take]
      omega
    have hne : b2.evs.take k ≠ [] := List.ne_nil_of_length_pos (by omega)
    set b2' : ContainerEvents V := { b2 with evs := b2.evs.drop k } with hb2'
    set c : ContainerEvents V := { evs := b2.evs.take k } with hc
    have hslot : slotEvents (nonEmpty b2') = b2.evs.drop k := by simp [hb2']
    rcases hinv.move hinps hbuf hlow hki hslot fun c hc => nonEmpty_ne_nil hc with ⟨hleft, hlive⟩
    rw [hevbuf, slotEvents_none, List.append_nil] at hleft
    have hdrain : s.drainToNew pre.length b2 i3 =
        if s.lspMinfill ≤ c.len then .item (sitem2Data c) (s.moved pre post inp (nonEmpty b2') none)
        else .next (s.moved pre post inp (nonEmpty b2') (some c)) := by
      have hdrop : ¬ b2.len ≤ b2'.len := by
        simp only [len, hb2', List.length_drop]
        omega
      have hover : ¬ s.lspLimit < c.len := by
        simp only [len, hc, htake]
        omega
      simp only [drainToNew, mergeable_len, mergeable_drainIntoNew, drainIntoNew_prefix, hwhole, if_false,
        ← hk, ← hb2', ← hc, hdrop, hover, setBuf_eq hinps, moved, hevbuf]
    rw [hdrain]
    have hclen : c.len ≤ s.lspLimit := by
      simp only [len, hc, htake]
      exact hkl
    split <;> rename_i hfull
    · refine .chunk ⟨?_, hlive, by simp [moved], hinv.limit, hinv.minfill⟩ hne hclen rfl
        (size_moved hinps _ _) (answersBound_moved hinps _ _)
      simpa [moved, hc] using hleft
    · refine .more ⟨?_, hlive, ?_, hinv.limit, hinv.minfill⟩ ?_ rfl (size_moved hinps _ _)
        (answersBound_moved hinps _ _)
      · simpa [moved, hc] using hleft
      · intro d hd
        obtain rfl : c = d := by simpa [moved] using hd
        exact ⟨hne, (not_le.mp hfull).trans_le hinv.minfill⟩
      · simp only [moved, hevbuf, slotEvents_none, slotEvents_some, hc, htake, List.length_nil]
        exact hkpos

/-- A drain of the lowest input hands out a chunk or fills the buffer. -/
theorem drain_spec (hinv : Inv all s out) (hinps : s.inps = pre ++ inp :: post)
    (hbuf : inp.buf = some b2) (hlow : Lowest pre post b2 i3) :
    DrainResult all out s (s.drain pre.length b2 i3) := by
  unfold drain
  split <;> rename_i hevbuf
  · exact drainToBuf_spec hinv hinps hbuf hlow hevbuf
  · exact drainToNew_spec hinv hinps hbuf hlow hevbuf

/-! ## One call -/

/-- What one call of {lit}`check_inputs` with {lit}`n` rounds leads to. -/
inductive CallResult (all out : List (EventSingle V)) (s : Merging (ContainerEvents V) E) (n : ℕ) :
    Pass (Merging (ContainerEvents V) E) (Sitemty2 (ContainerEvents V) (Error E)) → Prop
  | pending {next : Merging (ContainerEvents V) E} (hinv : Inv all next out)
      (hlimit : next.lspLimit = s.lspLimit) (hsize : size next.inps < size s.inps)
      (hbound : answersBound next.inps ≤ answersBound s.inps) : CallResult all out s n (.pending next)
  | chunk {c : ContainerEvents V} {next : Merging (ContainerEvents V) E} (hinv : Inv all next (out ++ c.evs))
      (hne : c.evs ≠ []) (hlen : c.len ≤ s.lspLimit) (hlimit : next.lspLimit = s.lspLimit)
      (hsize : size next.inps ≤ size s.inps) (hbound : answersBound next.inps ≤ answersBound s.inps) :
      CallResult all out s n (.item (sitem2Data c) next)
  | tooMany {next : Merging (ContainerEvents V) E}
      (hmany : n + (slotEvents s.evbuf).length < s.lspLimit ∨ 200 ≤ answersBound s.inps) :
      CallResult all out s n (.item (.error .loopTooMany) next)
  | done {next : Merging (ContainerEvents V) E} (hperm : out.Perm all) : CallResult all out s n (.done next)

omit [EventValueType V] in
/-- What holds after a round of the call holds after the call. -/
theorem CallResult.of_round {n : ℕ} {mid : Merging (ContainerEvents V) E}
    {x : Pass (Merging (ContainerEvents V) E) (Sitemty2 (ContainerEvents V) (Error E))}
    (hcall : CallResult all out mid n x) (hlimit : mid.lspLimit = s.lspLimit)
    (hmore : (slotEvents s.evbuf).length < (slotEvents mid.evbuf).length)
    (hsize : size mid.inps ≤ size s.inps) (hbound : answersBound mid.inps ≤ answersBound s.inps) :
    CallResult all out s (n + 1) x := by
  cases hcall with
  | pending hinv hlim hsz hbd => exact .pending hinv (hlim.trans hlimit) (hsz.trans_le hsize) (hbd.trans hbound)
  | chunk hinv hne hlen hlim hsz hbd =>
      exact .chunk hinv hne (hlimit ▸ hlen) (hlim.trans hlimit) (hsz.trans hsize) (hbd.trans hbound)
  | tooMany hmany =>
      apply CallResult.tooMany
      rcases hmany with hrounds | hanswers
      · left
        omega
      · exact .inr (hanswers.trans hbound)
  | done hperm => exact .done hperm

/-- One call hands out what comes first of what is left. -/
theorem checkInputs_spec (n : ℕ) {s : Merging (ContainerEvents V) E} (hinv : Inv all s out) :
    CallResult all out s n (checkInputs n s) := by
  induction n generalizing s with
  | zero =>
      apply CallResult.tooMany
      left
      simpa using hinv.length_slotEvents
  | succ n ih =>
      have hpoll := pollAllInp_spec 200 s hinv.live
      rcases hx : pollAllInp 200 s with ⟨answer, mid⟩
      rw [hx] at hpoll
      have hmid : Inv all mid out := hpoll.inv hinv
      have hframe : mid = { s with inps := mid.inps } := hpoll.frame
      have hslot : mid.evbuf = s.evbuf := by rw [hframe]
      have hlim : mid.lspLimit = s.lspLimit := by rw [hframe]
      rcases hpoll.outcome with ⟨rfl, hsize⟩ | ⟨rfl, hbufs⟩ | ⟨rfl, hmany⟩
      · simp only [checkInputs, hx]
        exact .pending hmid hlim hsize hpoll.bound_le
      · have hsorted : ∀ inp ∈ mid.inps, TsSorted inp.rest := fun inp hinp =>
          hmid.left.rest_sorted _ (List.mem_map_of_mem hinp)
        rcases findNextTs_cases (s := mid) hmid.live hbufs hsorted with ⟨hnil, hfind⟩ |
          ⟨pre, inp, post, b2, t, second, hinps, hbuf, hfind, hlow⟩
        · -- all inputs have ended
          have hzero : mid.inps.length = 0 := by simp [hnil]
          cases hevbuf : mid.evbuf with
          | some evbuf =>
              have hbuf := hmid.evbuf evbuf hevbuf
              have heq : checkInputs (n + 1) s =
                  .item (sitem2Data evbuf) { mid with evbuf := none } := by
                simp only [checkInputs, hx, hfind, hzero, hevbuf, if_true]
              rw [heq]
              refine .chunk ⟨?_, hmid.live, by simp, hmid.limit, hmid.minfill⟩ hbuf.1 ?_ hlim
                hpoll.size_le hpoll.bound_le
              · have hleft := hmid.left
                rw [hevbuf, slotEvents_some] at hleft
                simpa using hleft
              · exact hlim ▸ hbuf.2.le
          | none =>
              have heq : checkInputs (n + 1) s = .done mid := by
                simp only [checkInputs, hx, hfind, hzero, hevbuf, if_true]
              rw [heq]
              have hperm := hmid.left.perm
              rw [hevbuf, hnil] at hperm
              exact .done (by simpa using hperm)
        · -- the lowest input is drained
          have hget : mid.inps[pre.length]?.bind Inp.buf = some b2 := by simp [hinps, hbuf]
          have hdrain := drain_spec hmid hinps hbuf hlow
          have heq : checkInputs (n + 1) s =
              match mid.drain pre.length b2 (takable second b2) with
              | .item x s => .item x s
              | .next s => checkInputs n s := by
            simp only [checkInputs, hx, hfind, hget]
            cases mid.drain pre.length b2 (takable second b2) <;> rfl
          rw [heq]
          generalize mid.drain pre.length b2 (takable second b2) = result at hdrain
          cases hdrain with
          | chunk hnext hne hlen hlimit hsize hbound =>
              exact .chunk hnext hne (hlim ▸ hlen) (hlimit.trans hlim) (hsize.trans_le hpoll.size_le)
                (hbound.trans_le hpoll.bound_le)
          | more hnext hmore hlimit hsize hbound =>
              exact (ih hnext).of_round (hlimit.trans hlim) (hslot ▸ hmore) (hsize.trans_le hpoll.size_le)
                (hbound.trans_le hpoll.bound_le)
      · simp only [checkInputs, hx]
        exact .tooMany (.inr (hmany.trans (answers_le_answersBound _)))

end Merging

/-! ## Runs -/

namespace LspMerge

open ContainerEvents

/-- An input of batches as a polled stream of items. -/
def ofBatches : Script (ContainerEvents V) → Script (Sitemty2 (ContainerEvents V) E)
  | [] => []
  | .pending :: rest => .pending :: ofBatches rest
  | .ready c :: rest => .ready (sitem2Data c) :: ofBatches rest

omit [EventValueType V] in
@[simp]
theorem batches_ofBatches (sc : Script (ContainerEvents V)) :
    batches (ofBatches (E := E) sc) = Script.items sc := by
  induction sc with
  | nil => rfl
  | cons a sc ih => cases a <;> simp [ofBatches, batches, ih]

omit [EventValueType V] in
theorem dataOnly_ofBatches (sc : Script (ContainerEvents V)) : DataOnly (ofBatches (E := E) sc) := by
  induction sc with
  | nil => simp [ofBatches, DataOnly]
  | cons a sc ih =>
      intro x hx
      cases a with
      | pending => exact ih x (by simpa [ofBatches] using hx)
      | ready c =>
          simp only [ofBatches, List.mem_cons, Answer.ready.injEq] at hx
          rcases hx with rfl | hx
          · exact ⟨c, rfl⟩
          · exact ih x hx

/-- What holds in a run that has handed out {lit}`ys`.  The bounds say when a loop can have given up. -/
def RunInv (all : List (EventSingle V)) (limit bound : ℕ)
    (ys : List (Sitemty2 (ContainerEvents V) (Error E))) : LspMerge (ContainerEvents V) E → Prop
  | .merging s =>
      ∃ cs : List (ContainerEvents V), ys = cs.map (fun c => sitem2Data c) ∧ Merging.Inv all s (eventsOf cs) ∧
        (∀ c ∈ cs, c.evs ≠ [] ∧ c.len ≤ limit) ∧ s.lspLimit = limit ∧ Merging.answersBound s.inps ≤ bound
  | .done =>
      ∃ cs : List (ContainerEvents V), ys = cs.map (fun c => sitem2Data c) ++ [.error .loopTooMany] ∧
        TsSorted (eventsOf cs) ∧ (∃ rest, (eventsOf cs ++ rest).Perm all) ∧
        (∀ c ∈ cs, c.evs ≠ [] ∧ c.len ≤ limit) ∧ (140000 < limit ∨ 200 ≤ bound)

/-- What is left to do in a run. -/
def work : LspMerge (ContainerEvents V) E → ℕ
  | .merging s =>
      1 + Merging.size s.inps + ((slotEvents s.evbuf).length + ((s.inps.map Inp.rest).flatten).length)
  | .done => 0

/-- Every call keeps what holds in a run and leaves less to do. -/
theorem pollNext_step {all : List (EventSingle V)} {limit bound : ℕ}
    {ys : List (Sitemty2 (ContainerEvents V) (Error E))} {st : LspMerge (ContainerEvents V) E}
    (hinv : RunInv all limit bound ys st) :
    st.pollNext.Ensures ys fun zs next => RunInv all limit bound zs next ∧ work next < work st := by
  cases st with
  | done => trivial
  | merging s =>
      rcases hinv with ⟨cs, rfl, hinv, hcs, rfl, hbound⟩
      have hcall := Merging.checkInputs_spec 140000 hinv
      simp only [pollNext]
      generalize s.checkInputs 140000 = result at hcall
      have hall := hinv.length_all
      cases hcall with
      | pending hnext hlimit hsize hbd =>
          have hall' := hnext.length_all
          refine ⟨⟨cs, rfl, hnext, hcs, hlimit, hbd.trans hbound⟩, ?_⟩
          simp only [work]
          omega
      | @chunk c next hnext hne hlen hlimit hsize hbd =>
          have hall' := hnext.length_all
          have hpos := List.length_pos_iff.mpr hne
          refine ⟨⟨cs ++ [c], by simp, by simpa using hnext, ?_, hlimit, hbd.trans hbound⟩, ?_⟩
          · intro d hd
            rcases List.mem_append.mp hd with hd | hd
            · exact hcs d hd
            · rw [List.mem_singleton.mp hd]
              exact ⟨hne, hlen⟩
          · simp only [work, List.length_append] at hall' ⊢
            omega
      | tooMany hmany =>
          refine ⟨⟨cs, rfl, (sortedBy_append.mp hinv.left.sorted).1, ?_, hcs, ?_⟩, by simp [work]⟩
          · refine ⟨slotEvents s.evbuf ++ (s.inps.map Inp.rest).flatten, ?_⟩
            rw [← List.append_assoc]
            exact hinv.left.perm
          · rcases hmany with hrounds | hanswers
            · left
              omega
            · exact .inr (hanswers.trans hbound)
      | done hperm => trivial

omit [EventValueType V] in
/-- Before the first call everything is left. -/
theorem runInv_new {inps : List (Script (ContainerEvents V))} {limit : ℕ} (hlimit : 0 < limit)
    (hsorted : ∀ inp ∈ inps, TsSorted (eventsOf (Script.items inp))) :
    RunInv (E := E) (inps.flatMap fun inp => eventsOf (Script.items inp)) limit
      (inps.map fun inp => emptyRun (Script.items inp) + 1).sum [] (new (inps.map ofBatches) limit) := by
  refine ⟨[], rfl, ⟨?_, ?_, by simp, hlimit, Nat.div_le_self _ _⟩, by simp, rfl, ?_⟩
  · have hrests : (((inps.map ofBatches).map fun x => ({ evs := some x, buf := none } :
        Inp (ContainerEvents V) E)).map Inp.rest) = inps.map fun inp => eventsOf (Script.items inp) := by
      simp [Inp.rest, Inp.upcoming]
    rw [hrests, List.flatMap_def]
    apply Interleaved.start
    intro rest hrest
    rcases List.mem_map.mp hrest with ⟨inp, hinp, rfl⟩
    exact hsorted inp hinp
  · intro inp hinp
    simp only [List.mem_map, exists_exists_and_eq_and] at hinp
    rcases hinp with ⟨sc, _, rfl⟩
    exact ⟨⟨_, rfl, dataOnly_ofBatches sc⟩, by simp⟩
  · simp [Merging.answersBound, Inp.upcoming, Function.comp_def]

/-- The chunks are the events of the inputs, merged in order; unless a loop gives up, they are all of
them. -/
theorem merges (inps : List (Script (ContainerEvents V))) {limit : ℕ} (hlimit : 0 < limit)
    (hsorted : ∀ inp ∈ inps, TsSorted (eventsOf (Script.items inp))) :
    ∃ (xs : List (Sitemty2 (ContainerEvents V) (Error E))) (cs : List (ContainerEvents V)),
      Drains pollNext (new (inps.map ofBatches) limit) xs ∧
      TsSorted (eventsOf cs) ∧ (∀ c ∈ cs, c.evs ≠ [] ∧ c.len ≤ limit) ∧
      ((xs = cs.map (fun c => sitem2Data c) ∧
          (eventsOf cs).Perm (inps.flatMap fun inp => eventsOf (Script.items inp))) ∨
        (xs = cs.map (fun c => sitem2Data c) ++ [.error .loopTooMany] ∧
          (∃ rest, (eventsOf cs ++ rest).Perm (inps.flatMap fun inp => eventsOf (Script.items inp))) ∧
          (140000 < limit ∨ 200 ≤ (inps.map fun inp => emptyRun (Script.items inp) + 1).sum))) := by
  rcases drains_of_measure work (runInv_new hlimit hsorted) (fun ys st _ hinv => pollNext_step (E := E) hinv)
    with ⟨xs, t, u, hrun, hinv, hdone⟩
  cases t with
  | merging s =>
      rcases hinv with ⟨cs, rfl, hinv, hcs, rfl, _⟩
      have hcall := Merging.checkInputs_spec 140000 hinv
      refine ⟨_, cs, ⟨_, u, hrun, hdone⟩, (sortedBy_append.mp hinv.left.sorted).1, hcs, .inl ⟨rfl, ?_⟩⟩
      simp only [pollNext] at hdone
      generalize s.checkInputs 140000 = result at hcall hdone
      cases hcall with
      | pending => simp at hdone
      | chunk => simp at hdone
      | tooMany => simp at hdone
      | done hperm => exact hperm
  | done =>
      rcases hinv with ⟨cs, rfl, hsort, hrest, hcs, hmany⟩
      exact ⟨_, cs, ⟨_, u, hrun, hdone⟩, hsort, hcs, .inr ⟨rfl, hrest, hmany⟩⟩

/-- Two stores, of which one is pending at first. -/
theorem merges_two :
    ∃ (xs : List (Sitemty2 (ContainerEvents UInt64) (Error Empty))) (cs : List (ContainerEvents UInt64)),
      Drains pollNext (new ([[.ready { evs := [⟨1, 5⟩, ⟨3, 6⟩] }], [.pending, .ready { evs := [⟨2, 7⟩] }]].map
        ofBatches) 2) xs ∧
      TsSorted (eventsOf cs) ∧ (∀ c ∈ cs, c.evs ≠ [] ∧ c.len ≤ 2) ∧
      ((xs = cs.map (fun c => sitem2Data c) ∧ (eventsOf cs).Perm [⟨1, 5⟩, ⟨3, 6⟩, ⟨2, 7⟩]) ∨
        (xs = cs.map (fun c => sitem2Data c) ++ [.error .loopTooMany] ∧
          (∃ rest, (eventsOf cs ++ rest).Perm [⟨1, 5⟩, ⟨3, 6⟩, ⟨2, 7⟩]) ∧ (140000 < 2 ∨ 200 ≤ 2))) :=
  merges (V := UInt64) (E := Empty)
    [[.ready { evs := [⟨1, 5⟩, ⟨3, 6⟩] }], [.pending, .ready { evs := [⟨2, 7⟩] }]] (by decide)
    (by simp [SortedBy])

/-- Two hundred empty batches at once make the stream fail. -/
theorem not_merges_empties :
    ¬ ∃ (xs : List (Sitemty2 (ContainerEvents UInt64) (Error Empty))) (cs : List (ContainerEvents UInt64)),
      Drains pollNext (new [ofBatches (List.replicate 200 (.ready { evs := [] }))] 1) xs ∧
      xs = cs.map (fun c => sitem2Data c) := by
  rintro ⟨xs, cs, hdrains, hxs⟩
  have hkinds : (drive (pollNext (T := ContainerEvents UInt64) (E := Empty)) 2
      (new [ofBatches (List.replicate 200 (.ready { evs := [] }))] 1)).map (List.map Except.isOk) =
        some [false] := by
    decide +kernel
  rcases Option.map_eq_some_iff.mp hkinds with ⟨ys, hdrive, hys⟩
  obtain rfl := hdrains.unique (drive_drains 2 hdrive)
  rw [hxs, List.map_map] at hys
  cases cs <;> simp [Except.isOk, Except.toBool] at hys

end LspMerge

end Data

end Scylla
end Daqbuf
