import Daqbuf.Items.ContainerEvents
import Daqbuf.Items.Merger
/-!
# Merging Partitions

The partitions of a series, each of which is a sequence of events, are merged.  A partition is opened only when the
events at hand reach up to its time, in the order in which the partitions are given.  This is what
{lit}`LspFwdMspMulti` comes to.

Main results:

- Theorem {lit}`Merging.merge_perm`: all events of all partitions come out, whatever the order of the partitions.
- Theorem {lit}`Merging.merge_filter`: partitions without events do not matter, as long as they do not hold back others.
-/

namespace Daqbuf
namespace Scylla
namespace PartMerge

open Items Search
open Items.Merger (Tslows)

/-- The errors of a merge -/
inductive Error where
  | findNextTsWithoutBuf
  | logic
  | panicked
  deriving DecidableEq, Repr

/-- An input: the events in its buffer, and those that its partition still has. -/
structure Inp (V : Type) where
  buf : List (EventSingle V)
  evs : List (EventSingle V)
  deriving DecidableEq, Repr

/-- A partition: its time in milliseconds, and the events that are read of it. -/
abbrev Part (V : Type) := ℕ × List (EventSingle V)

/-- The partitions to be opened, in this order, and the inputs. -/
structure Merging (V : Type) where
  msps : List (Part V)
  inps : List (Inp V)
  deriving DecidableEq, Repr

variable {V : Type}

/-! ## The merge -/

/-- The limit that {lit}`LspFwdMspSingleStream` takes for a page -/
def pageLen (limit : ℕ) : ℕ := min (max limit 1) 70312

/-- An empty buffer gets the next page, and an input that has ended goes. -/
def pollInp (limit : ℕ) (inp : Inp V) : Option (Inp V) :=
  if inp.buf ≠ [] then some inp
  else if inp.evs = [] then none
  else some ⟨inp.evs.take (pageLen limit), inp.evs.drop (pageLen limit)⟩

/-- The inputs with events in their buffers -/
def pollAllInp (limit : ℕ) (inps : List (Inp V)) : List (Inp V) := inps.filterMap (pollInp limit)

/-- The lowest timestamps of the buffers -/
def findNextTsFrom : List (Inp V) → ℕ → Tslows → Except Error Tslows
  | [], _, tslows => .ok tslows
  | inp :: inps, ix, tslows =>
      match inp.buf with
      | [] => .error .findNextTsWithoutBuf
      | ev :: _ => findNextTsFrom inps (ix + 1) (tslows.insert ix ev.ts)

/-- What can be handed out: the time up to which nothing may be missing, the events that can be handed out
then, and the inputs without these. -/
def choose (inps : List (Inp V)) : Except Error (Option (ℕ × List (EventSingle V) × List (Inp V))) :=
  match findNextTsFrom inps 0 (none, none) with
  | .error e => .error e
  | .ok (none, _) => .ok none
  | .ok (some (ix, _), second) =>
      match inps[ix]? with
      | none => .error .panicked
      | some inp =>
          match second with
          | none =>
              match inp.buf.getLast? with
              | none => .error .panicked
              | some ev => .ok (some (ev.ts, inp.buf, inps.set ix { inp with buf := [] }))
          | some (_, ts2) =>
              let i3 := partitionPoint (fun ev => decide (ev.ts ≤ ts2)) inp.buf
              .ok (some (ts2, inp.buf.take i3, inps.set ix { inp with buf := inp.buf.drop i3 }))

/-- The next partition begins at the time or before it. -/
def Opens (msps : List (Part V)) (ts : ℕ) : Prop := ∃ m ∈ msps.head?, m.1 * 1000000 ≤ ts

instance (msps : List (Part V)) (ts : ℕ) : Decidable (Opens msps ts) :=
  inferInstanceAs (Decidable (∃ m ∈ msps.head?, m.1 * 1000000 ≤ ts))

theorem opens_nil (ts : ℕ) : ¬ Opens ([] : List (Part V)) ts := nofun

theorem opens_cons (m : Part V) (msps : List (Part V)) (ts : ℕ) : Opens (m :: msps) ts ↔ m.1 * 1000000 ≤ ts := by
  generalize hbeg : 1000000 = c
  constructor
  · rintro ⟨_, ⟨⟩, hle⟩
    exact hbeg ▸ hle
  · intro hle
    exact ⟨m, rfl, hbeg ▸ hle⟩

/-- A round of the merge: it is done, or fails, or hands some events out; to open a partition is to hand out none. -/
inductive Round (V : Type) where
  | done
  | failed (e : Error)
  | next (evs : List (EventSingle V)) (s : Merging V)
  deriving DecidableEq, Repr

namespace Merging

/-- The next partition is opened. -/
def openNext (s : Merging V) : Round V :=
  match s.msps with
  | [] => .done
  | m :: msps => .next [] ⟨msps, s.inps ++ [⟨[], m.2⟩]⟩

/-- The inputs are polled, and then a partition is opened, or events are handed out. -/
def round (limit : ℕ) (s : Merging V) : Round V :=
  let inps := pollAllInp limit s.inps
  match choose inps with
  | .error e => .failed e
  | .ok none => openNext ⟨s.msps, inps⟩
  | .ok (some (ts, evs, inps')) =>
      if Opens s.msps ts then openNext ⟨s.msps, inps⟩
      else if evs = [] then .failed .logic
      else .next evs ⟨s.msps, inps'⟩

/-- The events that are still to come out -/
def events (s : Merging V) : List (EventSingle V) :=
  s.inps.flatMap (fun inp => inp.buf ++ inp.evs) ++ s.msps.flatMap Prod.snd

/-- A bound on the number of rounds -/
def size (s : Merging V) : ℕ := s.msps.length + s.events.length

end Merging

/-! ## Polling the inputs -/

variable {limit : ℕ} {inps : List (Inp V)} {inp : Inp V}

/-- The events of some inputs -/
def eventsOf (inps : List (Inp V)) : List (EventSingle V) := inps.flatMap fun inp => inp.buf ++ inp.evs

theorem pageLen_pos (limit : ℕ) : 0 < pageLen limit := by
  unfold pageLen
  omega

/-- After the poll every input has events in its buffer. -/
theorem buf_pollAllInp (limit : ℕ) (inps : List (Inp V)) : ∀ inp ∈ pollAllInp limit inps, inp.buf ≠ [] := by
  intro inp hinp
  obtain ⟨old, -, hold⟩ := List.mem_filterMap.mp hinp
  unfold pollInp at hold
  split_ifs at hold with hbuf hevs
  · cases hold
    exact hbuf
  · cases hold
    rw [Ne, List.take_eq_nil_iff, not_or]
    exact ⟨(pageLen_pos limit).ne', hevs⟩

/-- Inputs with events in their buffers stay as they are. -/
theorem pollAllInp_of_buf (hbuf : ∀ inp ∈ inps, inp.buf ≠ []) : pollAllInp limit inps = inps := by
  have hsome : inps.filterMap (pollInp limit) = inps.filterMap some :=
    List.filterMap_congr fun inp hinp => if_pos (hbuf inp hinp)
  rw [pollAllInp, hsome, List.filterMap_some]

/-- Polling once more changes nothing. -/
theorem pollAllInp_pollAllInp : pollAllInp limit (pollAllInp limit inps) = pollAllInp limit inps :=
  pollAllInp_of_buf (buf_pollAllInp limit inps)

/-- An input without events goes. -/
theorem pollAllInp_append_nil : pollAllInp limit (inps ++ [⟨[], []⟩]) = pollAllInp limit inps := by
  rw [pollAllInp, List.filterMap_append]
  exact List.append_nil _

/-- Polling keeps the events. -/
theorem eventsOf_pollAllInp : eventsOf (pollAllInp limit inps) = eventsOf inps := by
  induction inps with
  | nil => rfl
  | cons inp inps ih =>
      have hcons : eventsOf (inp :: inps) = inp.buf ++ inp.evs ++ eventsOf inps := rfl
      rw [hcons, ← ih, pollAllInp, List.filterMap_cons]
      unfold pollInp
      split_ifs with hbuf hevs
      · rfl
      · rw [not_not.mp hbuf, hevs]
        rfl
      · rw [not_not.mp hbuf, List.nil_append]
        change inp.evs.take (pageLen limit) ++ inp.evs.drop (pageLen limit) ++ _ = _
        rw [List.take_append_drop]
        rfl

/-! ## Choosing events -/

/-- The first of the lowest times is that of an input, and the second one is not below it. -/
structure Lowest (inps : List (Inp V)) (tslows : Tslows) : Prop where
  empty : tslows.1 = none → inps = [] ∧ tslows.2 = none
  first : ∀ ix ts, tslows.1 = some (ix, ts) → ∃ inp ev, inps[ix]? = some inp ∧ inp.buf.head? = some ev ∧ ev.ts = ts
  le : ∀ ix ts ix2 ts2, tslows.1 = some (ix, ts) → tslows.2 = some (ix2, ts2) → ts ≤ ts2

/-- One more input -/
theorem Lowest.insert {tslows : Tslows} {ev : EventSingle V} (h : Lowest inps tslows) (hev : inp.buf.head? = some ev) :
    Lowest (inps ++ [inp]) (tslows.insert inps.length ev.ts) := by
  have hnew : ∃ i e, (inps ++ [inp])[inps.length]? = some i ∧ i.buf.head? = some e ∧ e.ts = ev.ts :=
    ⟨inp, ev, List.getElem?_concat_length, hev, rfl⟩
  have hold : ∀ ix ts, tslows.1 = some (ix, ts) →
      ∃ i e, (inps ++ [inp])[ix]? = some i ∧ i.buf.head? = some e ∧ e.ts = ts := by
    intro ix ts hfirst
    obtain ⟨i, e, hi, he, hts⟩ := h.first ix ts hfirst
    exact ⟨i, e, List.getElem?_append_left (List.getElem?_eq_some_iff.mp hi).1 ▸ hi, he, hts⟩
  obtain ⟨first, second⟩ := tslows
  cases first with
  | none =>
      have hsecond : second = none := (h.empty rfl).2
      constructor
      · intro h
        cases h
      · rintro ix ts ⟨⟩
        exact hnew
      · intro ix ts ix2 ts2 _ hts2
        rw [Tslows.insert, hsecond] at hts2
        cases hts2
  | some a =>
      have hle := h.le a.1 a.2
      unfold Tslows.insert
      simp only
      split_ifs with hlt
      · constructor
        · intro h
          cases h
        · rintro ix ts ⟨⟩
          exact hnew
        · rintro ix ts ix2 ts2 ⟨⟩ ⟨⟩
          exact hlt.le
      · cases second with
        | none =>
            constructor
            · intro h
              cases h
            · exact hold
            · rintro ix ts ix2 ts2 ⟨⟩ ⟨⟩
              exact not_lt.mp hlt
        | some b =>
            simp only
            split_ifs with hlt2
            · constructor
              · intro h
                cases h
              · exact hold
              · rintro ix ts ix2 ts2 ⟨⟩ ⟨⟩
                exact not_lt.mp hlt
            · constructor
              · intro h
                cases h
              · exact hold
              · exact h.le

/-- With events in every buffer, the lowest times are found. -/
theorem findNextTsFrom_lowest {pre : List (Inp V)} {tslows : Tslows} (h : Lowest pre tslows)
    (hbuf : ∀ inp ∈ inps, inp.buf ≠ []) :
    ∃ tslows', findNextTsFrom inps pre.length tslows = .ok tslows' ∧ Lowest (pre ++ inps) tslows' := by
  induction inps generalizing pre tslows with
  | nil =>
      rw [List.append_nil]
      exact ⟨tslows, rfl, h⟩
  | cons inp inps ih =>
      obtain ⟨hne, hrest⟩ := List.forall_mem_cons.mp hbuf
      obtain ⟨ev, evs, hcons⟩ := List.exists_cons_of_ne_nil hne
      have hhead : inp.buf.head? = some ev := by
        rw [hcons]
        rfl
      obtain ⟨tslows', hfind, hlowest⟩ := ih (h.insert hhead) hrest
      rw [List.length_append, List.length_singleton] at hfind
      rw [List.append_assoc] at hlowest
      refine ⟨tslows', ?_, hlowest⟩
      rw [findNextTsFrom, hcons]
      exact hfind

/-- Handing out a first part of the buffer of an input -/
theorem eventsOf_set {ix : ℕ} (hix : inps[ix]? = some inp) (n : ℕ) :
    (inp.buf.take n ++ eventsOf (inps.set ix { inp with buf := inp.buf.drop n })).Perm (eventsOf inps) := by
  obtain ⟨hlt, hget⟩ := List.getElem?_eq_some_iff.mp hix
  obtain ⟨pre, post, hsplit, -, hset⟩ := @List.exists_of_set _ _ { inp with buf := inp.buf.drop n } _ hlt
  rw [hset, hsplit, hget]
  unfold eventsOf
  rw [List.flatMap_append, List.flatMap_append, List.flatMap_cons, List.flatMap_cons, ← List.append_assoc]
  refine (List.perm_append_comm.append_right _).trans ?_
  rw [List.append_assoc, ← List.append_assoc (inp.buf.take n), ← List.append_assoc (inp.buf.take n),
    List.take_append_drop]

/-- With events in every buffer, some can be chosen. -/
theorem choose_spec (hbuf : ∀ inp ∈ inps, inp.buf ≠ []) :
    (inps = [] ∧ choose inps = .ok none) ∨
      ∃ ts evs inps', choose inps = .ok (some (ts, evs, inps')) ∧ evs ≠ [] ∧
        (evs ++ eventsOf inps').Perm (eventsOf inps) := by
  have hstart : Lowest ([] : List (Inp V)) (none, none) := ⟨fun _ => ⟨rfl, rfl⟩, nofun, nofun⟩
  obtain ⟨⟨first, second⟩, hfind, hlowest⟩ := findNextTsFrom_lowest hstart hbuf
  rw [List.length_nil] at hfind
  rw [List.nil_append] at hlowest
  unfold choose
  rw [hfind]
  cases first with
  | none => exact .inl ⟨(hlowest.empty rfl).1, rfl⟩
  | some a =>
      obtain ⟨ix, ts⟩ := a
      obtain ⟨inp, ev, hix, hev, hts⟩ := hlowest.first ix ts rfl
      obtain ⟨rest, hcons⟩ := List.head?_eq_some_iff.mp hev
      right
      simp only [hix]
      cases second with
      | none =>
          have hlast : inp.buf.getLast? = some (inp.buf.getLast (hcons ▸ List.cons_ne_nil _ _)) :=
            List.getLast?_eq_some_getLast _
          have hset := eventsOf_set hix inp.buf.length
          rw [List.take_length, List.drop_length] at hset
          simp only [hlast]
          exact ⟨_, _, _, rfl, hcons ▸ List.cons_ne_nil _ _, hset⟩
      | some b =>
          have hle : ts ≤ b.2 := hlowest.le ix ts b.1 b.2 rfl rfl
          refine ⟨_, _, _, rfl, ?_, eventsOf_set hix _⟩
          have hfirst : ev.ts ≤ b.2 := hts.trans_le hle
          rw [take_partitionPoint_eq_takeWhile, hcons, List.takeWhile_cons]
          simp [hfirst]

namespace Merging

/-! ## Rounds -/

variable {s s' : Merging V} {evs : List (EventSingle V)}

theorem openNext_cases (msps : List (Part V)) (inps : List (Inp V)) :
    (msps = [] ∧ openNext ⟨msps, inps⟩ = .done) ∨
      ∃ m rest, msps = m :: rest ∧ openNext ⟨msps, inps⟩ = .next [] ⟨rest, inps ++ [⟨[], m.2⟩]⟩ := by
  cases msps with
  | nil => exact .inl ⟨rfl, rfl⟩
  | cons m rest => exact .inr ⟨m, rest, rfl, rfl⟩

theorem events_eq (s : Merging V) : s.events = eventsOf s.inps ++ s.msps.flatMap Prod.snd := rfl

/-- To open a partition is to move its events to the inputs. -/
theorem events_open (m : Part V) (rest : List (Part V)) (inps : List (Inp V)) :
    events ⟨rest, inps ++ [⟨[], m.2⟩]⟩ = events ⟨m :: rest, inps⟩ := by
  rw [events_eq, events_eq, eventsOf, List.flatMap_append, List.append_assoc]
  congr 1
  change ([] ++ m.2 ++ []) ++ rest.flatMap Prod.snd = _
  rw [List.nil_append, List.append_nil, List.flatMap_cons]

/-- A round that does not end the merge hands events out or opens a partition, and it loses no event. -/
theorem round_next (h : s.round limit = .next evs s') : (evs ++ s'.events).Perm s.events ∧ s'.size < s.size := by
  have hopen : ∀ {inps : List (Inp V)}, eventsOf inps = eventsOf s.inps → openNext ⟨s.msps, inps⟩ = .next evs s' →
      (evs ++ s'.events).Perm s.events ∧ s'.size < s.size := by
    intro inps hinps hnext
    obtain ⟨-, hdone⟩ | ⟨m, rest, hmsps, heq⟩ := openNext_cases s.msps inps
    · rw [hdone] at hnext
      cases hnext
    · rw [heq] at hnext
      cases hnext
      have hevents : events ⟨rest, inps ++ [⟨[], m.2⟩]⟩ = s.events := by
        rw [events_open, events_eq, events_eq, hinps, hmsps]
      refine ⟨hevents ▸ List.Perm.refl _, ?_⟩
      rw [size, size, hevents, hmsps, List.length_cons]
      change rest.length + _ < rest.length + 1 + _
      omega
  unfold round at h
  simp only at h
  obtain ⟨-, hchoose⟩ | ⟨ts, evs', inps', hchoose, hne, hperm⟩ := choose_spec (buf_pollAllInp limit s.inps)
  · rw [hchoose] at h
    exact hopen eventsOf_pollAllInp h
  · simp only [hchoose] at h
    split_ifs at h with hopens
    · exact hopen eventsOf_pollAllInp h
    · cases h
      rw [eventsOf_pollAllInp] at hperm
      have hall : (evs ++ events ⟨s.msps, inps'⟩).Perm s.events := by
        rw [events_eq, events_eq, ← List.append_assoc]
        exact hperm.append_right _
      refine ⟨hall, ?_⟩
      have hlen := hall.length_eq
      have hpos := List.length_pos_iff.mpr hne
      rw [List.length_append] at hlen
      rw [size, size]
      change s.msps.length + _ < s.msps.length + _
      omega

/-- No round fails. -/
theorem round_ne_failed (s : Merging V) (e : Error) : s.round limit ≠ .failed e := by
  have hopen : ∀ inps : List (Inp V), openNext ⟨s.msps, inps⟩ ≠ .failed e := by
    intro inps hfailed
    obtain ⟨-, hdone⟩ | ⟨m, rest, -, heq⟩ := openNext_cases s.msps inps
    · rw [hdone] at hfailed
      cases hfailed
    · rw [heq] at hfailed
      cases hfailed
  unfold round
  simp only
  obtain ⟨-, hchoose⟩ | ⟨ts, evs, inps', hchoose, hne, -⟩ := choose_spec (buf_pollAllInp limit s.inps)
  · rw [hchoose]
    exact hopen _
  · simp only [hchoose]
    split_ifs
    · exact hopen _
    · nofun

/-- When the merge is done no event is left. -/
theorem round_done (h : s.round limit = .done) : s.events = [] := by
  unfold round at h
  simp only at h
  obtain ⟨hinps, hchoose⟩ | ⟨ts, evs, inps', hchoose, hne, -⟩ := choose_spec (buf_pollAllInp limit s.inps)
  · rw [hchoose] at h
    obtain ⟨hmsps, -⟩ | ⟨m, rest, -, heq⟩ := openNext_cases s.msps (pollAllInp limit s.inps)
    · have hevs : eventsOf s.inps = [] := by
        rw [← @eventsOf_pollAllInp V limit, hinps]
        rfl
      rw [events_eq, hevs, hmsps]
      rfl
    · rw [heq] at h
      cases h
  · simp only [hchoose] at h
    split_ifs at h with hopens
    obtain ⟨m, hm, -⟩ := hopens
    obtain ⟨hmsps, -⟩ | ⟨m, rest, -, heq⟩ := openNext_cases s.msps (pollAllInp limit s.inps)
    · rw [hmsps] at hm
      cases hm
    · rw [heq] at h
      cases h

/-- The events that come out of the merge, and the error that it ends with -/
def merge (limit : ℕ) (s : Merging V) : List (EventSingle V) × Option Error :=
  match _h : s.round limit with
  | .done => ([], none)
  | .failed e => ([], some e)
  | .next evs s' => (evs ++ (merge limit s').1, (merge limit s').2)
termination_by s.size
decreasing_by all_goals exact (round_next _h).2

theorem merge_next (h : s.round limit = .next evs s') :
    merge limit s = (evs ++ (merge limit s').1, (merge limit s').2) := by
  rw [merge]
  split
  · rename_i hround
    rw [h] at hround
    cases hround
  · rename_i hround
    rw [h] at hround
    cases hround
  · rename_i hround
    rw [h] at hround
    cases hround
    rfl

theorem merge_done (h : s.round limit = .done) : merge limit s = ([], none) := by
  rw [merge]
  split
  · rfl
  · rename_i hround
    rw [h] at hround
    cases hround
  · rename_i hround
    rw [h] at hround
    cases hround

/-- All events of all partitions come out, whatever the order of the partitions, and the merge does not fail. -/
theorem merge_perm (limit : ℕ) (s : Merging V) : (merge limit s).1.Perm s.events ∧ (merge limit s).2 = none := by
  induction hn : s.size using Nat.strong_induction_on generalizing s with
  | _ n ih =>
      cases hround : s.round limit with
      | done =>
          rw [merge_done hround, round_done hround]
          exact ⟨.nil, rfl⟩
      | failed e => exact absurd hround (round_ne_failed s e)
      | next evs s' =>
          obtain ⟨hperm, hsize⟩ := round_next hround
          obtain ⟨hrest, herr⟩ := ih s'.size (hn ▸ hsize) s' rfl
          rw [merge_next hround]
          exact ⟨(hrest.append_left evs).trans hperm, herr⟩

/-! ## Partitions without events -/

variable {msps rest : List (Part V)} {m : Part V}

/-- Merges of which the first rounds agree -/
theorem merge_congr {t : Merging V} (h : s.round limit = t.round limit) : merge limit s = merge limit t := by
  cases hround : t.round limit with
  | done => rw [merge_done (h.trans hround), merge_done hround]
  | failed e => exact absurd hround (round_ne_failed t e)
  | next evs s' => rw [merge_next (h.trans hround), merge_next hround]

/-- A round begins with a poll. -/
theorem round_congr {inps' : List (Inp V)} (h : pollAllInp limit inps = pollAllInp limit inps') :
    round limit ⟨msps, inps⟩ = round limit ⟨msps, inps'⟩ := by
  unfold round
  simp only [h]

/-- Polling the inputs beforehand changes nothing. -/
theorem merge_poll : merge limit ⟨msps, pollAllInp limit inps⟩ = merge limit ⟨msps, inps⟩ :=
  merge_congr (round_congr pollAllInp_pollAllInp)

/-- An opened partition without events -/
theorem merge_append_nil : merge limit ⟨msps, inps ++ [⟨[], []⟩]⟩ = merge limit ⟨msps, inps⟩ :=
  merge_congr (round_congr pollAllInp_append_nil)

/-- A round in which the next partition is opened, if there is one -/
theorem round_eq_openNext (hopens : choose (pollAllInp limit inps) = .ok none ∨
    ∃ ts evs inps', choose (pollAllInp limit inps) = .ok (some (ts, evs, inps')) ∧ Opens msps ts) :
    round limit ⟨msps, inps⟩ = openNext ⟨msps, pollAllInp limit inps⟩ := by
  unfold round
  obtain hnone | ⟨ts, evs, inps', hsome, hts⟩ := hopens
  · simp only [hnone]
  · simp only [hsome, if_pos hts]

/-- A round in which events are handed out -/
theorem round_eq_next {ts : ℕ} {evs : List (EventSingle V)} {inps' : List (Inp V)}
    (hchoose : choose (pollAllInp limit inps) = .ok (some (ts, evs, inps'))) (hopens : ¬ Opens msps ts) (hne : evs ≠ []) :
    round limit ⟨msps, inps⟩ = .next evs ⟨msps, inps'⟩ := by
  unfold round
  simp only [hchoose, if_neg hopens, if_neg hne]

/-- Where the next round opens a partition, this may have been opened before. -/
theorem merge_open (hround : round limit ⟨m :: rest, inps⟩ = openNext ⟨m :: rest, pollAllInp limit inps⟩) :
    merge limit ⟨m :: rest, inps⟩ = merge limit ⟨rest, pollAllInp limit inps ++ [⟨[], m.2⟩]⟩ := by
  rw [merge_next hround]
  rfl

/-- The inputs decide alone whether a partition is opened, but for its time. -/
theorem round_cases (limit : ℕ) (inps : List (Inp V)) :
    (∀ msps, round limit ⟨msps, inps⟩ = openNext ⟨msps, pollAllInp limit inps⟩) ∨
      ∃ ts evs inps', ∀ msps, round limit ⟨msps, inps⟩ =
        if Opens msps ts then openNext ⟨msps, pollAllInp limit inps⟩ else .next evs ⟨msps, inps'⟩ := by
  unfold round
  simp only
  obtain ⟨-, hchoose⟩ | ⟨ts, evs, inps', hchoose, hne, -⟩ := choose_spec (buf_pollAllInp limit inps)
  · left
    intro msps
    rw [hchoose]
  · right
    refine ⟨ts, evs, inps', fun msps => ?_⟩
    simp only [hchoose, if_neg hne]

/-- A partition without events does not hold back one with events. -/
def HoldsNone (msps : List (Part V)) : Prop := msps.Pairwise fun a b => a.2 = [] → b.2 ≠ [] → a.1 ≤ b.1

/-- The partitions with events -/
def nonempty (msps : List (Part V)) : List (Part V) := msps.filter fun m => m.2 ≠ []

theorem nonempty_cons_of_ne (hm : m.2 ≠ []) : nonempty (m :: rest) = m :: nonempty rest :=
  List.filter_cons_of_pos (decide_eq_true hm)

theorem nonempty_cons_of_eq (hm : m.2 = []) : nonempty (m :: rest) = nonempty rest := by
  apply List.filter_cons_of_neg
  rw [decide_eq_true_eq, not_not]
  exact hm

/-- The next partition with events is not opened before the next partition. -/
theorem opens_of_nonempty {ts : ℕ} (hholds : HoldsNone msps) (hopens : Opens (nonempty msps) ts) : Opens msps ts := by
  obtain ⟨f, hf, hle⟩ := hopens
  cases msps with
  | nil => cases hf
  | cons m rest =>
      refine ⟨m, rfl, ?_⟩
      by_cases hm : m.2 = []
      · rw [nonempty_cons_of_eq hm] at hf
        obtain ⟨hrest, hne⟩ := List.mem_filter.mp (List.mem_of_mem_head? hf)
        have hbefore := (List.pairwise_cons.mp hholds).1 f hrest hm (of_decide_eq_true hne)
        exact (Nat.mul_le_mul_right _ hbefore).trans hle
      · rw [nonempty_cons_of_ne hm] at hf
        obtain rfl : m = f := by simpa using hf
        exact hle

/-- Partitions without events do not matter, as long as they do not hold back others. -/
theorem merge_filter (limit : ℕ) (inps : List (Inp V)) (hholds : HoldsNone msps) :
    merge limit ⟨msps, inps⟩ = merge limit ⟨nonempty msps, inps⟩ := by
  induction hn : size ⟨msps, inps⟩ using Nat.strong_induction_on generalizing msps inps with
  | _ n ih =>
      -- A round that opens a partition, with or without events
      have hopening : ∀ m rest, msps = m :: rest →
          (∀ msps', round limit ⟨m :: msps', inps⟩ = openNext ⟨m :: msps', pollAllInp limit inps⟩) →
          merge limit ⟨msps, inps⟩ = merge limit ⟨nonempty msps, inps⟩ := by
        intro m rest hmsps hround
        rw [hmsps] at hholds hn ⊢
        have hrest := (List.pairwise_cons.mp hholds).2
        have hsize := (round_next (hround rest)).2
        have hnext := ih _ (hn ▸ hsize) _ hrest rfl
        rw [merge_open (hround rest), hnext]
        by_cases hm : m.2 = []
        · rw [nonempty_cons_of_eq hm, hm, merge_append_nil, merge_poll]
        · rw [nonempty_cons_of_ne hm, merge_open (hround _)]
      obtain hopen | ⟨ts, evs, inps', hround⟩ := round_cases limit inps
      · cases msps with
        | nil => rfl
        | cons m rest => exact hopening m rest rfl fun msps' => hopen (m :: msps')
      · by_cases hopens : Opens msps ts
        · obtain ⟨m, hm, hle⟩ := hopens
          obtain ⟨rest, hmsps⟩ := List.head?_eq_some_iff.mp hm
          apply hopening m rest hmsps
          intro msps'
          rw [hround, if_pos ⟨m, rfl, hle⟩]
        · -- The same events come out of both.
          have hnone : ¬ Opens (nonempty msps) ts := fun h => hopens (opens_of_nonempty hholds h)
          have hfull : round limit ⟨msps, inps⟩ = .next evs ⟨msps, inps'⟩ := by rw [hround, if_neg hopens]
          have hfiltered : round limit ⟨nonempty msps, inps⟩ = .next evs ⟨nonempty msps, inps'⟩ := by
            rw [hround, if_neg hnone]
          have hsize := (round_next hfull).2
          rw [merge_next hfull, merge_next hfiltered, ih _ (hn ▸ hsize) inps' hholds rfl]

/-- Before there is any event, partitions without events are opened and gone. -/
theorem merge_leading {lead : List (Part V)} (hlead : ∀ m ∈ lead, m.2 = []) :
    merge limit ⟨lead ++ msps, []⟩ = merge limit ⟨msps, []⟩ := by
  induction lead with
  | nil => rfl
  | cons m lead ih =>
      obtain ⟨hm, hrest⟩ := List.forall_mem_cons.mp hlead
      have hround : round limit ⟨m :: (lead ++ msps), []⟩ = openNext ⟨m :: (lead ++ msps), pollAllInp limit []⟩ := rfl
      rw [List.cons_append, merge_open hround, hm, merge_append_nil, merge_poll, ih hrest]

end Merging
end PartMerge
end Scylla
end Daqbuf
