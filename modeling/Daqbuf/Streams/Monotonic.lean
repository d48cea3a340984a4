import Daqbuf.Streams.Dedup
/-!
# Checking the Order of a Stream

{lit}`CheckMonotonic` passes a stream on.  It writes a log item before a batch that begins before the end of the
batches so far, and ends the stream at a batch that is not in order in itself.

Main results:

- Theorem {lit}`sorted_append_iff`: when a batch goes on in order.
- Theorem {lit}`Annotated.eq_of_sorted`: nothing is written into an ordered stream.
- Theorem {lit}`CheckMonotonic.checks`: up to a batch that is not in order in itself the stream is passed on, with
  nothing but log items added before batches that begin too early.
-/

namespace Daqbuf

namespace Items.ContainerEvents

open Search

variable {V : Type*} {m : ℕ} {evs evs' : List (EventSingle V)} {c : ContainerEvents V}

theorem lastTs_append : lastTs m (evs ++ evs') = lastTs (lastTs m evs) evs' := by
  cases hlast : evs'.getLast? with
  | none =>
      obtain rfl := List.getLast?_eq_none_iff.mp hlast
      simp
  | some ev => simp [lastTs, List.getLast?_append, hlast]

/-- A container without a later event before an earlier one is in order. -/
theorem sorted_of_isMonotonic (hmono : c.isMonotonic = true) : TsSorted c.evs := by
  rcases c with ⟨evs, cache⟩
  simp only [isMonotonic] at hmono
  apply List.isChain_iff_pairwise.mp
  induction evs with
  | nil => exact List.isChain_nil
  | cons first rest ih =>
      cases rest with
      | nil => exact List.isChain_singleton _
      | cons second rest =>
          rw [List.tail_cons, List.zip_cons_cons, List.all_cons, Bool.and_eq_true] at hmono
          obtain ⟨hfirst, hrest⟩ := hmono
          have hle : first.ts ≤ second.ts := by simpa using hfirst
          exact List.isChain_cons_cons.mpr ⟨hle, ih hrest⟩

/-- All events of an ordered sequence are at most as late as the last one. -/
theorem le_lastTs (hsorted : TsSorted evs) {ev : EventSingle V} (hev : ev ∈ evs) : ev.ts ≤ lastTs m evs := by
  cases hlast : evs.getLast? with
  | none =>
      obtain rfl := List.getLast?_eq_none_iff.mp hlast
      cases hev
  | some last =>
      obtain ⟨init, rfl⟩ := List.getLast?_eq_some_iff.mp hlast
      have hle : ev.ts ≤ last.ts := hsorted.le_getLast hev last (by simp)
      simpa [lastTs, hlast] using hle

/-- A batch goes on in order when it is in order and begins behind the last timestamp. -/
theorem sorted_append_iff (hsorted : TsSorted evs) :
    TsSorted (evs ++ c.evs) ↔ (∀ ts, c.tsMin = some ts → lastTs 0 evs ≤ ts) ∧ c.isMonotonic = true := by
  constructor
  · intro hall
    obtain ⟨_, hbatch, hcross⟩ := sortedBy_append.mp hall
    refine ⟨?_, isMonotonic_of_sorted hbatch⟩
    intro ts hts
    obtain ⟨ev, rest, hevs, rfl⟩ := tsMin_eq_some.mp hts
    cases hlast : evs.getLast? with
    | none => simp [lastTs, hlast]
    | some last =>
        have hle : last.ts ≤ ev.ts := hcross last (List.mem_of_getLast? hlast) ev (by simp [hevs])
        simpa [lastTs, hlast] using hle
  · rintro ⟨hbegin, hmono⟩
    have hbatch := sorted_of_isMonotonic hmono
    refine sortedBy_append.mpr ⟨hsorted, hbatch, ?_⟩
    intro ev hev ev' hev'
    cases hevs : c.evs with
    | nil =>
        rw [hevs] at hev'
        cases hev'
    | cons first rest =>
        have hfirst := hbegin first.ts (tsMin_eq_some.mpr ⟨first, rest, hevs, rfl⟩)
        have hle : first.ts ≤ ev'.ts := by
          rw [hevs] at hbatch hev'
          exact hbatch.head_le hev'
        exact (le_lastTs hsorted hev).trans (hfirst.trans hle)

end Items.ContainerEvents

namespace Streams

open Items Poll Search Scylla
open Items.ContainerEvents (eventsOf lastTs)

/-- {lit}`is_consistent` of {lit}`MergeableTy` -/
class IsConsistent (T : Type*) extends MergeableTy T where
  isConsistent : T → Bool

instance instIsConsistentContainerEvents {V : Type*} [EventValueType V] : IsConsistent (ContainerEvents V) where
  isConsistent := ContainerEvents.isMonotonic

/-- {lit}`CheckMonotonic`; the input itself is kept beside. -/
structure CheckMonotonic (T E : Type*) where
  inp : Bool
  tmax : ℕ
  name : String
  buf : Option (Sitemty2 T E)

namespace CheckMonotonic

section Model

variable {T E : Type*} [IsConsistent T] (showTs : ℕ → String)

/-- {lit}`new` -/
def new (name : String) : CheckMonotonic T E := { inp := true, tmax := 0, name := name, buf := none }

/-- {lit}`LogItem::info` -/
def info (msg : String) : LogItem := { origin := "", level := .info, msg := msg }

/-- {lit}`poll_next`, where the input is ready with a batch.  How a {lit}`TsNano` is displayed is a parameter. -/
def onData (s : CheckMonotonic T E) (x : T) : Pass (CheckMonotonic T E) (Sitemty2 T E) :=
  if !IsConsistent.isConsistent x then .done s
  else
    match MergeableTy.tsMin x with
    | some t1 =>
        if t1 < s.tmax then
          .item (.ok (.log (info (s.name ++ "  bad order  " ++ showTs s.tmax ++ "  " ++ showTs t1))))
            { s with buf := some (sitem2Data x) }
        else
          match MergeableTy.tsMax x with
          | some t2 => .item (sitem2Data x) { s with tmax := t2 }
          | none =>
              .item (.ok (.log (info (s.name ++ "  min but no max  " ++ showTs s.tmax ++ "  " ++ showTs t1))))
                { s with buf := some (sitem2Data x) }
    | none => .item (sitem2Data x) s

/-- {lit}`poll_next` -/
def stage : Stage (CheckMonotonic T E) (Sitemty2 T E) (Sitemty2 T E) where
  own s :=
    match s.buf with
    | some x => some (.item x { s with buf := none })
    | none => if s.inp then none else some (.done s)
  item s x :=
    match x with
    | .ok (.dataItem (.data x)) => s.onData showTs x
    | .ok (.dataItem .rangeComplete) => .item (.ok (.dataItem .rangeComplete)) s
    | .ok (.log x) => .item (.ok (.log x)) s
    | .ok (.stats x) => .item (.ok (.stats x)) s
    | .error e => .item (.error e) s
  last s := .done { s with inp := false }

/-- A batch is consistent, and every other item is. -/
def consistentItem : Sitemty2 T E → Bool
  | .ok (.dataItem (.data x)) => IsConsistent.isConsistent x
  | _ => true

end Model

section Events

variable {V E σ : Type*} [EventValueType V] {showTs : ℕ → String}
  {xs : List (Sitemty2 (ContainerEvents V) E)} {ys : List (Sitemty2 (ContainerEvents V) E)}
  {a : CheckMonotonic (ContainerEvents V) E}

/-- The log item that is written before a batch that begins too early. -/
def badOrder (showTs : ℕ → String) (name : String) (tmax t1 : ℕ) : LogItem :=
  info (name ++ "  bad order  " ++ showTs tmax ++ "  " ++ showTs t1)

/-- The items of a stream, with log items that are written before batches that begin too early. -/
inductive Annotated (showTs : ℕ → String) (name : String) :
    List (Sitemty2 (ContainerEvents V) E) → List (Sitemty2 (ContainerEvents V) E) → Prop
  | nil : Annotated showTs name [] []
  /-- an item that is passed on -/
  | pass {xs ys : List (Sitemty2 (ContainerEvents V) E)} (h : Annotated showTs name xs ys)
      (x : Sitemty2 (ContainerEvents V) E) : Annotated showTs name (xs ++ [x]) (ys ++ [x])
  /-- a batch that begins before an event that was passed on -/
  | late {xs ys : List (Sitemty2 (ContainerEvents V) E)} {c : ContainerEvents V} {ev first : EventSingle V}
      {rest : List (EventSingle V)} (h : Annotated showTs name xs ys) (hev : ev ∈ eventsOf (datas2 xs))
      (hevs : c.evs = first :: rest) (hlt : first.ts < ev.ts) :
      Annotated showTs name (xs ++ [sitem2Data c])
        (ys ++ [.ok (.log (badOrder showTs name ev.ts first.ts)), sitem2Data c])

section Annotated

variable {name : String}

omit [EventValueType V] in
theorem Annotated.datas (h : Annotated showTs name xs ys) : datas2 ys = datas2 xs := by
  induction h with
  | nil => rfl
  | pass _ x ih => simp [ih]
  | late _ _ _ _ ih => simp [ih]

omit [EventValueType V] in
theorem Annotated.errors (h : Annotated showTs name xs ys) : errors2 ys = errors2 xs := by
  induction h with
  | nil => rfl
  | pass _ x ih => simp [ih]
  | late _ _ _ _ ih => simp [ih]

omit [EventValueType V] in
theorem Annotated.notes (h : Annotated showTs name xs ys) : (notes2 xs).Sublist (notes2 ys) := by
  induction h with
  | nil => exact List.Sublist.refl _
  | pass _ x ih =>
      rw [notes2_append, notes2_append]
      exact ih.append (List.Sublist.refl _)
  | late _ _ _ _ ih =>
      rw [notes2_append, notes2_append]
      exact ih.append (List.nil_sublist _)

omit [EventValueType V] in
/-- Nothing is written into an ordered stream. -/
theorem Annotated.eq_of_sorted (h : Annotated showTs name xs ys) (hsorted : TsSorted (eventsOf (datas2 xs))) :
    ys = xs := by
  induction h with
  | nil => rfl
  | pass _ x ih =>
      rw [datas2_append, ContainerEvents.eventsOf_append] at hsorted
      rw [ih (sortedBy_append.mp hsorted).1]
  | @late xs ys c ev first rest _ hev hevs hlt ih =>
      have hevents : eventsOf (datas2 (xs ++ [sitem2Data c])) = eventsOf (datas2 xs) ++ c.evs := by simp
      rw [hevents] at hsorted
      have hle : ev.ts ≤ first.ts := (sortedBy_append.mp hsorted).2.2 ev hev first (by simp [hevs])
      omega

end Annotated

/-- What was read was consistent, and is handed out or in the buffer.  The end of the batches so far is that of an
event. -/
structure Inv (showTs : ℕ → String) (name : String) (xs ys : List (Sitemty2 (ContainerEvents V) E))
    (a : CheckMonotonic (ContainerEvents V) E) : Prop where
  inp : a.inp = true
  name_eq : a.name = name
  consistent : ∀ x ∈ xs, consistentItem x = true
  annotated : Annotated showTs name xs (ys ++ a.buf.toList)
  tmax : a.tmax = 0 ∨ ∃ ev ∈ eventsOf (datas2 xs), ev.ts = a.tmax

variable {name : String}

/-- A passed item that is no batch -/
theorem Inv.pass (hinv : Inv showTs name xs ys a) (hbuf : a.buf = none) {x : Sitemty2 (ContainerEvents V) E}
    (hdata : data2? x = none) (hcons : consistentItem x = true) : Inv showTs name (xs ++ [x]) (ys ++ [x]) a where
  inp := hinv.inp
  name_eq := hinv.name_eq
  consistent := by
    intro y hy
    rcases List.mem_append.mp hy with hy | hy
    · exact hinv.consistent y hy
    · rw [List.mem_singleton.mp hy]
      exact hcons
  annotated := by
    have hannotated := hinv.annotated
    rw [hbuf, Option.toList_none, List.append_nil] at hannotated ⊢
    exact hannotated.pass x
  tmax := by
    have hevents : eventsOf (datas2 (xs ++ [x])) = eventsOf (datas2 xs) := by simp [hdata]
    rw [hevents]
    exact hinv.tmax

/-- A batch that is passed on, or held back behind a log item -/
theorem Inv.batch (hinv : Inv showTs name xs ys a) (hbuf : a.buf = none) (c : ContainerEvents V) :
    (a.onData showTs c).Ensures ys (Inv showTs name (xs ++ [sitem2Data c])) := by
  have hannotated := hinv.annotated
  rw [hbuf, Option.toList_none, List.append_nil] at hannotated
  rw [onData]
  split_ifs with hcons
  · trivial
  · have hmono : c.isMonotonic = true := by simpa [IsConsistent.isConsistent] using hcons
    have hconsistent : ∀ x ∈ xs ++ [sitem2Data c], consistentItem x = true := by
      intro x hx
      rcases List.mem_append.mp hx with hx | hx
      · exact hinv.consistent x hx
      · rw [List.mem_singleton.mp hx]
        exact hmono
    have hevents : eventsOf (datas2 (xs ++ [sitem2Data c])) = eventsOf (datas2 xs) ++ c.evs := by simp
    have hold : a.tmax = 0 ∨ ∃ ev ∈ eventsOf (datas2 (xs ++ [sitem2Data c])), ev.ts = a.tmax := by
      apply hinv.tmax.imp_right
      rintro ⟨ev, hev, hts⟩
      exact ⟨ev, hevents ▸ List.mem_append_left _ hev, hts⟩
    have hpass : Annotated showTs name (xs ++ [sitem2Data c]) (ys ++ [sitem2Data c] ++ a.buf.toList) := by
      rw [hbuf, Option.toList_none, List.append_nil]
      exact hannotated.pass _
    cases hmin : MergeableTy.tsMin c with
    | none => exact ⟨hinv.inp, hinv.name_eq, hconsistent, hpass, hold⟩
    | some t1 =>
        obtain ⟨first, rest, hevs, rfl⟩ := ContainerEvents.tsMin_eq_some.mp hmin
        cases hmax : MergeableTy.tsMax c with
        | none =>
            have hnil := ContainerEvents.tsMax_eq_none.mp hmax
            rw [hevs] at hnil
            cases hnil
        | some t2 =>
            dsimp only
            split_ifs with hlate
            · obtain ⟨ev, hev, hts⟩ : ∃ ev ∈ eventsOf (datas2 xs), ev.ts = a.tmax :=
                hinv.tmax.resolve_left (Nat.ne_of_gt (Nat.zero_lt_of_lt hlate))
              refine ⟨hinv.inp, hinv.name_eq, hconsistent, ?_, hold⟩
              have hlog := hannotated.late hev hevs (hts ▸ hlate)
              rw [badOrder, hts, ← hinv.name_eq] at hlog
              simpa [hinv.name_eq] using hlog
            · refine ⟨hinv.inp, hinv.name_eq, hconsistent, hpass, .inr ?_⟩
              obtain ⟨init, last, hlast, rfl⟩ := ContainerEvents.tsMax_eq_some.mp hmax
              refine ⟨last, ?_, rfl⟩
              rw [hevents, hlast]
              simp

/-- A pass keeps the invariant. -/
theorem keeps (showTs : ℕ → String) (name : String) :
    (stage showTs).Keeps (fun _ => True) (Inv (V := V) (E := E) showTs name) fun _ _ _ => False where
  own := by
    intro xs ys a p hinv hown
    simp only [stage] at hown
    cases hbuf : a.buf with
    | none =>
        rw [hbuf] at hown
        simp [hinv.inp] at hown
    | some x =>
        rw [hbuf] at hown
        obtain rfl := Option.some.inj hown
        refine ⟨hinv.inp, hinv.name_eq, hinv.consistent, ?_, hinv.tmax⟩
        simpa [hbuf] using hinv.annotated
  item := by
    intro xs ys a x _ hinv hown
    have hbuf : a.buf = none := by
      cases hbuf : a.buf with
      | none => rfl
      | some x => simp [stage, hbuf] at hown
    cases x with
    | error e => exact hinv.pass hbuf rfl rfl
    | ok x =>
        cases x with
        | dataItem d =>
            cases d with
            | rangeComplete => exact hinv.pass hbuf rfl rfl
            | data c => exact hinv.batch hbuf c
        | log l => exact hinv.pass hbuf rfl rfl
        | stats t => exact hinv.pass hbuf rfl rfl
  last := fun _ _ _ _ _ => trivial
  after := fun _ _ _ hfalse => hfalse.elim

/-- What it does by itself empties its buffer. -/
theorem own_lowers (a b : CheckMonotonic (ContainerEvents V) E) (p)
    (hown : (stage showTs).own a = some p) (hnext : p.next? = some b) :
    b.buf.toList.length < a.buf.toList.length := by
  simp only [stage] at hown
  cases hbuf : a.buf with
  | none =>
      rw [hbuf] at hown
      dsimp only at hown
      split_ifs at hown
      obtain rfl := Option.some.inj hown
      cases hnext
  | some x =>
      rw [hbuf] at hown
      obtain rfl := Option.some.inj hown
      obtain rfl := Option.some.inj hnext
      exact Nat.zero_lt_one

/-- What has been handed out at the end of a stream: its items up to a batch that is not in order in itself, with log
items before batches that begin too early and no other items. -/
structure Checks (showTs : ℕ → String) (name : String) (xs ys : List (Sitemty2 (ContainerEvents V) E)) : Prop where
  annotated : Annotated showTs name (xs.takeWhile consistentItem) ys
  datas : datas2 ys = datas2 (xs.takeWhile consistentItem)
  errors : errors2 ys = errors2 (xs.takeWhile consistentItem)
  notes : (notes2 (xs.takeWhile consistentItem)).Sublist (notes2 ys)
  ordered : TsSorted (eventsOf (datas2 (xs.takeWhile consistentItem))) → ys = xs.takeWhile consistentItem

/-- However the stage ends, it has handed out what it should. -/
theorem checks_of_closes
    (hcloses : (stage showTs).Closes (Inv (V := V) (E := E) showTs name) (fun _ _ _ => False) xs ys) :
    Checks showTs name xs ys := by
  suffices hannotated : Annotated showTs name (xs.takeWhile consistentItem) ys from
    ⟨hannotated, hannotated.datas, hannotated.errors, hannotated.notes, hannotated.eq_of_sorted⟩
  have hopen : ∀ {zs : List (Sitemty2 (ContainerEvents V) E)} {a}, Inv showTs name zs ys a → a.buf = none →
      Annotated showTs name zs ys := by
    intro zs a hinv hbuf
    simpa [hbuf] using hinv.annotated
  have hnobuf : ∀ {a : CheckMonotonic (ContainerEvents V) E}, (stage showTs).own a = none → a.buf = none := by
    intro a hown
    cases hbuf : a.buf with
    | none => rfl
    | some x => simp [stage, hbuf] at hown
  cases hcloses with
  | @early zs a b _ hinv hdone =>
      simp only [stage] at hdone
      cases hbuf : a.buf <;> simp [hbuf, hinv.inp] at hdone
  | @onItem zs x a b hprefix hinv hown hdone =>
      have hstop : consistentItem x = false := by
        cases x with
        | error e => cases hdone
        | ok x =>
            cases x with
            | dataItem d =>
                cases d with
                | rangeComplete => cases hdone
                | data c =>
                    simp only [stage, onData] at hdone
                    split_ifs at hdone with hcons
                    · simpa [consistentItem] using hcons
                    · split at hdone
                      · split_ifs at hdone
                        split at hdone <;> cases hdone
                      · cases hdone
            | log l => cases hdone
            | stats t => cases hdone
      obtain ⟨rest, rfl⟩ := hprefix
      have htake : (zs ++ [x] ++ rest).takeWhile consistentItem = zs := by
        rw [List.append_assoc, List.takeWhile_append_of_pos hinv.consistent]
        simp [hstop]
      rw [htake]
      exact hopen hinv (hnobuf hown)
  | onLast hinv hown _ =>
      rw [List.takeWhile_eq_self_iff.mpr hinv.consistent]
      exact hopen hinv (hnobuf hown)
  | late hinv _ => exact hinv.elim

theorem inv_new (showTs : ℕ → String) (name : String) : Inv (V := V) (E := E) showTs name [] [] (new name) :=
  ⟨rfl, rfl, by simp, .nil, .inl rfl⟩

/-- {lit}`CheckMonotonic` over a stream that ends: up to a batch that is not in order in itself it hands out all the
items of the stream and no others but its log items, and the very items where the batches go on in order. -/
theorem checks {next : σ → Pass σ (Sitemty2 (ContainerEvents V) E)} {s : σ} (hnext : Drains next s xs)
    (showTs : ℕ → String) (name : String) :
    ∃ ys, Drains ((stage showTs).pass next) (s, new name) ys ∧ Checks showTs name xs ys := by
  obtain ⟨ys, hys, hcloses⟩ := (keeps showTs name).drains (fun a => a.buf.toList.length) own_lowers hnext
    (fun _ _ => trivial) (inv_new showTs name)
  exact ⟨ys, hys, checks_of_closes hcloses⟩

/-- A batch that begins too early, and one that is not in order. -/
theorem checks_disorder :
    ∃ ys, Drains ((stage (T := ContainerEvents UInt8) (E := Empty) toString).pass Script.next)
        ([.ready (sitem2Data { evs := [⟨5, 1⟩] }), .ready (sitem2Data { evs := [⟨4, 1⟩] }),
          .ready (sitem2Data { evs := [⟨7, 1⟩, ⟨6, 1⟩] }), .ready (sitem2Data { evs := [⟨8, 1⟩] })], new "") ys ∧
      Checks (V := UInt8) toString "" [sitem2Data { evs := [⟨5, 1⟩] }, sitem2Data { evs := [⟨4, 1⟩] },
        sitem2Data { evs := [⟨7, 1⟩, ⟨6, 1⟩] }, sitem2Data { evs := [⟨8, 1⟩] }] ys :=
  checks (Script.drains_next _) toString ""

end Events

end CheckMonotonic

end Streams
end Daqbuf
