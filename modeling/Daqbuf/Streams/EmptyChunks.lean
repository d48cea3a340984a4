import Daqbuf.Streams.FrameStream
/-!
# Empty Chunks in the Input of the Frame Stream

{lit}`poll_upstream` tells the end of the input by zero bytes, and so it does for a chunk that is empty.  The stream
ends at the first empty chunk that it polls, and what stands behind it is lost.

Main results:

- Theorem {lit}`Running.exists_drains`: from every state the stream ends, and when it yields nothing more.
- Theorem {lit}`pollNext_extend`: how the stream goes on does not depend on the input that it has not asked for.
- Theorem {lit}`sameItems_iff`: when empty chunks that are put into the input change nothing.
-/

namespace Daqbuf
namespace Streams
namespace InMemoryFrameStream

open Bytes Items InMemoryFrame Poll

variable {E : Type*} {crc : List UInt8 → UInt32}

/-! ## What is left of a run -/

/-- The bytes are those of a terminating frame, and possibly more. -/
def Terminates (crc : List UInt8 → UInt32) (buf : List UInt8) : Prop :=
  ∃ n val, InMemoryFrame.parse crc buf = .ok (.parsed n val) ∧ val.tyid = termFrameTypeId

/-- With chunks that there is room for, the bytes that are held either are still unfinished where the input ends
(or has an empty chunk), or they begin with a terminating frame. -/
def Quiet (crc : List UInt8 → UInt32) (held : List UInt8) (cap : ℕ) (input : List (Except E (List UInt8))) : Prop :=
  ∃ (chunks : List (List UInt8)) (rest : List (Except E (List UInt8))), input = chunks.map .ok ++ rest ∧ (∀ x ∈ chunks, x ≠ []) ∧
    held.length + chunks.flatten.length ≤ cap ∧
    (Terminates crc (held ++ chunks.flatten) ∨
      Unfinished (held ++ chunks.flatten) ∧ (rest = [] ∨ ∃ rest', rest = .ok [] :: rest'))

section Quiet

variable {held x : List UInt8} {cap : ℕ} {input : List (Except E (List UInt8))}

theorem Terminates.finished (hterm : Terminates crc held) : ¬ Unfinished held := by
  obtain ⟨n, val, hparse, -⟩ := hterm
  exact not_unfinished_of_parsed hparse

/-- Behind a finished frame it only matters whether it is a terminating one. -/
theorem quiet_of_finished (hfinished : ¬ Unfinished held) (hfits : held.length ≤ cap) :
    Quiet crc held cap input ↔ Terminates crc held := by
  constructor
  · rintro ⟨chunks, rest, -, -, -, ⟨n, val, hparse, hterm⟩ | ⟨hunfinished, -⟩⟩
    · rw [parse_append hfinished] at hparse
      exact ⟨n, val, hparse, hterm⟩
    · exact absurd hunfinished.of_append hfinished
  · intro hterm
    exact ⟨[], input, rfl, nofun, by simpa using hfits, Or.inl (by simpa using hterm)⟩

/-- At the end of the input an unfinished frame stays one. -/
theorem quiet_nil (hunfinished : Unfinished held) (hfits : held.length ≤ cap) :
    Quiet crc held cap ([] : List (Except E (List UInt8))) :=
  ⟨[], [], rfl, nofun, by simpa using hfits, Or.inr ⟨by simpa using hunfinished, Or.inl rfl⟩⟩

/-- So it does at an empty chunk. -/
theorem quiet_empty (hunfinished : Unfinished held) (hfits : held.length ≤ cap) :
    Quiet crc held cap (.ok [] :: input) :=
  ⟨[], _, rfl, nofun, by simpa using hfits, Or.inr ⟨by simpa using hunfinished, Or.inr ⟨input, rfl⟩⟩⟩

/-- An error of the input is handed out. -/
theorem not_quiet_error {e : E} (hunfinished : Unfinished held) : ¬ Quiet crc held cap (.error e :: input) := by
  rintro ⟨chunks, rest, hinput, -, -, hend⟩
  cases chunks with
  | nil =>
      obtain rfl : rest = .error e :: input := hinput.symm
      rcases hend with hterm | ⟨-, hrest | ⟨rest', hrest⟩⟩
      · exact hterm.finished (by simpa using hunfinished)
      · cases hrest
      · cases hrest
  | cons y ys => simp at hinput

/-- A chunk goes behind what is held, if there is room for it. -/
theorem quiet_chunk (hunfinished : Unfinished held) (hx : x ≠ []) :
    Quiet crc held cap (.ok x :: input) ↔
      held.length + x.length ≤ cap ∧ Quiet crc (held ++ x) cap input := by
  constructor
  · rintro ⟨chunks, rest, hinput, hne, hfits, hend⟩
    cases chunks with
    | nil =>
        obtain rfl : rest = .ok x :: input := hinput.symm
        rcases hend with hterm | ⟨-, hrest | ⟨rest', hrest⟩⟩
        · exact absurd (by simpa using hunfinished) hterm.finished
        · cases hrest
        · exact absurd (Except.ok.inj (List.cons.inj hrest).1) hx
    | cons y ys =>
        obtain ⟨hxy, rfl⟩ := List.cons.inj hinput
        obtain rfl := Except.ok.inj hxy
        rw [List.flatten_cons, List.length_append] at hfits
        rw [List.flatten_cons, ← List.append_assoc] at hend
        refine ⟨by omega, ys, rest, rfl, fun z hz => hne z (List.mem_cons_of_mem _ hz), ?_, hend⟩
        rw [List.length_append]
        omega
  · rintro ⟨-, chunks, rest, rfl, hne, hfits, hend⟩
    refine ⟨x :: chunks, rest, rfl, ?_, ?_, ?_⟩
    · intro z hz
      rcases List.mem_cons.mp hz with rfl | hz
      · exact hx
      · exact hne z hz
    · rw [List.length_append] at hfits
      rw [List.flatten_cons, List.length_append]
      omega
    · rwa [List.flatten_cons, ← List.append_assoc]

end Quiet

/-! ## Passes of a running stream -/

/-- The stream goes on, and waits for a head or for as many bytes as the head states. -/
structure Running (s : InMemoryFrameStream E) : Prop where
  done : s.done = false
  complete : s.complete = false
  told : s.needMin = inmemFrameHead ∨ HeadAccepted s.buf.data ∧ s.needMin = statedLen s.buf.data

section Passes

variable {s : InMemoryFrameStream E} {rest : Script (Except E (List UInt8))}

theorem running_new (inp : Script (Except E (List UInt8))) (bufcap : ℕ) : Running (new inp bufcap) :=
  ⟨rfl, rfl, Or.inl rfl⟩

/-- While bytes are waited for, the frame is unfinished. -/
theorem Running.unfinished (hs : Running s) (hwait : s.buf.len < s.needMin) : Unfinished s.buf.data := by
  rw [← SlideBuf.length_data] at hwait
  rcases hs.told with hneed | ⟨haccepted, hneed⟩
  · exact Or.inl (hneed ▸ hwait)
  · exact Or.inr ⟨haccepted, hneed ▸ hwait⟩

/-- A first look at the head of an unfinished frame tells its length. -/
theorem Running.pollNext_unfinished (crc : List UInt8 → UInt32) (hs : Running s) (henough : s.needMin ≤ s.buf.len)
    (hunfinished : Unfinished s.buf.data) :
    s.needMin = inmemFrameHead ∧ pollNext crc s = .again { s with needMin := statedLen s.buf.data } ∧
      Running { s with needMin := statedLen s.buf.data } := by
  rw [← SlideBuf.length_data] at henough
  obtain ⟨hneed, haccepted, hlt⟩ : s.needMin = inmemFrameHead ∧ HeadAccepted s.buf.data ∧
      s.buf.data.length < statedLen s.buf.data := by
    rcases hs.told with hneed | ⟨haccepted, hneed⟩
    · rcases hunfinished with hshort | hpart
      · omega
      · exact ⟨hneed, hpart⟩
    · rcases hunfinished with hshort | hpart
      · exact absurd haccepted.1 (not_le.mpr hshort)
      · omega
  refine ⟨hneed, ?_, hs.done, hs.complete, Or.inr ⟨haccepted, rfl⟩⟩
  have hparse : s.parse crc = (.ok none, { s with needMin := statedLen s.buf.data }) := by
    rw [parse, if_neg (not_lt.mpr henough), parse_eq_notEnoughData.mpr ⟨haccepted, hlt, rfl⟩]
  rw [SlideBuf.length_data] at henough hlt
  simp [pollNext, hs.done, hs.complete, henough, hparse, hlt]

/-- A frame is taken from the bytes that are held. -/
theorem Running.parse_parsed {n : ℕ} {val : InMemoryFrame} (henough : s.needMin ≤ s.buf.len)
    (hparse : InMemoryFrame.parse crc s.buf.data = .ok (.parsed n val)) :
    ∃ buf, s.parse crc = (.ok (some val), { s with
        buf := buf
        needMin := inmemFrameHead
        inpBytesConsumed := s.inpBytesConsumed + n }) ∧
      buf.data.length + n = s.buf.data.length ∧ inmemFrameHead < n := by
  obtain ⟨rfl, hle⟩ := parse_eq_parsed hparse
  have hlt := inmemFrameHead_lt_statedLen s.buf.data
  rw [SlideBuf.length_data] at hle
  obtain ⟨buf, hadv, hdata, -⟩ := SlideBuf.adv_ok hle
  refine ⟨buf, ?_, ?_, hlt⟩
  · rw [parse, SlideBuf.length_data, if_neg (not_lt.mpr henough), hparse]
    simp only [hadv]
  · rw [hdata, List.length_drop, SlideBuf.length_data]
    omega

/-- What is no frame is an error. -/
theorem Running.pollNext_parseError {e : InMemoryFrame.Error} (hs : Running s) (henough : s.needMin ≤ s.buf.len)
    (hparse : InMemoryFrame.parse crc s.buf.data = .error e) :
    pollNext crc s = .item (.error (Error.inMemParse e).toSitemErr) { s with done := true } := by
  have hstep : s.parse crc = (.error (.inMemParse e), s) := by
    rw [parse, SlideBuf.length_data, if_neg (not_lt.mpr henough), hparse]
  simp [pollNext, hs.done, hs.complete, henough, hstep]

/-- Without the room for it, a chunk is an error. -/
theorem pollUpstream_full {x : List UInt8} (hinp : s.inp = .ready (.ok x) :: rest)
    (hfull : s.buf.cap < s.buf.len + x.length) :
    ∃ e buf, s.pollUpstream = some (.ready (.error (.slidebuf e)), { s with inp := rest, buf := buf }) := by
  obtain ⟨e, buf, harea, -, -⟩ := SlideBuf.availableWritableArea_error hfull
  exact ⟨e, buf, by simp only [pollUpstream, hinp, harea]⟩

/-- An empty chunk ends the stream. -/
theorem pollNext_emptyChunk (crc : List UInt8 → UInt32) (hdone : s.done = false) (hcomplete : s.complete = false)
    (hwait : s.buf.len < s.needMin) (hinp : s.inp = .ready (.ok []) :: rest) :
    ∃ buf, pollNext crc s = .again { s with inp := rest, buf := buf, done := true } := by
  have hroom : s.buf.len + ([] : List UInt8).length ≤ s.buf.cap := s.buf.len_le_cap
  obtain ⟨buf, hpoll, -⟩ := pollUpstream_chunk hinp hroom
  exact ⟨buf, by simp [pollNext, hdone, hcomplete, not_le.mpr hwait, hpoll]⟩

/-- The bytes that an answer of the input brings -/
def answerBytes : Except E (List UInt8) → ℕ
  | .ok x => x.length
  | .error _ => 0

/-- The passes that are left are at most so many. -/
def load (s : InMemoryFrameStream E) : ℕ :=
  2 * (s.inp.length + (s.inp.items.map answerBytes).sum + s.buf.len) + if s.needMin = inmemFrameHead then 1 else 0

/-- Nothing more comes of what is held and of what is left of the input. -/
def QuietAt (crc : List UInt8 → UInt32) (s : InMemoryFrameStream E) : Prop :=
  Quiet crc s.buf.data s.buf.cap s.inp.items

/-- What a pass of a running stream can do: it goes on, which does not change whether something comes; it hands
out a frame and goes on; it hands out an error and ends; or it ends. -/
inductive Outcome (crc : List UInt8 → UInt32) (s : InMemoryFrameStream E) :
    Pass (InMemoryFrameStream E) (Sitemty InMemoryFrame) → Prop
  | again {t} (ht : Running t) (hload : load t < load s) (hquiet : QuietAt crc s ↔ QuietAt crc t) :
      Outcome crc s (.again t)
  | pending {t} (ht : Running t) (hload : load t < load s) (hquiet : QuietAt crc s ↔ QuietAt crc t) :
      Outcome crc s (.pending t)
  | frame {t val} (ht : Running t) (hload : load t < load s) (hquiet : ¬ QuietAt crc s) :
      Outcome crc s (.item (sitemData val) t)
  | error {t e} (hdone : t.done = true) (hcomplete : t.complete = false) (hquiet : ¬ QuietAt crc s) :
      Outcome crc s (.item (.error e) t)
  | last {t} (hdone : t.done = true) (hcomplete : t.complete = false) (hquiet : QuietAt crc s) :
      Outcome crc s (.again t)

theorem held_fits (s : InMemoryFrameStream E) : s.buf.data.length ≤ s.buf.cap :=
  SlideBuf.length_data s.buf ▸ s.buf.len_le_cap

/-- A pass that looks at the bytes that are held -/
theorem Running.outcome_parse (hs : Running s) (henough : s.needMin ≤ s.buf.len) :
    Outcome crc s (pollNext crc s) := by
  by_cases hunfinished : Unfinished s.buf.data
  · obtain ⟨hneed, hpass, hnext⟩ := hs.pollNext_unfinished crc henough hunfinished
    have hne : statedLen s.buf.data ≠ inmemFrameHead := (inmemFrameHead_lt_statedLen _).ne'
    rw [hpass]
    exact .again hnext (by simp [load, hneed, hne]) Iff.rfl
  · have hquiet : QuietAt crc s ↔ Terminates crc s.buf.data := quiet_of_finished hunfinished (held_fits s)
    cases hparse : InMemoryFrame.parse crc s.buf.data with
    | error e =>
        rw [hs.pollNext_parseError henough hparse]
        refine .error rfl hs.complete fun h => ?_
        obtain ⟨n, val, hterm, -⟩ := hquiet.mp h
        rw [hparse] at hterm
        cases hterm
    | ok r =>
        cases r with
        | notEnoughData n => exact absurd hparse (parse_ne_notEnoughData hunfinished)
        | parsed n val =>
            obtain ⟨buf, htake, hlen, hlong⟩ := Running.parse_parsed henough hparse
            by_cases hterm : val.tyid = termFrameTypeId
            · have hpass : pollNext crc s = .again { s with
                  buf := buf
                  needMin := inmemFrameHead
                  inpBytesConsumed := s.inpBytesConsumed + n
                  done := true } := by
                simp [pollNext, hs.done, hs.complete, henough, htake, hterm]
              rw [hpass]
              exact .last rfl hs.complete (hquiet.mpr ⟨n, val, hparse, hterm⟩)
            · have hpass : pollNext crc s = .item (sitemData val) { s with
                  buf := buf
                  needMin := inmemFrameHead
                  inpBytesConsumed := s.inpBytesConsumed + n } := by
                simp [pollNext, hs.done, hs.complete, henough, htake, hterm]
              rw [hpass]
              refine .frame ⟨hs.done, hs.complete, Or.inl rfl⟩ ?_ fun h => ?_
              · rw [SlideBuf.length_data, SlideBuf.length_data] at hlen
                simp only [load, if_true]
                omega
              · obtain ⟨n', val', hparse', hterm'⟩ := hquiet.mp h
                rw [hparse] at hparse'
                obtain ⟨-, rfl⟩ := ParseResult.parsed.inj (Except.ok.inj hparse')
                exact hterm hterm'

/-- A pass that polls a chunk -/
theorem Running.outcome_chunk {x : List UInt8} (hs : Running s) (hwait : s.buf.len < s.needMin)
    (hinp : s.inp = .ready (.ok x) :: rest) (hx : x ≠ []) : Outcome crc s (pollNext crc s) := by
  have henough := not_le.mpr hwait
  have hquiet : QuietAt crc s ↔ s.buf.len + x.length ≤ s.buf.cap ∧
      Quiet crc (s.buf.data ++ x) s.buf.cap rest.items := by
    rw [QuietAt, hinp, Script.items_ready, quiet_chunk (hs.unfinished hwait) hx, SlideBuf.length_data]
  by_cases hroom : s.buf.len + x.length ≤ s.buf.cap
  · obtain ⟨buf, hpoll, hdata, hcap⟩ := pollUpstream_chunk hinp hroom
    have hpass : pollNext crc s = .again { s with inp := rest, buf := buf } := by
      simp [pollNext, hs.done, hs.complete, henough, hpoll, hx]
    have hlen : buf.len = s.buf.len + x.length := by
      rw [← SlideBuf.length_data, hdata, List.length_append, SlideBuf.length_data]
    rw [hpass]
    refine .again ⟨hs.done, hs.complete, hs.told.imp_right ?_⟩ ?_ ?_
    · rintro ⟨haccepted, hneed⟩
      rw [hdata, headAccepted_append haccepted.1, statedLen_append haccepted.1]
      exact ⟨haccepted, hneed⟩
    · simp only [load, hinp, hlen, Script.items_ready, List.map_cons, List.sum_cons, List.length_cons, answerBytes]
      omega
    · rw [hquiet, and_iff_right hroom, QuietAt, hdata, hcap]
  · obtain ⟨e, buf, hpoll⟩ := pollUpstream_full hinp (not_le.mp hroom)
    have hpass : pollNext crc s =
        .item (.error (Error.slidebuf e).toSitemErr) { s with inp := rest, buf := buf, done := true } := by
      simp [pollNext, hs.done, hs.complete, henough, hpoll]
    rw [hpass]
    exact .error rfl hs.complete fun h => hroom (hquiet.mp h).1

/-- A pass that polls the input -/
theorem Running.outcome_poll (hs : Running s) (hwait : s.buf.len < s.needMin) : Outcome crc s (pollNext crc s) := by
  have henough := not_le.mpr hwait
  have hunfinished := hs.unfinished hwait
  cases hinp : s.inp with
  | nil =>
      have hpass : pollNext crc s = .again { s with done := true } := by
        simp [pollNext, hs.done, hs.complete, henough, pollUpstream, hinp]
      rw [hpass]
      exact .last rfl hs.complete (by rw [QuietAt, hinp]; exact quiet_nil hunfinished (held_fits s))
  | cons answer rest =>
      rcases answer with _ | ⟨e | x⟩
      · have hpass : pollNext crc s = .pending { s with inp := rest } := by
          simp [pollNext, hs.done, hs.complete, henough, pollUpstream, hinp]
        rw [hpass]
        exact .pending ⟨hs.done, hs.complete, hs.told⟩ (by simp [load, hinp]) (by simp [QuietAt, hinp])
      · have hpass : pollNext crc s = .item (.error Error.input.toSitemErr) { s with inp := rest, done := true } := by
          simp [pollNext, hs.done, hs.complete, henough, pollUpstream, hinp]
        rw [hpass]
        exact .error rfl hs.complete (by rw [QuietAt, hinp]; exact not_quiet_error hunfinished)
      · by_cases hx : x = []
        · subst hx
          obtain ⟨buf, hpass⟩ := pollNext_emptyChunk crc hs.done hs.complete hwait hinp
          rw [hpass]
          exact .last rfl hs.complete (by rw [QuietAt, hinp]; exact quiet_empty hunfinished (held_fits s))
        · exact hs.outcome_chunk hwait hinp hx

/-- What a pass of a running stream does. -/
theorem Running.outcome (crc : List UInt8 → UInt32) (hs : Running s) : Outcome crc s (pollNext crc s) := by
  rcases le_or_gt s.needMin s.buf.len with henough | hwait
  · exact hs.outcome_parse henough
  · exact hs.outcome_poll hwait

/-- From every state the stream ends.  It yields nothing more exactly if nothing comes of what is left. -/
theorem Running.exists_drains (crc : List UInt8 → UInt32) (hs : Running s) :
    ∃ xs, Drains (pollNext crc) s xs ∧ (xs = [] ↔ QuietAt crc s) := by
  -- induction on the passes that are left
  induction hload : load s using Nat.strong_induction_on generalizing s with
  | h n ih =>
      subst hload
      have houtcome := hs.outcome crc
      generalize hpass : pollNext crc s = p at houtcome
      cases houtcome with
      | again ht hload hquiet =>
          obtain ⟨xs, hxs, hiff⟩ := ih _ hload ht rfl
          exact ⟨xs, .of_again hpass hxs, hiff.trans hquiet.symm⟩
      | pending ht hload hquiet =>
          obtain ⟨xs, hxs, hiff⟩ := ih _ hload ht rfl
          exact ⟨xs, .of_pending hpass hxs, hiff.trans hquiet.symm⟩
      | frame ht hload hquiet =>
          obtain ⟨xs, hxs, -⟩ := ih _ hload ht rfl
          exact ⟨_, .of_item hpass hxs, iff_of_false nofun hquiet⟩
      | error hdone hcomplete hquiet =>
          exact ⟨_, .of_item hpass (drains_ending hdone hcomplete), iff_of_false nofun hquiet⟩
      | last hdone hcomplete hquiet =>
          exact ⟨[], .of_again hpass (drains_ending hdone hcomplete), iff_of_true rfl hquiet⟩

/-- Until it ends, the stream is running. -/
theorem running_of_reaches {xs : List (Sitemty InMemoryFrame)} {t : InMemoryFrameStream E} (hs : Running s)
    (hrun : Reaches (pollNext crc) s xs t) : Running t ∨ t.done = true := by
  refine hrun.inv (I := fun _ v => Running v ∨ v.done = true) (Or.inl hs) fun ys v _ hv => ?_
  rcases hv with hv | hdone
  · right
    have houtcome := hv.outcome crc
    generalize pollNext crc v = p at houtcome
    cases houtcome with
    | again ht _ _ => exact Or.inl ht
    | pending ht _ _ => exact Or.inl ht
    | frame ht _ _ => exact Or.inl ht
    | error hdone _ _ => exact Or.inr hdone
    | last hdone _ _ => exact Or.inr hdone
  · by_cases hcomplete : v.complete
    · exact Or.inl (by simp [pollNext, hcomplete])
    · exact Or.inr (by simp [pollNext, hcomplete, hdone])

end Passes

/-! ## Input that is not asked for -/

/-- The stream with more input behind the one it has. -/
def extend (more : Script (Except E (List UInt8))) (s : InMemoryFrameStream E) : InMemoryFrameStream E :=
  { s with inp := s.inp ++ more }

/-- The stream polls its input, which is used up. -/
structure AtEnd (s : InMemoryFrameStream E) : Prop where
  done : s.done = false
  complete : s.complete = false
  inp : s.inp = []
  wait : s.buf.len < s.needMin

section Extend

variable {s t : InMemoryFrameStream E} {more : Script (Except E (List UInt8))}

theorem parse_extend : (s.extend more).parse crc = ((s.parse crc).1, (s.parse crc).2.extend more) := by
  unfold parse
  by_cases hshort : s.buf.data.length < s.needMin
  · have hsame : (s.extend more).buf.data.length < (s.extend more).needMin := hshort
    rw [if_pos hshort, if_pos hsame]
  · have hsame : ¬ (s.extend more).buf.data.length < (s.extend more).needMin := hshort
    have hdata : (s.extend more).buf = s.buf := rfl
    rw [if_neg hshort, if_neg hsame, hdata]
    cases InMemoryFrame.parse crc s.buf.data with
    | error e => rfl
    | ok r =>
        cases r with
        | notEnoughData n => rfl
        | parsed n val =>
            rcases hadv : s.buf.adv n with ⟨r | r, buf⟩
            · simp only [hadv, extend]
            · simp only [hadv, extend]

theorem pollUpstream_extend (hinp : s.inp ≠ []) :
    (s.extend more).pollUpstream = s.pollUpstream.map fun p => (p.1, p.2.extend more) := by
  unfold pollUpstream
  simp only [extend]
  cases hcons : s.inp with
  | nil => exact absurd hcons hinp
  | cons answer rest =>
      rcases answer with _ | ⟨e | x⟩
      · rfl
      · rfl
      · simp only [List.cons_append]
        rcases s.buf.availableWritableArea x.length with ⟨e | u, buf⟩
        · rfl
        · simp only
          cases buf.copyFromSlice x with
          | none => rfl
          | some buf =>
              simp only
              rcases buf.wadv x.length with ⟨e | u, buf⟩
              · rfl
              · rfl

/-- How the stream goes on does not depend on the input that it has not asked for. -/
theorem pollNext_extend (hend : ¬ AtEnd s) : pollNext crc (s.extend more) = (pollNext crc s).map (extend more) := by
  have hsame : (s.extend more).complete = s.complete ∧ (s.extend more).done = s.done ∧
    (s.extend more).needMin = s.needMin ∧ (s.extend more).buf = s.buf := ⟨rfl, rfl, rfl, rfl⟩
  obtain ⟨hcomplete, hdone, hneed, hbuf⟩ := hsame
  unfold pollNext
  rw [hcomplete, hdone, hneed, hbuf]
  split_ifs with hc hd henough
  · rfl
  · rfl
  · rw [parse_extend]
    rcases s.parse crc with ⟨e | _ | item, t⟩
    · rfl
    · have hneed : (t.extend more).needMin = t.needMin ∧ (t.extend more).buf = t.buf := ⟨rfl, rfl⟩
      simp only [hneed.1, hneed.2]
      split_ifs
      · rfl
      · rfl
    · simp only
      split_ifs
      · rfl
      · rfl
  · have hinp : s.inp ≠ [] := fun hinp => hend ⟨by simpa using hd, by simpa using hc, hinp, not_le.mp henough⟩
    rw [pollUpstream_extend hinp]
    rcases s.pollUpstream with _ | ⟨_ | ⟨e | n1⟩, t⟩
    · rfl
    · rfl
    · rfl
    · simp only [Option.map_some]
      split_ifs
      · rfl
      · rfl

/-- Polling an input that is used up ends the stream. -/
theorem AtEnd.pollNext_eq (hs : AtEnd s) : pollNext crc s = .again { s with done := true } := by
  simp [pollNext, hs.done, hs.complete, hs.wait, pollUpstream, hs.inp]

/-- A stream that is done goes nowhere. -/
theorem eq_of_reaches_done {xs : List (Sitemty InMemoryFrame)} (hdone : s.done = true)
    (hrun : Reaches (pollNext crc) s xs t) : t = s := by
  have hnext : (pollNext crc s).next? = none := by
    unfold pollNext
    split_ifs
    · rfl
    · rfl
  rcases hrun.cases_head with ⟨-, rfl⟩ | ⟨v, hv | hv, -⟩ | ⟨x, v, zs, hv, -, -⟩
  · rfl
  · rw [hv] at hnext
    cases hnext
  · rw [hv] at hnext
    cases hnext
  · rw [hv] at hnext
    cases hnext

/-- A run that does not end before is a run on any longer input. -/
theorem reaches_extend {xs : List (Sitemty InMemoryFrame)} (more : Script (Except E (List UInt8)))
    (hrun : Reaches (pollNext crc) s xs t) (hdone : t.done = false) :
    Reaches (pollNext crc) (s.extend more) xs (t.extend more) := by
  refine hrun.map fun ys v w _ hw ⟨zs, hzs⟩ => pollNext_extend fun hend => ?_
  rw [hend.pollNext_eq] at hw
  obtain rfl := Option.some.inj hw
  rw [eq_of_reaches_done rfl hzs] at hdone
  cases hdone

/-- Where the input is never used up, more of it changes nothing. -/
theorem drains_extend {xs : List (Sitemty InMemoryFrame)} (more : Script (Except E (List UInt8)))
    (hdrains : Drains (pollNext crc) s xs)
    (hend : ∀ ys v, Reaches (pollNext crc) s ys v → ¬ AtEnd v) : Drains (pollNext crc) (s.extend more) xs := by
  obtain ⟨t, u, hrun, hdone⟩ := hdrains
  refine ⟨t.extend more, u.extend more, hrun.map fun ys v w hv _ _ => pollNext_extend (hend ys v hv), ?_⟩
  rw [pollNext_extend (hend xs t hrun), hdone]
  rfl

/-- Where the input is used up, a run holds the same bytes. -/
theorem AtEnd.buf_eq {xs ys : List (Sitemty InMemoryFrame)} {u : InMemoryFrameStream E} (ht : AtEnd t) (hu : AtEnd u)
    (hxs : Reaches (pollNext crc) s xs t) (hys : Reaches (pollNext crc) s ys u) : t.buf = u.buf := by
  have hlast := hys.again hu.pollNext_eq
  have hfinal : pollNext crc { u with done := true } = .done { u with done := true, complete := true } := by
    simp [pollNext, hu.complete]
  obtain ⟨zs, -, hrest⟩ := hxs.prefix_of_final hlast (Or.inr ⟨_, hfinal⟩)
  rcases hrest.cases_head with ⟨-, heq⟩ | ⟨v, hv, hrest⟩ | ⟨x, v, ws, hv, -, -⟩
  · have hdone := congrArg InMemoryFrameStream.done heq
    rw [ht.done] at hdone
    cases hdone
  · rw [ht.pollNext_eq] at hv
    rcases hv with hv | hv
    · obtain rfl := Pass.again.inj hv
      exact (congrArg InMemoryFrameStream.buf (eq_of_reaches_done rfl hrest)).symm
    · cases hv
  · rw [ht.pollNext_eq] at hv
    cases hv

end Extend

/-! ## Inserted chunks -/

/-- The answers of the input with empty chunks put between them: each {lit}`none` stands for one. -/
abbrev Spliced (E : Type*) := List (Option (Answer (Except E (List UInt8))))

namespace Spliced

/-- The input without the chunks that were put into it -/
def original (m : Spliced E) : Script (Except E (List UInt8)) := m.reduceOption

/-- The input with the empty chunks -/
def full (m : Spliced E) : Script (Except E (List UInt8)) := m.map fun a => a.getD (.ready (.ok []))

theorem original_map_some (front : Script (Except E (List UInt8))) (back : Spliced E) :
    original (front.map some ++ back) = front ++ back.original := by
  induction front with
  | nil => rfl
  | cons a front ih => simpa [original] using ih

theorem full_map_some (front : Script (Except E (List UInt8))) (back : Spliced E) :
    full (front.map some ++ none :: back) = front ++ .ready (.ok []) :: back.full := by
  simp [full, Function.comp_def]

/-- The input has no chunk put into it, or there is a first one. -/
theorem eq_map_some_or (m : Spliced E) :
    (∃ front : Script (Except E (List UInt8)), m = front.map some) ∨
      ∃ (front : Script (Except E (List UInt8))) (back : Spliced E), m = front.map some ++ none :: back := by
  induction m with
  | nil => exact Or.inl ⟨[], rfl⟩
  | cons a m ih =>
      cases a with
      | none => exact Or.inr ⟨[], m, rfl⟩
      | some a =>
          rcases ih with ⟨front, rfl⟩ | ⟨front, back, rfl⟩
          · exact Or.inl ⟨a :: front, rfl⟩
          · exact Or.inr ⟨a :: front, back, rfl⟩

/-- The first chunk that was put in determines what is before and behind it. -/
theorem append_none_inj {front front' : Script (Except E (List UInt8))} {back back' : Spliced E}
    (heq : front.map some ++ none :: back = front'.map some ++ none :: back') : front = front' ∧ back = back' := by
  induction front generalizing front' with
  | nil =>
      cases front' with
      | nil => exact ⟨rfl, (List.cons.inj heq).2⟩
      | cons a front' => cases (List.cons.inj heq).1
  | cons a front ih =>
      cases front' with
      | nil => cases (List.cons.inj heq).1
      | cons a' front' =>
          obtain ⟨ha, heq⟩ := List.cons.inj heq
          obtain ⟨rfl, rfl⟩ := ih heq
          exact ⟨congrArg (· :: front) (Option.some.inj ha), rfl⟩

theorem map_some_ne (front front' : Script (Except E (List UInt8))) (back : Spliced E) :
    front'.map some ≠ front.map some ++ none :: back := by
  intro heq
  have hmem : none ∈ front'.map (some : Answer (Except E (List UInt8)) → _) := by
    rw [heq]
    simp
  simp at hmem

end Spliced

/-- The stream yields the same items with the empty chunks as without, and then ends. -/
def SameItems (crc : List UInt8 → UInt32) (m : Spliced E) (cap : ℕ) : Prop :=
  ∀ xs, Drains (pollNext crc) (new m.original cap) xs ↔ Drains (pollNext crc) (new m.full cap) xs

section Inserted

variable (front : Script (Except E (List UInt8))) (back : Spliced E) (cap : ℕ)

theorem extend_new (more : Script (Except E (List UInt8))) : (new front cap).extend more = new (front ++ more) cap :=
  rfl

/-- The stream ends at an empty chunk that it polls. -/
theorem AtEnd.drains_empty {s : InMemoryFrameStream E} (hs : AtEnd s) (more : Script (Except E (List UInt8))) :
    Drains (pollNext crc) (s.extend (.ready (.ok []) :: more)) [] := by
  have hinp : (s.extend (.ready (.ok []) :: more)).inp = .ready (.ok []) :: more := by
    rw [extend, hs.inp, List.nil_append]
  obtain ⟨buf, hpass⟩ := pollNext_emptyChunk (s := s.extend (.ready (.ok []) :: more)) crc hs.done hs.complete hs.wait hinp
  exact .of_again hpass (drains_ending rfl hs.complete)

/-- When the first empty chunk changes nothing. -/
theorem sameItems_at :
    SameItems crc (front.map some ++ none :: back) cap ↔
      ∀ xs s, Reaches (pollNext crc) (new front cap) xs s → AtEnd s →
        Quiet crc s.buf.data s.buf.cap back.original.items := by
  have horiginal : Spliced.original (front.map some ++ none :: back) = front ++ back.original :=
    Spliced.original_map_some front (none :: back)
  unfold SameItems
  rw [horiginal, Spliced.full_map_some, ← extend_new, ← extend_new]
  by_cases hend : ∃ xs s, Reaches (pollNext crc) (new front cap) xs s ∧ AtEnd s
  · obtain ⟨xs, s, hrun, hs⟩ := hend
    have hrunning : Running s := (running_of_reaches (running_new front cap) hrun).resolve_right (by simp [hs.done])
    have hnext : Running (s.extend back.original) := ⟨hrunning.done, hrunning.complete, hrunning.told⟩
    obtain ⟨ys, hys, hquiet⟩ := hnext.exists_drains crc
    have hfull := Drains.of_reaches (reaches_extend _ hrun hs.done) (hs.drains_empty back.full)
    have horig := Drains.of_reaches (reaches_extend _ hrun hs.done) hys
    have hiff : ys = [] ↔ Quiet crc s.buf.data s.buf.cap back.original.items := by
      rw [hquiet, QuietAt, extend, hs.inp, List.nil_append]
    rw [List.append_nil] at hfull
    constructor
    · intro hsame zs t hzs ht
      rw [ht.buf_eq hs hzs hrun]
      have heq := ((hsame xs).mpr hfull).unique horig
      exact hiff.mp (List.self_eq_append_right.mp heq)
    · intro hall zs
      obtain rfl := hiff.mpr (hall xs s hrun hs)
      rw [List.append_nil] at horig
      exact ⟨fun h => h.unique horig ▸ hfull, fun h => h.unique hfull ▸ horig⟩
  · have hnone : ∀ ys v, Reaches (pollNext crc) (new front cap) ys v → ¬ AtEnd v := fun ys v hv hs =>
      hend ⟨ys, v, hv, hs⟩
    obtain ⟨xs, hxs, -⟩ := (running_new front cap).exists_drains crc
    apply iff_of_true
    · intro zs
      have horig := drains_extend back.original hxs hnone
      have hfull := drains_extend (.ready (.ok []) :: back.full) hxs hnone
      exact ⟨fun h => h.unique horig ▸ hfull, fun h => h.unique hfull ▸ horig⟩
    · exact fun xs s hrun hs => absurd hs (hnone xs s hrun)

end Inserted

/-- Empty chunks change nothing exactly if nothing comes of what is left when the first of them is polled. -/
theorem sameItems_iff (crc : List UInt8 → UInt32) (m : Spliced E) (cap : ℕ) :
    SameItems crc m cap ↔
      ∀ (front : Script (Except E (List UInt8))) (back : Spliced E), m = front.map some ++ none :: back →
        ∀ xs s, Reaches (pollNext crc) (new front cap) xs s → AtEnd s →
          Quiet crc s.buf.data s.buf.cap back.original.items := by
  rcases m.eq_map_some_or with ⟨front, rfl⟩ | ⟨front, back, rfl⟩
  · apply iff_of_true
    · intro xs
      have hsame : Spliced.original (front.map some) = Spliced.full (front.map some) := by
        have horiginal := Spliced.original_map_some front []
        rw [List.append_nil] at horiginal
        rw [horiginal]
        simp [Spliced.original, Spliced.full, Function.comp_def]
      rw [hsame]
    · exact fun front' back heq => absurd heq (Spliced.map_some_ne front' front back)
  · rw [sameItems_at]
    constructor
    · intro hall front' back' heq
      obtain ⟨rfl, rfl⟩ := Spliced.append_none_inj heq
      exact hall
    · exact fun hall => hall front back rfl

/-- An empty chunk in front of a frame hides it. -/
theorem not_sameItems_frame {frame : List UInt8} {n cap : ℕ} {val : InMemoryFrame}
    (hparse : InMemoryFrame.parse crc frame = .ok (.parsed n val)) (hterm : val.tyid ≠ termFrameTypeId) :
    ¬ SameItems crc [none, some (.ready (.ok frame : Except E (List UInt8)))] cap := by
  intro hsame
  have hfinished := not_unfinished_of_parsed hparse
  have hempty : Unfinished (new (E := E) [] cap).buf.data := Or.inl (by simp [new, inmemFrameHead])
  have hend : AtEnd (new (E := E) [] cap) := ⟨rfl, rfl, rfl, by simp [new, SlideBuf.new, SlideBuf.len, inmemFrameHead]⟩
  have hne : frame ≠ [] := by
    rintro rfl
    exact hfinished (Or.inl (by simp [inmemFrameHead]))
  have hquiet := (sameItems_at [] [some (.ready (.ok frame))] cap).mp hsame [] _ .refl hend
  obtain ⟨hroom, hnext⟩ := (quiet_chunk hempty hne).mp hquiet
  have hdata : (new (E := E) [] cap).buf.data = [] := SlideBuf.data_new cap
  rw [hdata, List.nil_append] at hnext
  rw [hdata, List.length_nil, Nat.zero_add] at hroom
  obtain ⟨n', val', hparse', hterm'⟩ := (quiet_of_finished hfinished hroom).mp hnext
  rw [hparse] at hparse'
  obtain ⟨-, rfl⟩ := ParseResult.parsed.inj (Except.ok.inj hparse')
  exact hterm hterm'

/-- So it does whatever the checksum is. -/
theorem not_sameItems_front :
    ¬ ∃ crc : List UInt8 → UInt32, ∀ (m : Spliced Unit) (cap : ℕ), SameItems crc m cap := by
  rintro ⟨crc, hall⟩
  have haccepted : ([1, 2] : List UInt8).length ≤ maxPayload := by decide
  have hterm : (5 : UInt32) ≠ termFrameTypeId := by decide
  exact not_sameItems_frame (@parse_makeFrame crc 5 [1, 2] [] haccepted) hterm (hall _ 80)

end InMemoryFrameStream
end Streams
end Daqbuf
