import Daqbuf.Ca.Wire
/-!
# Reassembly of Channel Access Messages

The connection works in rounds: it reads until the socket is pending or closed, and then parses as many
messages as its queue of results holds.  Only sizes decide how a run goes: what is held, what the next
piece of a message takes, and how much a round delivers.

Main results:

- Theorem {lit}`parseLoop_advance`: the parse loop takes pieces as {lit}`advance` does on their sizes.
- Theorem {lit}`readLoop_ok` and {lit}`readLoop_error`: the read loop takes a whole burst exactly when
  there is room for it and for the next piece.
- Theorem {lit}`Running.drains`: how a run goes, in terms of {lit}`Roomy` and {lit}`lastRound`.
- Theorem {lit}`yieldsAll_iff`: when exactly the stream yields all messages and nothing else.
-/

namespace Daqbuf
namespace Ca

open Bytes Poll

/-! ## Sizes -/

/-- How a parse loop with room for {lit}`quota` messages goes over the pieces: what stays held, and the
pieces that are left. -/
def advance : ℕ → ℕ → List (ℕ × Bool) → ℕ × List (ℕ × Bool)
  | _, held, [] => (held, [])
  | quota, held, (size, last) :: pieces =>
      if 0 < quota ∧ size ≤ held then advance (if last then quota - 1 else quota) (held - size) pieces
      else (held, (size, last) :: pieces)

/-- What a socket delivers up to its next pending answer, and the script behind that answer. -/
def burst : Script (Except IoError (List UInt8)) →
    List UInt8 × Option (Script (Except IoError (List UInt8)))
  | [] => ([], none)
  | .pending :: rest => ([], some rest)
  | .ready (.ok x) :: rest => (x ++ (burst rest).1, (burst rest).2)
  | .ready (.error _) :: rest => burst rest

/-- In every round, what is held and the next piece of the message at its beginning fit together into the
buffer. -/
def Roomy (cap : ℕ) : ℕ → List (ℕ × Bool) → Script (Except IoError (List UInt8)) → Prop
  | held, pieces, [] => held + need pieces ≤ cap
  | held, pieces, .pending :: rest => held + need pieces ≤ cap ∧
      Roomy cap (advance resquCapacity held pieces).1 (advance resquCapacity held pieces).2 rest
  | held, pieces, .ready (.ok x) :: rest => Roomy cap (held + x.length) pieces rest
  | held, pieces, .ready (.error _) :: rest => Roomy cap held pieces rest

/-- What is held when all has been read, and the pieces that are left before the last round. -/
def lastRound : ℕ → List (ℕ × Bool) → Script (Except IoError (List UInt8)) → ℕ × List (ℕ × Bool)
  | held, pieces, [] => (held, pieces)
  | held, pieces, .pending :: rest =>
      lastRound (advance resquCapacity held pieces).1 (advance resquCapacity held pieces).2 rest
  | held, pieces, .ready (.ok x) :: rest => lastRound (held + x.length) pieces rest
  | held, pieces, .ready (.error _) :: rest => lastRound held pieces rest

/-- The number of messages that end with some pieces. -/
def unparsed (pieces : List (ℕ × Bool)) : ℕ := pieces.countP fun p => p.2

/-- The total size of some pieces. -/
def total (pieces : List (ℕ × Bool)) : ℕ := (pieces.map fun p => p.1).sum

/-- What happens over the pieces that a parse loop takes. -/
theorem advance_spec (quota held : ℕ) (pieces : List (ℕ × Bool)) :
    ∃ taken, pieces = taken ++ (advance quota held pieces).2 ∧
      held = (advance quota held pieces).1 + total taken ∧ unparsed taken ≤ quota ∧
      ((advance quota held pieces).2 = [] ∨ unparsed taken = quota ∨
        (advance quota held pieces).1 < need (advance quota held pieces).2) := by
  induction pieces generalizing quota held with
  | nil => exact ⟨[], rfl, rfl, Nat.zero_le _, .inl rfl⟩
  | cons piece pieces ih =>
      rcases piece with ⟨size, last⟩
      rw [advance]
      by_cases hgo : 0 < quota ∧ size ≤ held
      · rw [if_pos hgo]
        rcases ih (if last then quota - 1 else quota) (held - size) with
          ⟨taken, hpieces, hheld, hquota, hstop⟩
        refine ⟨(size, last) :: taken, congrArg _ hpieces, ?_, ?_, ?_⟩
        · simp only [total, List.map_cons, List.sum_cons] at hheld ⊢
          omega
        · cases last <;> simp [unparsed] at hquota ⊢ <;> omega
        · refine hstop.imp_right (Or.imp_left fun heq => ?_)
          cases last <;> simp [unparsed] at heq ⊢ <;> omega
      · rw [if_neg hgo]
        refine ⟨[], rfl, rfl, Nat.zero_le _, .inr ?_⟩
        by_cases hquota : 0 < quota
        · exact .inr (by simp only [need]; omega)
        · exact .inl (by simp only [unparsed, List.countP_nil]; omega)

/-- The rounds of a script, one by one. -/
theorem roomy_burst (cap held : ℕ) (pieces : List (ℕ × Bool))
    (script : Script (Except IoError (List UInt8))) :
    Roomy cap held pieces script ↔ held + (burst script).1.length + need pieces ≤ cap ∧
      ∀ rest, (burst script).2 = some rest →
        Roomy cap (advance resquCapacity (held + (burst script).1.length) pieces).1
          (advance resquCapacity (held + (burst script).1.length) pieces).2 rest := by
  induction script generalizing held with
  | nil => simp [Roomy, burst]
  | cons answer script ih =>
      rcases answer with _ | ⟨e | x⟩
      · simp [Roomy, burst]
      · simpa [Roomy, burst] using ih held
      · simpa [Roomy, burst, Nat.add_assoc] using ih (held + x.length)

theorem lastRound_burst (held : ℕ) (pieces : List (ℕ × Bool))
    (script : Script (Except IoError (List UInt8))) :
    lastRound held pieces script =
      match (burst script).2 with
      | none => (held + (burst script).1.length, pieces)
      | some rest => lastRound (advance resquCapacity (held + (burst script).1.length) pieces).1
          (advance resquCapacity (held + (burst script).1.length) pieces).2 rest := by
  induction script generalizing held with
  | nil => simp [lastRound, burst]
  | cons answer script ih =>
      rcases answer with _ | ⟨e | x⟩
      · simp [lastRound, burst]
      · simpa [lastRound, burst] using ih held
      · simpa [lastRound, burst, Nat.add_assoc] using ih (held + x.length)

/-! ## One round -/

section Round

variable {B : Type} [ByteQueue B] [LawfulByteQueue B]

/-- The socket delivers bytes only, and some with every answer. -/
def Delivers (script : Script (Except IoError (List UInt8))) : Prop :=
  ∀ answer ∈ script.items, ∃ x, answer = .ok x ∧ x ≠ []

theorem Delivers.tail {answer : Answer (Except IoError (List UInt8))}
    {script : Script (Except IoError (List UInt8))} (hdelivers : Delivers (answer :: script)) :
    Delivers script := by
  intro a ha
  cases answer with
  | pending => exact hdelivers a ha
  | ready y => exact hdelivers a (List.mem_cons_of_mem y ha)

/-- What is behind the first burst of a socket that delivers bytes only. -/
theorem Delivers.burst {script rest : Script (Except IoError (List UInt8))} (hdelivers : Delivers script)
    (hrest : (burst script).2 = some rest) : Delivers rest ∧ rest.length < script.length := by
  induction script with
  | nil => simp [Ca.burst] at hrest
  | cons answer script ih =>
      rcases answer with _ | ⟨e | x⟩
      · obtain rfl := Option.some.inj hrest
        exact ⟨hdelivers.tail, Nat.lt_succ_self _⟩
      · rcases ih hdelivers.tail hrest with ⟨hnext, hlt⟩
        exact ⟨hnext, Nat.lt_succ_of_lt hlt⟩
      · rcases ih hdelivers.tail hrest with ⟨hnext, hlt⟩
        exact ⟨hnext, Nat.lt_succ_of_lt hlt⟩

/-- One read takes a part of the first answer, and leaves as much of the burst as it does not take. -/
theorem readLoop_step {needMin : ℕ} {buf : B} {x : List UInt8}
    {rest : Script (Except IoError (List UInt8))} (progress : Bool) (hneed : 0 < needMin) (hx : x ≠ [])
    (hroom : ByteQueue.len buf + needMin ≤ ByteQueue.cap buf) :
    ∃ q y script, CaProto.readLoop needMin buf (.ready (.ok x) :: rest) progress =
        CaProto.readLoop needMin q script true ∧
      ByteQueue.cap q = ByteQueue.cap buf ∧ ByteQueue.data q = ByteQueue.data buf ++ y ∧
      (burst (.ready (.ok x) :: rest)).1 = y ++ (burst script).1 ∧
      (burst (.ready (.ok x) :: rest)).2 = (burst script).2 ∧
      CaProto.readWeight script < CaProto.readWeight (.ready (.ok x) :: rest) ∧
      (Delivers (.ready (.ok x) :: rest) → Delivers script) := by
  rcases area_of_le hroom with ⟨a, q, harea⟩
  rcases LawfulByteQueue.area_spec buf q needMin a harea with ⟨ha, hcap, hdata, hfill⟩
  have hapos : a ≠ 0 := by omega
  by_cases hlong : a < x.length
  · rcases hfill (x.take a) (by rw [List.length_take]; omega) with ⟨q', hq', hcap', hdata'⟩
    refine ⟨q', x.take a, .ready (.ok (x.drop a)) :: rest, ?_, hcap', hdata', ?_, rfl, ?_, ?_⟩
    · rw [CaProto.readLoop]
      simp [harea, hapos, hx, hq', hlong]
    · simp only [burst]
      rw [← List.append_assoc, List.take_append_drop]
    · simp only [CaProto.readWeight, List.length_drop]
      omega
    · intro hdelivers answer hanswer
      rcases List.mem_cons.mp hanswer with rfl | hanswer
      · refine ⟨x.drop a, rfl, ?_⟩
        rw [Ne, List.drop_eq_nil_iff]
        omega
      · exact hdelivers.tail answer hanswer
  · have htake : x.take a = x := List.take_of_length_le (by omega)
    rcases hfill x (by omega) with ⟨q', hq', hcap', hdata'⟩
    refine ⟨q', x, rest, ?_, hcap', hdata', rfl, rfl, ?_, fun hdelivers => hdelivers.tail⟩
    · rw [CaProto.readLoop]
      simp [harea, hapos, hx, htake, hq', hlong]
    · simp only [CaProto.readWeight]
      omega

/-- Where there is room for a burst and for the next piece, the read loop takes the whole burst. -/
theorem readLoop_ok {needMin : ℕ} {buf : B} {script : Script (Except IoError (List UInt8))}
    (progress : Bool) (hneed : 0 < needMin) (hdelivers : Delivers script)
    (hroom : ByteQueue.len buf + (burst script).1.length + needMin ≤ ByteQueue.cap buf) :
    ∃ q flag, ByteQueue.cap q = ByteQueue.cap buf ∧
      ByteQueue.data q = ByteQueue.data buf ++ (burst script).1 ∧
      CaProto.readLoop needMin buf script progress = {
        result := .ok ()
        buf := q
        tcpRead := (burst script).2.getD []
        eof := (burst script).2.isNone
        pending := (burst script).2.isSome
        progress := flag } := by
  induction hweight : CaProto.readWeight script using Nat.strong_induction_on
    generalizing buf script progress with
  | h n ih =>
      subst hweight
      rcases area_of_le (show ByteQueue.len buf + needMin ≤ ByteQueue.cap buf by omega) with
        ⟨a, q, harea⟩
      rcases LawfulByteQueue.area_spec buf q needMin a harea with ⟨ha, hcap, hdata, _⟩
      have hapos : a ≠ 0 := by omega
      rcases script with _ | ⟨_ | ⟨e | x⟩, rest⟩
      · refine ⟨q, progress, hcap, by simpa [burst] using hdata, ?_⟩
        rw [CaProto.readLoop]
        simp [harea, hapos, burst]
      · refine ⟨q, progress, hcap, by simpa [burst] using hdata, ?_⟩
        rw [CaProto.readLoop]
        simp [harea, hapos, burst]
      · rcases hdelivers (.error e) List.mem_cons_self with ⟨x, hx, _⟩
        simp at hx
      · rcases hdelivers (.ok x) List.mem_cons_self with ⟨y, hy, hne⟩
        obtain rfl := Except.ok.inj hy
        rcases readLoop_step progress hneed hne (show _ ≤ ByteQueue.cap buf by omega) with
          ⟨q', y, script, hstep, hcap', hdata', hfst, hsnd, hless, hnext⟩
        have hlen : ByteQueue.len q' = ByteQueue.len buf + y.length := by
          rw [ByteQueue.len, hdata', List.length_append]
          rfl
        rw [hfst, List.length_append] at hroom
        rcases ih _ hless true (hnext hdelivers) (show _ ≤ ByteQueue.cap q' by omega) rfl with
          ⟨q'', flag, hcap'', hdata'', hread⟩
        refine ⟨q'', flag, hcap''.trans hcap', ?_, ?_⟩
        · rw [hdata'', hdata', hfst, List.append_assoc]
        · rw [hstep, hread, hsnd]

/-- Where there is no room for a burst and for the next piece, the read loop fails on the buffer. -/
theorem readLoop_error {needMin : ℕ} {buf : B} {script : Script (Except IoError (List UInt8))}
    (progress : Bool) (hneed : 0 < needMin) (hdelivers : Delivers script)
    (hfull : ByteQueue.cap buf < ByteQueue.len buf + (burst script).1.length + needMin) :
    (CaProto.readLoop needMin buf script progress).result = .error .slideBuf := by
  induction hweight : CaProto.readWeight script using Nat.strong_induction_on
    generalizing buf script progress with
  | h n ih =>
      subst hweight
      by_cases hnow : ByteQueue.cap buf < ByteQueue.len buf + needMin
      · rw [CaProto.readLoop, (LawfulByteQueue.area_eq_none buf needMin).mpr hnow]
      · rcases script with _ | ⟨_ | ⟨e | x⟩, rest⟩
        · simp [burst] at hfull
          omega
        · simp [burst] at hfull
          omega
        · rcases hdelivers (.error e) List.mem_cons_self with ⟨x, hx, _⟩
          simp at hx
        · rcases hdelivers (.ok x) List.mem_cons_self with ⟨y, hy, hne⟩
          obtain rfl := Except.ok.inj hy
          rcases readLoop_step progress hneed hne (show _ ≤ ByteQueue.cap buf by omega) with
            ⟨q', y, script, hstep, hcap', hdata', hfst, hsnd, hless, hnext⟩
          have hlen : ByteQueue.len q' = ByteQueue.len buf + y.length := by
            rw [ByteQueue.len, hdata', List.length_append]
            rfl
          rw [hfst, List.length_append] at hfull
          rw [hstep]
          exact ih _ hless true (hnext hdelivers) (by omega) rfl

/-- What the parse loop makes of a buffer that holds a part of what the parser stands before. -/
structure Advanced (t : ℕ) (s : CaProto B) (future : List UInt8) (msgs : List CaMsg)
    (pieces : List (ℕ × Bool)) (taken msgs' : List CaMsg) (q : B) (state : CaState) : Prop where
  split : msgs = taken ++ msgs'
  cap : ByteQueue.cap q = ByteQueue.cap s.buf
  held : ByteQueue.len q =
    (advance (resquCapacity - s.resqu.length) (ByteQueue.len s.buf) pieces).1
  standing : Standing t state (ByteQueue.data q ++ future) msgs'
    (advance (resquCapacity - s.resqu.length) (ByteQueue.len s.buf) pieces).2
  waits : state = .stdHead ∨ ByteQueue.len q < state.needMin

omit [LawfulByteQueue B] in
theorem parseLoop_item {s t : CaProto B} {item : CaItem} (progress : Bool)
    (hroom : s.resqu.length < resquCapacity) (hle : s.state.needMin ≤ ByteQueue.len s.buf)
    (hparse : s.parseItem = (.item item, t)) :
    s.parseLoop progress = CaProto.parseLoop { t with resqu := t.resqu ++ [item] } true := by
  rw [CaProto.parseLoop, dif_pos hroom, if_pos hle]
  split <;> simp_all

omit [LawfulByteQueue B] in
theorem parseLoop_nothing {s t : CaProto B} (progress : Bool)
    (hroom : s.resqu.length < resquCapacity) (hle : s.state.needMin ≤ ByteQueue.len s.buf)
    (hparse : s.parseItem = (.nothing, t)) : s.parseLoop progress = t.parseLoop true := by
  rw [CaProto.parseLoop, dif_pos hroom, if_pos hle]
  split <;> simp_all

omit [LawfulByteQueue B] in
theorem parseLoop_failed {s t : CaProto B} {e : Error} (progress : Bool)
    (hroom : s.resqu.length < resquCapacity) (hle : s.state.needMin ≤ ByteQueue.len s.buf)
    (hparse : s.parseItem = (.failed e, t)) : s.parseLoop progress = (some (.error e), t) := by
  rw [CaProto.parseLoop, dif_pos hroom, if_pos hle]
  split <;> simp_all

omit [LawfulByteQueue B] in
theorem parseLoop_stop {s : CaProto B} (progress : Bool)
    (hstop : s.resqu.length < resquCapacity → ByteQueue.len s.buf < s.state.needMin) :
    s.parseLoop progress = (some (.ok progress), s) := by
  rw [CaProto.parseLoop]
  by_cases hroom : s.resqu.length < resquCapacity
  · have hlt := hstop hroom
    rw [dif_pos hroom, if_neg (by omega)]
  · rw [dif_neg hroom]

/-- The parse loop takes pieces as {lit}`advance` does on their sizes. -/
theorem parseLoop_advance {t : ℕ} {s : CaProto B} {future : List UInt8} {msgs : List CaMsg}
    {pieces : List (ℕ × Bool)} (progress : Bool) (htrunc : s.arrayTruncate = t)
    (hstand : Standing t s.state (ByteQueue.data s.buf ++ future) msgs pieces)
    (hwaits : s.state = .stdHead ∨ s.resqu.length < resquCapacity) :
    ∃ taken msgs' q state flag, Advanced t s future msgs pieces taken msgs' q state ∧
      s.parseLoop progress = (some (.ok flag), { s with
        buf := q
        state := state
        resqu := s.resqu ++ taken.map .msg }) := by
  induction pieces generalizing s msgs progress with
  | nil =>
      rcases hstand.nil with ⟨rfl, hempty⟩
      have hlt : ByteQueue.len s.buf < s.state.needMin := by
        rw [hstand.needMin_eq, ByteQueue.len, (List.append_eq_nil_iff.mp hempty).1]
        decide
      refine ⟨[], [], s.buf, s.state, progress, ⟨rfl, rfl, rfl, hstand, .inr hlt⟩, ?_⟩
      rw [parseLoop_stop progress fun _ => hlt]
      simp
  | cons piece pieces ih =>
      rcases piece with ⟨size, last⟩
      have hneed : s.state.needMin = size := hstand.needMin_eq
      by_cases hgo : s.resqu.length < resquCapacity ∧ size ≤ ByteQueue.len s.buf
      · rcases hgo with ⟨hroom, hle⟩
        have hquota : 0 < resquCapacity - s.resqu.length := by omega
        rcases hstand.takes htrunc (List.cons_ne_nil _ _) hle with ⟨q, hcap, htakes⟩
        cases htakes with
        | @last msg msgs _ _ _ hlen hparse hstand' =>
            have hheld : ByteQueue.len s.buf - size = ByteQueue.len q := by omega
            rcases ih (s := { s with buf := q, state := .stdHead, resqu := s.resqu ++ [.msg msg] })
              true htrunc hstand' (.inl rfl) with
              ⟨taken, msgs', q', state, flag, ⟨hsplit, hcap', hheld', hstanding, hwaits'⟩, hloop⟩
            have hadvance : advance (resquCapacity - s.resqu.length) (ByteQueue.len s.buf)
                ((size, true) :: pieces) =
                advance (resquCapacity - (s.resqu ++ [CaItem.msg msg]).length) (ByteQueue.len q)
                  pieces := by
              rw [advance, if_pos ⟨hquota, hle⟩, if_pos rfl, hheld, List.length_append,
                List.length_singleton, Nat.sub_add_eq]
            refine ⟨msg :: taken, msgs', q', state, flag,
              ⟨congrArg _ hsplit, hcap'.trans hcap, ?_, ?_, hwaits'⟩, ?_⟩
            · rw [hadvance]
              exact hheld'
            · rw [hadvance]
              exact hstanding
            · rw [parseLoop_item progress hroom (hneed.trans_le hle) hparse, hloop]
              simp
        | @inner _ _ _ _ state hlen hparse hstand' =>
            have hheld : ByteQueue.len s.buf - size = ByteQueue.len q := by omega
            rcases ih (s := { s with buf := q, state := state }) true htrunc hstand' (.inr hroom) with
              ⟨taken, msgs', q', state', flag, ⟨hsplit, hcap', hheld', hstanding, hwaits'⟩, hloop⟩
            have hadvance : advance (resquCapacity - s.resqu.length) (ByteQueue.len s.buf)
                ((size, false) :: pieces) =
                advance (resquCapacity - s.resqu.length) (ByteQueue.len q) pieces := by
              rw [advance, if_pos ⟨hquota, hle⟩, if_neg Bool.false_ne_true, hheld]
            refine ⟨taken, msgs', q', state', flag, ⟨hsplit, hcap'.trans hcap, ?_, ?_, hwaits'⟩, ?_⟩
            · rw [hadvance]
              exact hheld'
            · rw [hadvance]
              exact hstanding
            · rw [parseLoop_nothing progress hroom (hneed.trans_le hle) hparse, hloop]
      · have hstay : advance (resquCapacity - s.resqu.length) (ByteQueue.len s.buf)
            ((size, last) :: pieces) = (ByteQueue.len s.buf, (size, last) :: pieces) := by
          rw [advance, if_neg (by omega)]
        have hstop : s.resqu.length < resquCapacity → ByteQueue.len s.buf < s.state.needMin := by
          omega
        refine ⟨[], msgs, s.buf, s.state, progress, ⟨rfl, rfl, ?_, ?_, hwaits.imp_right hstop⟩, ?_⟩
        · rw [hstay]
        · rw [hstay]
          exact hstand
        · rw [parseLoop_stop progress hstop]
          simp

end Round

/-! ## Runs -/

/-- The errors that say that a buffer has no room. -/
def Error.isSpace : Error → Bool
  | .slideBuf => true
  | .bufferTooSmallForNeedMin _ _ => true
  | .noReadBufferSpace => true
  | _ => false

/-- All bytes that a socket delivers. -/
def delivered : Script (Except IoError (List UInt8)) → List UInt8
  | [] => []
  | .ready (.ok x) :: rest => x ++ delivered rest
  | _ :: rest => delivered rest

@[simp]
theorem delivered_nil : delivered [] = [] := rfl

@[simp]
theorem delivered_pending (rest : Script (Except IoError (List UInt8))) :
    delivered (.pending :: rest) = delivered rest := rfl

@[simp]
theorem delivered_ready (x : List UInt8) (rest : Script (Except IoError (List UInt8))) :
    delivered (.ready (.ok x) :: rest) = x ++ delivered rest := rfl

/-- The items that some messages are handed out as. -/
def yielded (msgs : List CaMsg) : List (Except Error CaItem) := msgs.map fun m => .ok (.msg m)

section Run

variable {B : Type} [ByteQueue B] {s : CaProto B} {t : ℕ} {future : List UInt8} {msgs : List CaMsg}
  {pieces : List (ℕ × Bool)}

/-- What a socket delivers is its first burst and what comes behind. -/
theorem delivered_burst {script : Script (Except IoError (List UInt8))} (hdelivers : Delivers script) :
    delivered script = (burst script).1 ++ delivered ((burst script).2.getD []) := by
  induction script with
  | nil => rfl
  | cons answer script ih =>
      rcases answer with _ | ⟨e | x⟩
      · rfl
      · rcases hdelivers (.error e) List.mem_cons_self with ⟨x, hx, _⟩
        simp at hx
      · simp only [delivered, burst, List.append_assoc]
        rw [ih hdelivers.tail]

/-- A connection with nothing to write. -/
structure Quiet (s : CaProto B) : Prop where
  out : s.out = []
  outbuf : ByteQueue.len s.outbuf = 0

/-- Without outgoing messages, the outgoing half only notices that the socket is closed. -/
theorem Quiet.pollOutbound (hquiet : Quiet s) :
    s.pollOutbound = some (.idle, if s.tcpEof then { s with state := .done } else s) := by
  rcases s with ⟨tcpRead, tcpWrite, tcpEof, state, buf, outbuf, out, arrayTruncate, resqu⟩
  obtain rfl : out = [] := hquiet.out
  have hwrite : CaProto.writeOut tcpWrite outbuf false = (.emptied, false, tcpWrite, outbuf) := by
    rw [CaProto.writeOut.eq_def]
    exact if_pos hquiet.outbuf
  simp only [CaProto.pollOutbound, CaProto.placeOut, Option.bind_eq_bind, Option.bind_some, hwrite,
    Bool.false_eq_true, if_false, Option.pure_def]
  cases tcpEof <;> rfl

/-- The results in the queue are handed out first. -/
theorem drains_resqu {out : List (Except Error CaItem)} {items : List CaMsg}
    (hresqu : s.resqu = items.map .msg) (hrest : Drains CaProto.pollNext { s with resqu := [] } out) :
    Drains CaProto.pollNext s (yielded items ++ out) := by
  induction items generalizing s with
  | nil =>
      have hsame : { s with resqu := [] } = s := by
        rcases s with ⟨tcpRead, tcpWrite, tcpEof, state, buf, outbuf, out, arrayTruncate, resqu⟩
        obtain rfl : resqu = [] := hresqu
        rfl
      rwa [hsame] at hrest
  | cons item items ih =>
      refine .of_item (t := { s with resqu := items.map .msg }) ?_ (ih rfl hrest)
      simp only [CaProto.pollNext, hresqu, List.map_cons]

/-- A connection whose parser is done reports its end. -/
theorem drains_done (hresqu : s.resqu = []) (hdone : s.state = .done) :
    Drains CaProto.pollNext s [] := by
  refine .of_done (t := s) ?_
  simp only [CaProto.pollNext, hresqu, hdone, if_true]

/-- Without results in the queue, a pass is one execution of the loop body. -/
theorem pollNext_body (hresqu : s.resqu = []) (hdone : s.state ≠ .done) :
    s.pollNext = match s.loopBody with
      | (some (.ok (.ready ())), s) => .again s
      | (some (.ok .pending), s) => .pending s
      | (some (.error e), s) => .item (.error e) { s with state := .done }
      | (none, _) => .panic := by
  simp only [CaProto.pollNext, hresqu]
  exact if_neg hdone

/-- An error is handed out, and is the last item. -/
theorem drains_error {u : CaProto B} {e : Error} (hresqu : s.resqu = []) (hdone : s.state ≠ .done)
    (hbody : s.loopBody = (some (.error e), u)) (hu : u.resqu = []) :
    Drains CaProto.pollNext s [.error e] := by
  refine .of_item (t := { u with state := .done }) ?_ (drains_done hu rfl)
  rw [pollNext_body hresqu hdone, hbody]

/-- A loop body that does not fail leads on, pending or not. -/
theorem drains_body {u : CaProto B} {answer : Answer Unit} {out : List (Except Error CaItem)}
    (hresqu : s.resqu = []) (hdone : s.state ≠ .done) (hbody : s.loopBody = (some (.ok answer), u))
    (hrest : Drains CaProto.pollNext u out) : Drains CaProto.pollNext s out := by
  cases answer with
  | pending =>
      refine .of_pending ?_ hrest
      rw [pollNext_body hresqu hdone, hbody]
  | ready x =>
      refine .of_again ?_ hrest
      rw [pollNext_body hresqu hdone, hbody]

/-- Once the socket is closed, what the buffer still holds is lost; a remainder that the final state
takes for parseable is an error. -/
theorem drains_closed (hquiet : Quiet s) (hclosed : s.tcpEof = true) (hresqu : s.resqu = [])
    (hcap : CaState.done.needMin ≤ ByteQueue.cap s.buf) :
    ∃ tail, Drains CaProto.pollNext s tail ∧
      (tail = [] ∨ tail = [.error .parseAttemptInDoneState]) ∧
      (ByteQueue.len s.buf = 0 → tail = []) := by
  by_cases hdone : s.state = .done
  · exact ⟨[], drains_done hresqu hdone, .inl rfl, fun _ => rfl⟩
  · have hbody : s.loopBody = { s with state := .done }.readAndParse false false := by
      rw [CaProto.loopBody, hquiet.pollOutbound, hclosed]
      rfl
    have hroom : s.resqu.length < resquCapacity := by
      rw [hresqu]
      decide
    by_cases hlong : CaState.done.needMin ≤ ByteQueue.len s.buf
    · have hparsed : { s with state := .done, tcpEof := true }.parseItem =
          (.failed .parseAttemptInDoneState, { s with state := .done, tcpEof := true }) := by
        simp [CaProto.parseItem, CaProto.cutItem]
      have hloop := parseLoop_failed (s := { s with state := .done, tcpEof := true }) false hroom hlong
        hparsed
      have hread : { s with state := .done }.readAndParse false false =
          (some (.error .parseAttemptInDoneState), { s with state := .done, tcpEof := true }) := by
        rw [CaProto.readAndParse, if_neg (Nat.not_lt.mpr hcap)]
        simp only [hclosed, if_true, hloop]
      refine ⟨_, .of_item ?_ (drains_done (s := { s with state := .done, tcpEof := true }) hresqu rfl),
        .inr rfl, fun hzero => ?_⟩
      · rw [pollNext_body hresqu hdone, hbody, hread]
      · rw [hzero] at hlong
        exact absurd hlong (by decide)
    · have hloop := parseLoop_stop (s := { s with state := .done, tcpEof := true }) false
        fun _ => Nat.lt_of_not_le hlong
      have hread : { s with state := .done }.readAndParse false false =
          (some (.ok (.ready ())), { s with state := .done, tcpEof := true }) := by
        rw [CaProto.readAndParse, if_neg (Nat.not_lt.mpr hcap)]
        simp only [hclosed, if_true, hloop, Bool.false_eq_true, if_false, Bool.or_self]
      refine ⟨[], .of_again ?_ (drains_done (s := { s with state := .done, tcpEof := true }) hresqu rfl),
        .inl rfl, fun _ => rfl⟩
      rw [pollNext_body hresqu hdone, hbody, hread]

/-- A run of the connection: the parser stands before {lit}`pieces` of {lit}`msgs`, of which the socket
has yet to deliver a part, and {lit}`future` is what it never delivers. -/
structure Running (t : ℕ) (s : CaProto B) (future : List UInt8) (msgs : List CaMsg)
    (pieces : List (ℕ × Bool)) : Prop where
  quiet : Quiet s
  opened : s.tcpEof = false
  resqu : s.resqu = []
  trunc : s.arrayTruncate = t
  cap : CaState.done.needMin ≤ ByteQueue.cap s.buf
  delivers : Delivers s.tcpRead
  standing : Standing t s.state (ByteQueue.data s.buf ++ (delivered s.tcpRead ++ future)) msgs pieces
  needs : 0 < s.state.needMin

/-- The parser never stands done in front of messages. -/
theorem Standing.ne_done {state : CaState} {bytes : List UInt8}
    (hstand : Standing t state bytes msgs pieces) : state ≠ .done := by
  cases hstand <;> simp

/-- Where no messages are to come, no bytes are. -/
theorem Standing.bytes_nil {state : CaState} {bytes : List UInt8}
    (hstand : Standing t state bytes [] pieces) : bytes = [] := by
  generalize hmsgs : ([] : List CaMsg) = msgs at hstand
  cases hstand with
  | head ms =>
      obtain rfl : ms = [] := List.map_eq_nil_iff.mp hmsgs.symm
      rfl
  | ext m ms hext => simp at hmsgs
  | payload m ms => simp at hmsgs

/-- The loop body of a running connection is one round. -/
theorem Running.loopBody (hrun : Running t s future msgs pieces) :
    s.loopBody = s.readAndParse false false := by
  rw [CaProto.loopBody, hrun.quiet.pollOutbound, hrun.opened]
  rfl

variable [LawfulByteQueue B]

/-- Without room for a round, the connection fails on its buffer. -/
theorem Running.fails (hrun : Running t s future msgs pieces)
    (hfull : ByteQueue.cap s.buf < ByteQueue.len s.buf + (burst s.tcpRead).1.length + need pieces) :
    ∃ e, e.isSpace = true ∧ Drains CaProto.pollNext s [.error e] := by
  have hbody := hrun.loopBody
  have hdone := hrun.standing.ne_done
  have hneed := hrun.standing.needMin_eq
  by_cases hsmall : ByteQueue.cap s.buf < s.state.needMin
  · rw [CaProto.readAndParse, if_pos hsmall] at hbody
    exact ⟨_, rfl, drains_error hrun.resqu hdone hbody hrun.resqu⟩
  · rw [← hneed] at hfull
    have hread := readLoop_error false hrun.needs hrun.delivers hfull
    rw [CaProto.readAndParse, if_neg hsmall] at hbody
    simp only [hrun.opened, Bool.false_eq_true, if_false, hread] at hbody
    exact ⟨_, rfl, drains_error hrun.resqu hdone hbody hrun.resqu⟩

/-- With room for a round, the loop body reads the burst and takes the pieces that it completes. -/
theorem Running.round (hrun : Running t s future msgs pieces)
    (hroom : ByteQueue.len s.buf + (burst s.tcpRead).1.length + need pieces ≤ ByteQueue.cap s.buf) :
    ∃ taken msgs' q state answer, msgs = taken ++ msgs' ∧ ByteQueue.cap q = ByteQueue.cap s.buf ∧
      ByteQueue.len q = (advance resquCapacity
        (ByteQueue.len s.buf + (burst s.tcpRead).1.length) pieces).1 ∧
      Standing t state (ByteQueue.data q ++ (delivered ((burst s.tcpRead).2.getD []) ++ future)) msgs'
        (advance resquCapacity (ByteQueue.len s.buf + (burst s.tcpRead).1.length) pieces).2 ∧
      (state = .stdHead ∨ ByteQueue.len q < state.needMin) ∧
      ∃ state', (state' = state ∨ state' = .done ∧ (burst s.tcpRead).2 = none) ∧
        s.loopBody = (some (.ok answer), { s with
          tcpRead := (burst s.tcpRead).2.getD []
          tcpEof := (burst s.tcpRead).2.isNone
          buf := q
          state := state'
          resqu := taken.map .msg }) := by
  have hneed := hrun.standing.needMin_eq
  have hbody := hrun.loopBody
  have hroom' : ByteQueue.len s.buf + (burst s.tcpRead).1.length + s.state.needMin ≤ ByteQueue.cap s.buf := by
    rw [hneed]
    exact hroom
  rcases readLoop_ok false hrun.needs hrun.delivers hroom' with ⟨q, flag, hcap, hdata, hread⟩
  have hlen : ByteQueue.len q = ByteQueue.len s.buf + (burst s.tcpRead).1.length := by
    rw [ByteQueue.len, hdata, List.length_append]
    rfl
  have hstand : Standing t s.state
      (ByteQueue.data q ++ (delivered ((burst s.tcpRead).2.getD []) ++ future)) msgs pieces := by
    have hstand := hrun.standing
    rw [delivered_burst hrun.delivers] at hstand
    rw [hdata]
    simpa only [List.append_assoc] using hstand
  have hempty : s.resqu.length = 0 := by rw [hrun.resqu, List.length_nil]
  rcases parseLoop_advance (s := { s with
      tcpRead := (burst s.tcpRead).2.getD []
      tcpEof := (burst s.tcpRead).2.isNone
      buf := q }) flag hrun.trunc hstand (.inr (by simp only [hempty]; decide)) with
    ⟨taken, msgs', q', state, progress, ⟨hsplit, hcap', hheld, hstanding, hwaits⟩, hloop⟩
  simp only [hempty, Nat.sub_zero, hlen] at hheld hstanding
  simp only [hrun.resqu, List.nil_append] at hloop
  have hsmall : ¬ ByteQueue.cap s.buf < s.state.needMin := by omega
  rw [CaProto.readAndParse, if_neg hsmall] at hbody
  simp only [hrun.opened, Bool.false_eq_true, if_false, hread] at hbody
  simp only [hrun.resqu] at hloop hbody
  simp only [hloop] at hbody
  cases progress with
  | true =>
      refine ⟨taken, msgs', q', state, .ready (), hsplit, hcap'.trans hcap, hheld, hstanding, hwaits,
        state, .inl rfl, ?_⟩
      rw [hbody, if_pos rfl]
  | false =>
      cases hburst : (burst s.tcpRead).2 with
      | some rest =>
          rw [hburst] at hbody hstanding
          refine ⟨taken, msgs', q', state, .pending, hsplit, hcap'.trans hcap, hheld, hstanding, hwaits,
            state, .inl rfl, ?_⟩
          rw [hbody]
          rfl
      | none =>
          rw [hburst] at hbody hstanding
          refine ⟨taken, msgs', q', state, .ready (), hsplit, hcap'.trans hcap, hheld, hstanding, hwaits,
            .done, .inr ⟨rfl, rfl⟩, ?_⟩
          rw [hbody]
          rfl

/-- How a run ends: with room in every round, the messages that the last round completes are the last;
without, the run fails on its buffer. -/
inductive Outcome (t cap held : ℕ) (pieces : List (ℕ × Bool))
    (script : Script (Except IoError (List UInt8))) (msgs' : List CaMsg) :
    List (Except Error CaItem) → Prop
  | roomy {tail : List (Except Error CaItem)} {state : CaState} {bytes : List UInt8}
      (hroomy : Roomy cap held pieces script)
      (htail : tail = [] ∨ tail = [.error .parseAttemptInDoneState])
      (hall : msgs' = [] → tail = [])
      (hstand : Standing t state bytes msgs' (advance resquCapacity (lastRound held pieces script).1
        (lastRound held pieces script).2).2) : Outcome t cap held pieces script msgs' tail
  | full {e : Error} (hfull : ¬ Roomy cap held pieces script) (hspace : e.isSpace = true) :
      Outcome t cap held pieces script msgs' [.error e]

/-- How a run goes: it hands out the messages that it takes, and then ends in one of two ways. -/
theorem Running.drains (hrun : Running t s future msgs pieces) :
    ∃ taken msgs' tail, msgs = taken ++ msgs' ∧ Drains CaProto.pollNext s (yielded taken ++ tail) ∧
      Outcome t (ByteQueue.cap s.buf) (ByteQueue.len s.buf) pieces s.tcpRead msgs' tail := by
  -- induction on the rounds
  induction hscript : s.tcpRead.length using Nat.strong_induction_on generalizing s msgs pieces with
  | h n ih =>
      subst hscript
      by_cases hroom :
          ByteQueue.len s.buf + (burst s.tcpRead).1.length + need pieces ≤ ByteQueue.cap s.buf
      · rcases hrun.round hroom with
          ⟨taken, msgs', q, state, answer, rfl, hcap, hheld, hstand, hwaits, state', hstate', hbody⟩
        have hdone := hrun.standing.ne_done
        cases hburst : (burst s.tcpRead).2 with
        | none =>
            rw [hburst] at hbody hstand
            rcases drains_closed (s := { s with
                tcpRead := []
                tcpEof := true
                buf := q
                state := state'
                resqu := [] }) ⟨hrun.quiet.out, hrun.quiet.outbuf⟩ rfl rfl (hcap ▸ hrun.cap) with
              ⟨tail, hdrains, htail, hempty⟩
            refine ⟨taken, msgs', tail, rfl, ?_, ?_⟩
            · exact drains_body hrun.resqu hdone hbody (drains_resqu rfl hdrains)
            · have hlast := lastRound_burst (ByteQueue.len s.buf) pieces s.tcpRead
              rw [hburst] at hlast
              refine .roomy ?_ htail (fun hnil => ?_) (by rw [hlast]; exact hstand)
              · rw [roomy_burst, hburst]
                exact ⟨hroom, fun rest hrest => by simp at hrest⟩
              · subst hnil
                refine hempty ?_
                have hbytes := (List.append_eq_nil_iff.mp hstand.bytes_nil).1
                simp only [ByteQueue.len, hbytes, List.length_nil]
        | some rest =>
            rw [hburst] at hbody hstand
            rcases hrun.delivers.burst hburst with ⟨hdelivers, hless⟩
            have hsame : state' = state := by
              rcases hstate' with hsame | ⟨_, hnone⟩
              · exact hsame
              · rw [hburst] at hnone
                simp at hnone
            subst hsame
            have hneeds : 0 < state'.needMin := by
              rcases hwaits with rfl | hlt
              · decide
              · omega
            have hnext : Running t { s with
                tcpRead := rest
                tcpEof := false
                buf := q
                state := state'
                resqu := [] } future msgs' (advance resquCapacity
                  (ByteQueue.len s.buf + (burst s.tcpRead).1.length) pieces).2 :=
              ⟨⟨hrun.quiet.out, hrun.quiet.outbuf⟩, rfl, rfl, hrun.trunc, hcap ▸ hrun.cap, hdelivers,
                hstand, hneeds⟩
            rcases ih _ hless hnext rfl with ⟨taken', msgs'', tail, rfl, hdrains, houtcome⟩
            refine ⟨taken ++ taken', msgs'', tail, (List.append_assoc _ _ _).symm, ?_, ?_⟩
            · have hdrained := drains_body hrun.resqu hdone hbody (drains_resqu rfl hdrains)
              simpa [yielded] using hdrained
            · have hlast := lastRound_burst (ByteQueue.len s.buf) pieces s.tcpRead
              have hroomy := roomy_burst (ByteQueue.cap s.buf) (ByteQueue.len s.buf) pieces s.tcpRead
              simp only [hburst, Option.some.injEq, forall_eq'] at hlast hroomy
              simp only [hcap, hheld] at houtcome
              cases houtcome with
              | roomy hok htail hall hstand' =>
                  exact .roomy (hroomy.mpr ⟨hroom, hok⟩) htail hall (hlast ▸ hstand')
              | full hfull hspace => exact .full (fun hok => hfull (hroomy.mp hok).2) hspace
      · rcases hrun.fails (Nat.lt_of_not_le hroom) with ⟨e, hspace, hdrains⟩
        refine ⟨[], msgs, [.error e], rfl, hdrains, .full (fun hroomy => ?_) hspace⟩
        rw [roomy_burst] at hroomy
        exact hroom hroomy.1

end Run

/-! ## All messages -/

section All

variable {t : ℕ}

/-- The pieces of a message end with one that ends the message, and begin with a header. -/
theorem WireMsg.pieces_eq (m : WireMsg t) : ∃ inner size, m.pieces = inner ++ [(size, true)] ∧
    unparsed inner = 0 ∧ total m.pieces = m.bytes.length := by
  have hsize := m.wellFormed.size
  unfold WireMsg.pieces WireMsg.bytes headBytes
  cases hext : m.hi.isExt with
  | true =>
      refine ⟨[(16, false), (8, false)], m.payload.length, rfl, rfl, ?_⟩
      simp [total]
  | false =>
      by_cases hempty : m.payload = []
      · refine ⟨[], 16, by simp [hempty], rfl, by simp [total, hempty]⟩
      · refine ⟨[(16, false)], m.payload.length, by simp [hempty], rfl, by simp [total, hempty]⟩

/-- The total size of the pieces is the number of bytes. -/
theorem total_piecesOf (ms : List (WireMsg t)) : total (piecesOf ms) = (bytesOf ms).length := by
  induction ms with
  | nil => rfl
  | cons m ms ih =>
      rcases m.pieces_eq with ⟨inner, size, _, _, htotal⟩
      have happend : total (m.pieces ++ piecesOf ms) = total m.pieces + total (piecesOf ms) := by
        simp [total]
      rw [bytesOf, List.flatMap_cons, List.length_append, ← htotal, piecesOf, List.flatMap_cons]
      rw [piecesOf] at happend ih
      rw [happend, ih, bytesOf]

/-- Every message ends with one piece. -/
theorem unparsed_piecesOf (ms : List (WireMsg t)) : unparsed (piecesOf ms) = ms.length := by
  induction ms with
  | nil => rfl
  | cons m ms ih =>
      rcases m.pieces_eq with ⟨inner, size, hpieces, hinner, _⟩
      have happend : unparsed (inner ++ [(size, true)] ++ piecesOf ms) =
          unparsed inner + 1 + unparsed (piecesOf ms) := by
        simp only [unparsed, List.countP_append, List.countP_singleton, if_true]
      rw [piecesOf, List.flatMap_cons, hpieces]
      rw [piecesOf] at happend ih
      rw [happend, hinner, ih, List.length_cons]
      omega

/-- Where the parser stands, every message to come ends with one piece, and the pieces to come make up
the bytes to come. -/
theorem Standing.sizes {state : CaState} {bytes : List UInt8} {msgs : List CaMsg}
    {pieces : List (ℕ × Bool)} (hstand : Standing t state bytes msgs pieces) :
    unparsed pieces = msgs.length ∧ total pieces = bytes.length := by
  cases hstand with
  | head ms => exact ⟨by rw [unparsed_piecesOf, List.length_map], total_piecesOf ms⟩
  | ext m ms hext =>
      have hcount := unparsed_piecesOf ms
      have htotal := total_piecesOf ms
      simp only [unparsed, total] at hcount htotal
      constructor
      · simp [unparsed, hcount]
      · simp [total, htotal]
  | payload m ms =>
      have hcount := unparsed_piecesOf ms
      have htotal := total_piecesOf ms
      simp only [unparsed, total] at hcount htotal
      constructor
      · simp [unparsed, hcount]
      · simp [total, htotal]

theorem unparsed_append (ps qs : List (ℕ × Bool)) :
    unparsed (ps ++ qs) = unparsed ps + unparsed qs :=
  List.countP_append

theorem total_append (ps qs : List (ℕ × Bool)) : total (ps ++ qs) = total ps + total qs := by
  simp [total]

/-- A next piece is at most all pieces. -/
theorem need_le_total {pieces : List (ℕ × Bool)} (hne : pieces ≠ []) : need pieces ≤ total pieces := by
  cases pieces with
  | nil => exact absurd rfl hne
  | cons piece pieces => simp [need, total]

/-- The rounds take pieces from the front, and hold what they do not take. -/
theorem lastRound_spec (held : ℕ) (pieces : List (ℕ × Bool))
    (script : Script (Except IoError (List UInt8))) :
    ∃ taken, pieces = taken ++ (lastRound held pieces script).2 ∧
      held + (delivered script).length = (lastRound held pieces script).1 + total taken := by
  induction script generalizing held pieces with
  | nil => exact ⟨[], rfl, rfl⟩
  | cons answer script ih =>
      rcases answer with _ | ⟨e | x⟩
      · rcases advance_spec resquCapacity held pieces with ⟨now, hpieces, hheld, _⟩
        rcases ih (advance resquCapacity held pieces).1 (advance resquCapacity held pieces).2 with
          ⟨later, hlater, hrest⟩
        refine ⟨now ++ later, ?_, ?_⟩
        · rw [List.append_assoc, lastRound, ← hlater, ← hpieces]
        · rw [total_append, lastRound, delivered_pending]
          omega
      · exact ih held pieces
      · rcases ih (held + x.length) pieces with ⟨taken, hpieces, hrest⟩
        refine ⟨taken, hpieces, ?_⟩
        rw [delivered, List.length_append, lastRound]
        omega

/-- When all bytes are held, the last round completes all messages if its queue holds them. -/
theorem advance_all {quota held : ℕ} {pieces : List (ℕ × Bool)} (hheld : held = total pieces) :
    unparsed (advance quota held pieces).2 = 0 ↔ unparsed pieces ≤ quota := by
  rcases advance_spec quota held pieces with ⟨taken, hpieces, hsum, hquota, hstop⟩
  have hcount := congrArg unparsed hpieces
  have htotal := congrArg total hpieces
  rw [unparsed_append] at hcount
  rw [total_append] at htotal
  constructor
  · intro hzero
    omega
  · intro hle
    rcases hstop with hnil | hfull | hlt
    · rw [hnil]
      rfl
    · omega
    · by_cases hnil : (advance quota held pieces).2 = []
      · rw [hnil]
        rfl
      · have hneed := need_le_total hnil
        omega

end All

/-! ## A whole connection -/

section Connection

variable {B : Type} [ByteQueue B] [LawfulByteQueue B] {s : CaProto B} {t : ℕ} {msgs : List CaMsg}
  {pieces : List (ℕ × Bool)}

/-- The messages are told from an error at the end. -/
theorem yielded_append_error (taken : List CaMsg) (e : Error) :
    yielded taken ++ [.error e] ≠ yielded msgs := by
  intro heq
  have hmem : Except.error e ∈ yielded msgs := by
    rw [← heq]
    simp
  simp [yielded] at hmem

/-- A running connection yields all messages and nothing else exactly when there is room in every round
and the last round completes the last message. -/
theorem Running.delivered_iff (hrun : Running t s [] msgs pieces) :
    ∃ out, Drains CaProto.pollNext s out ∧ (out = yielded msgs ↔
      Roomy (ByteQueue.cap s.buf) (ByteQueue.len s.buf) pieces s.tcpRead ∧
        unparsed (lastRound (ByteQueue.len s.buf) pieces s.tcpRead).2 ≤ resquCapacity) := by
  rcases hrun.drains with ⟨taken, msgs', tail, rfl, hdrains, houtcome⟩
  refine ⟨_, hdrains, ?_⟩
  cases houtcome with
  | @roomy _ state bytes hroomy htail hall hstand =>
      have hsizes := hrun.standing.sizes.2
      rcases lastRound_spec (ByteQueue.len s.buf) pieces s.tcpRead with ⟨now, hpieces, hheld⟩
      have hsum := congrArg total hpieces
      rw [total_append, hsizes, List.append_nil, List.length_append] at hsum
      have hdone : msgs'.length = 0 ↔
          unparsed (lastRound (ByteQueue.len s.buf) pieces s.tcpRead).2 ≤ resquCapacity := by
        rw [← hstand.sizes.1]
        refine advance_all ?_
        simp only [ByteQueue.len] at hheld hsum ⊢
        omega
      constructor
      · intro hout
        refine ⟨hroomy, hdone.mp ?_⟩
        rcases htail with rfl | rfl
        · have hlen := congrArg List.length hout
          simp only [yielded, List.append_nil, List.length_map, List.length_append] at hlen
          omega
        · exact absurd hout (yielded_append_error taken _)
      · rintro ⟨_, hle⟩
        obtain rfl := List.length_eq_zero_iff.mp (hdone.mpr hle)
        rw [hall rfl, List.append_nil, List.append_nil]
  | full hfull hspace =>
      constructor
      · exact fun hout => absurd hout (yielded_append_error taken _)
      · exact fun hroomy => absurd hroomy.1 hfull

/-- A new connection is about to yield what the socket delivers. -/
theorem running_new {ms : List (WireMsg t)} {script : Script (Except IoError (List UInt8))}
    {future : List UInt8} (tcpWrite : Script (Except IoError ℕ)) (hdelivers : Delivers script)
    (hstream : delivered script ++ future = bytesOf ms) :
    Running t (CaProto.new script tcpWrite t : CaProto B) future (ms.map fun m => m.msg) (piecesOf ms) := by
  rcases LawfulByteQueue.create_spec (B := B) protoInputBufCap with ⟨hdata, hcap⟩
  rcases LawfulByteQueue.create_spec (B := B) outbufCap with ⟨houtdata, _⟩
  refine ⟨⟨rfl, ?_⟩, rfl, rfl, rfl, ?_, hdelivers, ?_,
    (by decide : 0 < CaState.stdHead.needMin)⟩
  · rw [ByteQueue.len, CaProto.new, houtdata, List.length_nil]
  · rw [CaProto.new, hcap]
    decide
  · rw [CaProto.new, hdata, List.nil_append, hstream]
    exact .head ms

/-- From a new connection on, the stream yields exactly the messages of the socket and then ends, if and
only if in every round what is held and the next piece fit into the buffer, and no more messages are left
to be parsed when the socket is closed than the queue of results holds. -/
theorem yieldsAll_iff (ms : List (WireMsg t)) (script : Script (Except IoError (List UInt8)))
    (tcpWrite : Script (Except IoError ℕ)) (hdelivers : Delivers script)
    (hstream : delivered script = bytesOf ms) :
    ∃ out, Drains CaProto.pollNext (CaProto.new script tcpWrite t : CaProto B) out ∧
      (out = yielded (ms.map fun m => m.msg) ↔ Roomy protoInputBufCap 0 (piecesOf ms) script ∧
        unparsed (lastRound 0 (piecesOf ms) script).2 ≤ resquCapacity) := by
  have hrun : Running t (CaProto.new script tcpWrite t : CaProto B) [] _ _ :=
    running_new tcpWrite hdelivers (by rw [List.append_nil, hstream])
  rcases LawfulByteQueue.create_spec (B := B) protoInputBufCap with ⟨hdata, hcap⟩
  have hiff := hrun.delivered_iff
  simp only [CaProto.new, ByteQueue.len, hdata, hcap, List.length_nil] at hiff
  exact hiff

/-- An echo without payload. -/
def echo (t : ℕ) : WireMsg t where
  hi := ⟨0x17, 0, 0, 0, 0, 0, false⟩
  payload := []
  msg := ⟨.echo⟩
  wellFormed := ⟨rfl, fun _ => by decide⟩
  parsed := rfl

/-- The equivalence for two messages, cut within the second. -/
theorem yieldsAll_iff_cut :
    ∃ out, Drains CaProto.pollNext (CaProto.new [.ready (.ok ((bytesOf [echo 0, echo 0]).take 20)),
        .pending, .ready (.ok ((bytesOf [echo 0, echo 0]).drop 20))] [] 0 : CaProto Fifo) out ∧
      (out = yielded ([echo 0, echo 0].map fun m => m.msg) ↔
        Roomy protoInputBufCap 0 (piecesOf [echo 0, echo 0])
          [.ready (.ok ((bytesOf [echo 0, echo 0]).take 20)), .pending,
            .ready (.ok ((bytesOf [echo 0, echo 0]).drop 20))] ∧
        unparsed (lastRound 0 (piecesOf [echo 0, echo 0])
          [.ready (.ok ((bytesOf [echo 0, echo 0]).take 20)), .pending,
            .ready (.ok ((bytesOf [echo 0, echo 0]).drop 20))]).2 ≤ resquCapacity) :=
  yieldsAll_iff [echo 0, echo 0] _ [] (by
    intro answer hanswer
    simp only [Script.items_ready, Script.items_pending, Script.items_nil, List.mem_cons,
      List.not_mem_nil, or_false] at hanswer
    rcases hanswer with rfl | rfl
    · exact ⟨_, rfl, by decide⟩
    · exact ⟨_, rfl, by decide⟩) (by decide)

/-- Of 257 messages that arrive together with the end of the stream, not all are handed out. -/
theorem not_yieldsAll_257 :
    (bytesOf (List.replicate 257 (echo 0))).length ≤ protoInputBufCap ∧
    ∃ out, Drains CaProto.pollNext (CaProto.new
        [.ready (.ok (bytesOf (List.replicate 257 (echo 0))))] [] 0 : CaProto Fifo) out ∧
      out ≠ yielded ((List.replicate 257 (echo 0)).map fun m => m.msg) := by
  have hbytes : (bytesOf (List.replicate 257 (echo 0))).length = 4112 := by
    rw [← total_piecesOf]
    decide +kernel
  have hne : bytesOf (List.replicate 257 (echo 0)) ≠ [] := by
    intro hnil
    rw [hnil] at hbytes
    simp at hbytes
  refine ⟨by rw [hbytes]; decide, ?_⟩
  have hrun : Running 0 (CaProto.new [.ready (.ok (bytesOf (List.replicate 257 (echo 0))))] [] 0 :
      CaProto Fifo) [] ((List.replicate 257 (echo 0)).map fun m => m.msg)
      (piecesOf (List.replicate 257 (echo 0))) := by
    refine running_new [] (fun answer hanswer => ?_) ?_
    · obtain rfl := List.mem_singleton.mp hanswer
      exact ⟨_, rfl, hne⟩
    · rw [delivered, delivered, List.append_nil, List.append_nil]
  rcases hrun.delivered_iff with ⟨out, hdrains, hiff⟩
  refine ⟨out, hdrains, fun hall => ?_⟩
  have hle := (hiff.mp hall).2
  have hlast : (lastRound (ByteQueue.len (ByteQueue.create protoInputBufCap : Fifo))
      (piecesOf (List.replicate 257 (echo 0)))
      [.ready (.ok (bytesOf (List.replicate 257 (echo 0))))]).2 =
      piecesOf (List.replicate 257 (echo 0)) := rfl
  have hcount : unparsed (piecesOf (List.replicate 257 (echo 0))) = 257 := by
    rw [unparsed_piecesOf, List.length_replicate]
  rw [CaProto.new, hlast, hcount] at hle
  exact absurd hle (by decide)

end Connection

end Ca
end Daqbuf
