import Daqbuf.Ca.Reassembly
import Daqbuf.Streams.SlideBuf
/-!
# Space in the Read Buffer

Over the slide buffer, a read asks for room for the whole next piece of a message, on top of the bytes
that are held already.  This module is about connections that stay open: the socket delivers some bytes,
and then is pending for a while before it is closed.

Main results:

- Theorem {lit}`settles`: after enough rounds without new bytes, no complete message is left.
- Theorem {lit}`servesAll_iff`: when exactly no read ever finds the buffer too small and every message is
  handed out once its bytes have arrived.
-/

namespace Daqbuf
namespace Ca

open Bytes Poll Streams

/-- {lit}`PAYLOAD_LEN_MAX` -/
def payloadLenMax : ℕ := 1024 * 1024 * 32

/-- The socket stays open and pending for {lit}`k` polls. -/
def stayOpen (arrivals : Script (Except IoError (List UInt8))) (k : ℕ) :
    Script (Except IoError (List UInt8)) :=
  arrivals ++ List.replicate k .pending

/-! ## Rounds without new bytes -/

/-- The last rounds of a script go on where the first ones have ended. -/
theorem lastRound_append (held : ℕ) (pieces : List (ℕ × Bool))
    (fst snd : Script (Except IoError (List UInt8))) :
    lastRound held pieces (fst ++ snd) =
      lastRound (lastRound held pieces fst).1 (lastRound held pieces fst).2 snd := by
  induction fst generalizing held pieces with
  | nil => rfl
  | cons answer fst ih =>
      rcases answer with _ | ⟨e | x⟩
      · exact ih _ _
      · exact ih held pieces
      · exact ih (held + x.length) pieces

/-- A parse loop that has nothing to take leaves everything. -/
theorem advance_waiting {quota held : ℕ} {pieces : List (ℕ × Bool)}
    (hwait : pieces = [] ∨ held < need pieces) : advance quota held pieces = (held, pieces) := by
  cases pieces with
  | nil => rfl
  | cons piece pieces =>
      rcases hwait with hnil | hlt
      · simp at hnil
      · rw [advance, if_neg]
        simp only [need] at hlt
        omega

/-- No complete message is left to be taken. -/
def Settled (held : ℕ) (pieces : List (ℕ × Bool)) : Prop :=
  pieces = [] ∨ held < need pieces ∨ unparsed pieces = 0

/-- A parse loop leaves pieces as they are, or they are settled behind it, or it takes a message. -/
theorem settled_advance (held : ℕ) (pieces : List (ℕ × Bool)) :
    Settled (advance resquCapacity held pieces).1 (advance resquCapacity held pieces).2 ∨
      unparsed (advance resquCapacity held pieces).2 < unparsed pieces := by
  rcases advance_spec resquCapacity held pieces with ⟨taken, hpieces, _, _, hstop⟩
  have hcount := congrArg unparsed hpieces
  rw [unparsed_append] at hcount
  rcases hstop with hnil | hfull | hlt
  · exact .inl (.inl hnil)
  · refine .inr ?_
    have hpos : 0 < resquCapacity := by decide
    omega
  · exact .inl (.inr (.inl hlt))

/-- What is settled stays so. -/
theorem Settled.advance {held : ℕ} {pieces : List (ℕ × Bool)} (hsettled : Settled held pieces) :
    Settled (advance resquCapacity held pieces).1 (advance resquCapacity held pieces).2 := by
  rcases hsettled with hnil | hlt | hzero
  · rw [advance_waiting (.inl hnil)]
    exact .inl hnil
  · rw [advance_waiting (.inr hlt)]
    exact .inr (.inl hlt)
  · rcases advance_spec resquCapacity held pieces with ⟨taken, hpieces, _, _, _⟩
    have hcount := congrArg unparsed hpieces
    rw [unparsed_append] at hcount
    exact .inr (.inr (by omega))

/-- After enough rounds without new bytes, no complete message is left. -/
theorem settles {k held : ℕ} {pieces : List (ℕ × Bool)} (henough : unparsed pieces ≤ k) :
    Settled (lastRound held pieces (List.replicate k .pending)).1
      (lastRound held pieces (List.replicate k .pending)).2 := by
  suffices hgoal : ∀ k held pieces, (Settled held pieces ∨ unparsed pieces ≤ k) →
      Settled (lastRound held pieces (List.replicate k .pending)).1
        (lastRound held pieces (List.replicate k .pending)).2 from hgoal k held pieces (.inr henough)
  intro k
  induction k with
  | zero =>
      rintro held pieces (hsettled | hzero)
      · exact hsettled
      · exact .inr (.inr (Nat.le_zero.mp hzero))
  | succ k ih =>
      rintro held pieces hstart
      rw [List.replicate_succ, lastRound]
      apply ih
      rcases hstart with hsettled | hle
      · exact .inl hsettled.advance
      · rcases settled_advance held pieces with hsettled | hlt
        · exact .inl hsettled
        · exact .inr (by omega)

/-! ## All messages of an open connection -/

variable {t : ℕ}

/-- Over arrivals of some messages, no read finds the buffer too small, and every message is handed out
once its bytes have arrived, if the socket stays open long enough. -/
structure ServesAll (ms : List (WireMsg t)) (arrivals : Script (Except IoError (List UInt8)))
    (tcpWrite : Script (Except IoError ℕ)) : Prop where
  fits : ∀ (k : ℕ) (xs : List (Except Error CaItem)) (u : CaProto SlideBuf),
    Reaches CaProto.pollNext (CaProto.new (stayOpen arrivals k) tcpWrite t) xs u →
    ∀ e, .error e ∈ xs → e.isSpace = false
  parsed : ∀ fst snd, ms = fst ++ snd → (bytesOf fst).length ≤ (delivered arrivals).length →
    ∃ k, ∀ l, k ≤ l → ∃ out,
      Drains CaProto.pollNext (CaProto.new (stayOpen arrivals l) tcpWrite t : CaProto SlideBuf) out ∧
        yielded (fst.map fun m => m.msg) <+: out

theorem delivered_stayOpen (arrivals : Script (Except IoError (List UInt8))) (k : ℕ) :
    delivered (stayOpen arrivals k) = delivered arrivals := by
  induction arrivals with
  | nil =>
      induction k with
      | zero => rfl
      | succ k ih => exact ih
  | cons answer arrivals ih =>
      rcases answer with _ | ⟨e | x⟩
      · exact ih
      · exact ih
      · exact congrArg (x ++ ·) ih

theorem Delivers.stayOpen {arrivals : Script (Except IoError (List UInt8))} (hdelivers : Delivers arrivals)
    (k : ℕ) : Delivers (stayOpen arrivals k) := by
  have hitems : (Ca.stayOpen arrivals k).items = arrivals.items := by
    induction arrivals with
    | nil =>
        induction k with
        | zero => rfl
        | succ k ih => exact ih
    | cons answer arrivals ih =>
        cases answer with
        | pending => exact ih hdelivers.tail
        | ready x => exact congrArg (x :: ·) (ih hdelivers.tail)
  intro answer hanswer
  rw [hitems] at hanswer
  exact hdelivers answer hanswer

/-- Among messages on the wire, those whose bytes have arrived are taken once the rounds are settled. -/
theorem taken_of_settled {ms fst snd : List (WireMsg t)} {arrived held : ℕ} {taken rest : List CaMsg}
    {before pieces : List (ℕ × Bool)} (hms : ms = fst ++ snd)
    (harrived : (bytesOf fst).length ≤ arrived) (hpieces : piecesOf ms = before ++ pieces)
    (hheld : arrived = held + total before) (hsettled : Settled held pieces)
    (hcount : unparsed pieces = rest.length) (hsplit : ms.map (fun m => m.msg) = taken ++ rest) :
    fst.map (fun m => m.msg) <+: taken := by
  have happend : piecesOf ms = piecesOf fst ++ piecesOf snd := by
    rw [hms, piecesOf, List.flatMap_append]
    rfl
  have hsnd := unparsed_piecesOf snd
  have hfst := total_piecesOf fst
  have hrest : rest.length ≤ snd.length := by
    by_contra hlong
    rcases List.append_eq_append_iff.mp (happend.symm.trans hpieces) with
      ⟨more, _, hmore⟩ | ⟨more, hmore, hleft⟩
    · rw [hmore, unparsed_append] at hsnd
      omega
    · -- otherwise some piece that is held as a whole has not been taken
      have hne : more ≠ [] := by
        rintro rfl
        rw [List.nil_append] at hleft
        rw [hleft] at hcount
        omega
      have hneed : need pieces = need more := by
        cases more with
        | nil => exact absurd rfl hne
        | cons piece more =>
            rw [hleft]
            rfl
      have hle := need_le_total hne
      rw [hmore, total_append] at hfst
      rcases hsettled with hnil | hlt | hzero
      · rw [hnil] at hleft
        exact hne (List.append_eq_nil_iff.mp hleft.symm).1
      · omega
      · omega
  have hlength := congrArg List.length hsplit
  have hfstLength : ms.length = fst.length + snd.length := by rw [hms, List.length_append]
  rw [List.length_map, List.length_append] at hlength
  have hprefix : fst.map (fun m => m.msg) <+: ms.map fun m => m.msg := by
    rw [hms, List.map_append]
    exact List.prefix_append _ _
  have htaken : taken <+: ms.map fun m => m.msg := by
    rw [hsplit]
    exact List.prefix_append _ _
  refine List.prefix_of_prefix_length_le hprefix htaken ?_
  rw [List.length_map]
  omega

/-- When the socket stays open for as many polls as there are messages, no complete message is left. -/
theorem settled_stayOpen {ms : List (WireMsg t)} {arrivals : Script (Except IoError (List UInt8))} {k : ℕ}
    (henough : ms.length ≤ k) :
    Settled (lastRound 0 (piecesOf ms) (stayOpen arrivals k)).1
      (lastRound 0 (piecesOf ms) (stayOpen arrivals k)).2 := by
  rcases lastRound_spec 0 (piecesOf ms) arrivals with ⟨before, hpieces, _⟩
  have hcount := congrArg unparsed hpieces
  rw [unparsed_append, unparsed_piecesOf] at hcount
  rw [stayOpen, lastRound_append]
  exact settles (by omega)

/-- A new connection over the slide buffer, as a run. -/
theorem running_stayOpen {ms : List (WireMsg t)} {arrivals : Script (Except IoError (List UInt8))}
    (tcpWrite : Script (Except IoError ℕ)) (hdelivers : Delivers arrivals)
    (hpart : delivered arrivals <+: bytesOf ms) (k : ℕ) :
    ∃ future, Running t (CaProto.new (stayOpen arrivals k) tcpWrite t : CaProto SlideBuf) future
      (ms.map fun m => m.msg) (piecesOf ms) := by
  rcases hpart with ⟨future, hfuture⟩
  refine ⟨future, running_new tcpWrite (hdelivers.stayOpen k) ?_⟩
  rw [delivered_stayOpen, hfuture]

/-- How a run over the slide buffer ends. -/
theorem drains_stayOpen {ms : List (WireMsg t)} {arrivals : Script (Except IoError (List UInt8))}
    (tcpWrite : Script (Except IoError ℕ)) (hdelivers : Delivers arrivals)
    (hpart : delivered arrivals <+: bytesOf ms) (k : ℕ) :
    ∃ taken rest tail, ms.map (fun m => m.msg) = taken ++ rest ∧
      Drains CaProto.pollNext (CaProto.new (stayOpen arrivals k) tcpWrite t : CaProto SlideBuf)
        (yielded taken ++ tail) ∧
      Outcome t protoInputBufCap 0 (piecesOf ms) (stayOpen arrivals k) rest tail := by
  rcases running_stayOpen tcpWrite hdelivers hpart k with ⟨future, hrun⟩
  rcases LawfulByteQueue.create_spec (B := SlideBuf) protoInputBufCap with ⟨hdata, hcap⟩
  have hdrains := hrun.drains
  simp only [CaProto.new, ByteQueue.len, hdata, hcap, List.length_nil] at hdrains
  exact hdrains

/-- A round without room is one too many. -/
theorem not_servesAll {ms : List (WireMsg t)} {arrivals : Script (Except IoError (List UInt8))}
    (tcpWrite : Script (Except IoError ℕ)) (hdelivers : Delivers arrivals)
    (hpart : delivered arrivals <+: bytesOf ms) {k : ℕ}
    (hfull : ¬ Roomy protoInputBufCap 0 (piecesOf ms) (stayOpen arrivals k)) :
    ¬ ServesAll ms arrivals tcpWrite := by
  intro hserves
  rcases drains_stayOpen tcpWrite hdelivers hpart k with ⟨taken, rest, tail, _, hdrains, houtcome⟩
  cases houtcome with
  | roomy hroomy _ _ _ => exact hfull hroomy
  | @full e _ hspace =>
      rcases hdrains with ⟨u, v, hrun, _⟩
      have hnot := hserves.fits k _ u hrun e (by simp)
      rw [hspace] at hnot
      simp at hnot

/-- With room in every round, all messages are served. -/
theorem servesAll_of_roomy {ms : List (WireMsg t)} {arrivals : Script (Except IoError (List UInt8))}
    (tcpWrite : Script (Except IoError ℕ)) (hdelivers : Delivers arrivals)
    (hpart : delivered arrivals <+: bytesOf ms)
    (hroomy : ∀ k, Roomy protoInputBufCap 0 (piecesOf ms) (stayOpen arrivals k)) :
    ServesAll ms arrivals tcpWrite := by
  refine ⟨fun k xs u hrun e he => ?_, fun fst snd hms harrived => ⟨ms.length, fun l hl => ?_⟩⟩
  · rcases drains_stayOpen tcpWrite hdelivers hpart k with ⟨taken, rest, tail, _, hdrains, houtcome⟩
    rcases hdrains with ⟨v, w, hfull, hdone⟩
    rcases hrun.prefix_of_final hfull (.inr ⟨w, hdone⟩) with ⟨zs, hzs, _⟩
    have hmem : Except.error e ∈ yielded taken ++ tail := by
      rw [hzs]
      exact List.mem_append_left _ he
    cases houtcome with
    | roomy _ htail _ _ =>
        rcases htail with rfl | rfl
        · simp [yielded] at hmem
        · rcases List.mem_append.mp hmem with hmem | hmem
          · simp [yielded] at hmem
          · obtain rfl := Except.error.inj (List.mem_singleton.mp hmem)
            rfl
    | full hno _ => exact absurd (hroomy k) hno
  · rcases drains_stayOpen tcpWrite hdelivers hpart l with ⟨taken, rest, tail, hsplit, hdrains, houtcome⟩
    refine ⟨_, hdrains, ?_⟩
    cases houtcome with
    | full hno _ => exact absurd (hroomy l) hno
    | @roomy _ state bytes _ _ _ hstand =>
        rcases lastRound_spec 0 (piecesOf ms) (stayOpen arrivals l) with ⟨before, hbefore, hheld⟩
        rcases advance_spec resquCapacity (lastRound 0 (piecesOf ms) (stayOpen arrivals l)).1
          (lastRound 0 (piecesOf ms) (stayOpen arrivals l)).2 with ⟨now, hnow, hsum, _, _⟩
        have hsettled := @settled_stayOpen t ms arrivals l hl
        rw [delivered_stayOpen] at hheld
        have hpieces := hbefore
        rw [hnow, ← List.append_assoc] at hpieces
        have htaken := taken_of_settled hms harrived hpieces (by rw [total_append]; omega)
          hsettled.advance hstand.sizes.1 hsplit
        exact (htaken.map _).trans (List.prefix_append _ _)

/-- Over the slide buffer, no read ever finds the buffer too small and every message is handed out once
its bytes have arrived, if and only if in every round what is held and the next piece of the message at
its beginning fit together into the buffer. -/
theorem servesAll_iff (ms : List (WireMsg t)) (arrivals : Script (Except IoError (List UInt8)))
    (tcpWrite : Script (Except IoError ℕ)) (hdelivers : Delivers arrivals)
    (hpart : delivered arrivals <+: bytesOf ms) :
    ServesAll ms arrivals tcpWrite ↔
      ∀ k, Roomy protoInputBufCap 0 (piecesOf ms) (stayOpen arrivals k) := by
  constructor
  · intro hserves k
    by_contra hfull
    exact not_servesAll tcpWrite hdelivers hpart hfull hserves
  · exact servesAll_of_roomy tcpWrite hdelivers hpart

/-- The equivalence for one message that arrives in two parts, followed by a part of another. -/
theorem servesAll_iff_parts :
    ServesAll [echo 0, echo 0] [.ready (.ok ((bytesOf [echo 0]).take 5)), .pending,
        .ready (.ok ((bytesOf [echo 0, echo 0]).drop 5))] [] ↔
      ∀ k, Roomy protoInputBufCap 0 (piecesOf [echo 0, echo 0])
        (stayOpen [.ready (.ok ((bytesOf [echo 0]).take 5)), .pending,
          .ready (.ok ((bytesOf [echo 0, echo 0]).drop 5))] k) :=
  servesAll_iff _ _ [] (by
    intro answer hanswer
    simp only [Script.items_ready, Script.items_pending, Script.items_nil, List.mem_cons,
      List.not_mem_nil, or_false] at hanswer
    rcases hanswer with rfl | rfl
    · exact ⟨_, rfl, by decide⟩
    · exact ⟨_, rfl, by decide⟩) (by decide)

/-- An echo with an extended header and a payload of the given length. -/
def longEcho (t n : ℕ) (hn : n < 2 ^ 32) : WireMsg t where
  hi := ⟨0x17, UInt32.ofNat n, 0, 0, 0, 0, true⟩
  payload := List.replicate n 0
  msg := ⟨.echo⟩
  wellFormed := ⟨by simpa using (Nat.mod_eq_of_lt hn).symm, fun hstd => by simp at hstd⟩
  parsed := rfl

/-- A payload of 21 MiB that arrives after its header was parsed does not fit. -/
theorem not_servesAll_late_payload :
    22020096 ≤ payloadLenMax ∧
    ¬ ServesAll [longEcho 0 22020096 (by decide)]
      [.ready (.ok (headBytes (longEcho 0 22020096 (by decide)).hi)), .pending,
        .ready (.ok (longEcho 0 22020096 (by decide)).payload)] [] := by
  have hlong : (longEcho 0 22020096 (by decide)).payload.length = 22020096 := List.length_replicate
  have hext : (longEcho 0 22020096 (by decide)).hi.isExt = true := rfl
  have hhead : (headBytes (longEcho 0 22020096 (by decide)).hi).length = 24 := by
    rw [headBytes, hext, if_pos rfl, List.length_append, length_stdHeadBytes, length_extHeadBytes]
  have hpieces : piecesOf [longEcho 0 22020096 (by decide)] =
      [(16, false), (8, false), (22020096, true)] := by
    rw [piecesOf, List.flatMap_cons, List.flatMap_nil, WireMsg.pieces, hext, if_pos rfl, hlong]
    rfl
  refine ⟨by decide, not_servesAll [] ?_ ?_ (k := 0) ?_⟩
  · intro answer hanswer
    simp only [Script.items_ready, Script.items_pending, Script.items_nil, List.mem_cons,
      List.not_mem_nil, or_false] at hanswer
    rcases hanswer with rfl | rfl
    · refine ⟨_, rfl, fun hnil => ?_⟩
      rw [hnil] at hhead
      simp at hhead
    · refine ⟨_, rfl, fun hnil => ?_⟩
      rw [hnil] at hlong
      simp at hlong
  · rw [delivered_ready, delivered_pending, delivered_ready, delivered_nil, List.append_nil, bytesOf,
      List.flatMap_cons, List.flatMap_nil, List.append_nil, WireMsg.bytes]
  · rw [stayOpen, List.replicate_zero, List.append_nil, hpieces, Roomy, Roomy, Roomy, Roomy, hhead, hlong]
    rintro ⟨_, hle⟩
    exact absurd hle (by decide)

end Ca
end Daqbuf
