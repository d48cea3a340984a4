import Daqbuf.Ca.Safety
import Daqbuf.Ca.Wire
/-!
# Replies to Address Searches

A reply to a search for the address of a channel is a datagram of messages.  The parser cuts them off
one after another and picks the search results; each names the request, the port and, unless the
sender itself is meant, the address.

Main results:

- Theorem {lit}`readMsgs_eq`: the parser makes its messages from the headers of the datagram's complete
  messages, each with all the bytes that follow it.
- Theorem {lit}`parseResponse_ne_panicked_iff`: which datagrams make the parser panic.
- Theorem {lit}`parseResponse_returns_finds_iff`: for which datagrams the parser returns, and for which ones of
  well-formed messages it gives exactly the search results in them.
-/

namespace Daqbuf
namespace Ca

open Bytes

namespace FindIoc

variable {B : Type} [ByteQueue B]

/-- The size of the buffer for a datagram. -/
def recvCap : ℕ := 2048

/-- The loop of {lit}`parse_response`.  The messages are made from all the bytes behind the header, of
which the payload is only the first part. -/
def readMsgs : ℕ → B → Fallible (List CaMsg)
  | 0, _ => panicked
  | rounds + 1, nb =>
    if ByteQueue.len nb < 16 then pure []
    else
      match CaProto.headInfoFromNetbuf nb with
      | none => throw .slideBuf
      | some (hi, nb) =>
        if ByteQueue.len nb < hi.payloadSize.toNat then pure []
        else do
          let msg ← CaMsg.fromProtoInfos hi (ByteQueue.data nb) 32
          match ByteQueue.adv nb hi.payloadSize.toNat with
          | none => throw .slideBuf
          | some nb => do
            let msgs ← readMsgs rounds nb
            pure (msg :: msgs)

/-- The version in the first message is not a wrong one. -/
def good : CaMsg → Bool
  | ⟨.versionRes v⟩ => v == 13
  | _ => true

/-- The result that a message is: the request, and the address with the sender's in place of all ones. -/
def searchResult (src : SocketAddrV4) : CaMsg → Option (UInt32 × SocketAddrV4)
  | ⟨.searchRes addr tcpPort id _⟩ =>
      some (id, ⟨if addr = 0xffffffff then src.ip else addr, tcpPort⟩)
  | _ => none

variable (B) in
/-- {lit}`parse_response` for the datagram that was received. -/
def parseResponse (src : SocketAddrV4) (datagram : List UInt8) :
    Fallible (SocketAddrV4 × List (UInt32 × SocketAddrV4)) :=
  if recvCap < datagram.length then panicked
  else
    match ByteQueue.area (ByteQueue.create recvCap : B) datagram.length with
    | none => throw .slideBuf
    | some (_, nb) =>
      match ByteQueue.fill nb datagram with
      | none => throw .slideBuf
      | some nb => do
        let msgs ← readMsgs (datagram.length + 1) nb
        match msgs with
        -- the first message is looked at without a check that there is one
        | [] => panicked
        | first :: _ => pure (src, if good first then msgs.filterMap (searchResult src) else [])

/-! ## The messages of a datagram -/

/-- The header that some bytes begin with. -/
def headInfoOf (bs : List UInt8) : HeadInfo where
  cmdid := u16OfBe (bs.take 2)
  payloadSize := u32OfBe ((bs.drop 2).take 2)
  dataType := u16OfBe ((bs.drop 4).take 2)
  dataCount := u32OfBe ((bs.drop 6).take 2)
  param1 := u32OfBe ((bs.drop 8).take 4)
  param2 := u32OfBe ((bs.drop 12).take 4)
  isExt := false

/-- The headers of the complete messages of a datagram, each with the bytes that follow it. -/
def completeMsgs (bs : List UInt8) : List (HeadInfo × List UInt8) :=
  if _hhead : bs.length < 16 then []
  else if (bs.drop 16).length < (headInfoOf bs).payloadSize.toNat then []
  else (headInfoOf bs, bs.drop 16) ::
    completeMsgs ((bs.drop 16).drop (headInfoOf bs).payloadSize.toNat)
  termination_by bs.length
  decreasing_by
    simp only [List.length_drop]
    omega

section Lawful

variable [LawfulByteQueue B]

/-- Where enough bytes are held, they can be dropped. -/
theorem adv_of_le {q : B} {n : ℕ} (hle : n ≤ ByteQueue.len q) :
    ∃ q', ByteQueue.adv q n = some q' ∧ ByteQueue.data q' = (ByteQueue.data q).drop n := by
  cases hadv : ByteQueue.adv q n with
  | none =>
      have hlt := (LawfulByteQueue.adv_eq_none q n).mp hadv
      omega
  | some q' => exact ⟨q', rfl, (LawfulByteQueue.adv_spec q q' n hadv).2⟩

/-- The header is read from the first 16 bytes. -/
theorem headInfoFromNetbuf_of_le {q : B} (hle : 16 ≤ ByteQueue.len q) :
    ∃ q', CaProto.headInfoFromNetbuf q = some (headInfoOf (ByteQueue.data q), q') ∧
      ByteQueue.data q' = (ByteQueue.data q).drop 16 := by
  have hlen : ∀ (r : B) (n : ℕ), ByteQueue.data r = (ByteQueue.data q).drop n →
      ByteQueue.len r = ByteQueue.len q - n := by
    intro r n hdata
    rw [ByteQueue.len, hdata, List.length_drop, ByteQueue.len]
  rcases take_of_le (q := q) (n := 2) (by omega) with ⟨q1, h1, -, hdata1⟩
  rcases take_of_le (q := q1) (n := 2) (by rw [hlen q1 2 hdata1]; omega) with ⟨q2, h2, -, hdata2⟩
  rw [hdata1, List.drop_drop] at hdata2
  rcases take_of_le (q := q2) (n := 2) (by rw [hlen q2 4 hdata2]; omega) with ⟨q3, h3, -, hdata3⟩
  rw [hdata2, List.drop_drop] at hdata3
  rcases take_of_le (q := q3) (n := 2) (by rw [hlen q3 6 hdata3]; omega) with ⟨q4, h4, -, hdata4⟩
  rw [hdata3, List.drop_drop] at hdata4
  rcases take_of_le (q := q4) (n := 4) (by rw [hlen q4 8 hdata4]; omega) with ⟨q5, h5, -, hdata5⟩
  rw [hdata4, List.drop_drop] at hdata5
  rcases take_of_le (q := q5) (n := 4) (by rw [hlen q5 12 hdata5]; omega) with ⟨q6, h6, -, hdata6⟩
  rw [hdata5, List.drop_drop] at hdata6
  refine ⟨q6, ?_, hdata6⟩
  simp only [CaProto.headInfoFromNetbuf, h1, h2, h3, h4, h5, h6, Option.bind_eq_bind,
    Option.bind_some, Option.pure_def, hdata1, hdata2, hdata3, hdata4, hdata5, headInfoOf]

/-- The messages are made from the headers of the complete messages and what follows each of them. -/
theorem readMsgs_eq {rounds : ℕ} {nb : B} (hrounds : ByteQueue.len nb < rounds) :
    readMsgs rounds nb
      = (completeMsgs (ByteQueue.data nb)).mapM fun m => CaMsg.fromProtoInfos m.1 m.2 32 := by
  induction rounds generalizing nb with
  | zero => omega
  | succ rounds ih =>
      rw [readMsgs, completeMsgs]
      by_cases hhead : ByteQueue.len nb < 16
      · have hhead' : (ByteQueue.data nb).length < 16 := hhead
        rw [if_pos hhead, dif_pos hhead']
        rfl
      · have hhead' : ¬ (ByteQueue.data nb).length < 16 := hhead
        rcases headInfoFromNetbuf_of_le (Nat.le_of_not_lt hhead) with ⟨q, hread, hdata⟩
        rw [if_neg hhead, dif_neg hhead', hread]
        dsimp only
        rw [ByteQueue.len, hdata]
        by_cases hpayload : ((ByteQueue.data nb).drop 16).length
            < (headInfoOf (ByteQueue.data nb)).payloadSize.toNat
        · rw [if_pos hpayload, if_pos hpayload]
          rfl
        · rw [if_neg hpayload, if_neg hpayload, List.mapM_cons]
          have henough : (headInfoOf (ByteQueue.data nb)).payloadSize.toNat ≤ ByteQueue.len q := by
            rw [ByteQueue.len, hdata]
            exact Nat.le_of_not_lt hpayload
          rcases adv_of_le henough with ⟨q', hadv, hdata'⟩
          have hshorter : ByteQueue.len q' < rounds := by
            have hlen : ByteQueue.len nb = (ByteQueue.data nb).length := rfl
            rw [ByteQueue.len, hdata', hdata, List.length_drop, List.length_drop]
            omega
          rw [hadv]
          dsimp only
          rw [ih hshorter, hdata', hdata]

end Lawful

/-! ## Datagrams of well-formed messages -/

/-- A well-formed message -/
structure UdpMsg where
  hi : HeadInfo
  payload : List UInt8
  wellFormed : WellFormed hi payload

namespace UdpMsg

/-- The bytes of a message. -/
def bytes (m : UdpMsg) : List UInt8 := headBytes m.hi ++ m.payload

/-- The search result that a message denotes. -/
def denotes (src : SocketAddrV4) (m : UdpMsg) : Option (UInt32 × SocketAddrV4) :=
  if m.hi.cmdid = 0x06 then
    some (m.hi.param2, ⟨if m.hi.param1 = 0xffffffff then src.ip else m.hi.param1, m.hi.dataType⟩)
  else none

end UdpMsg

/-- The datagram that some messages make up. -/
def datagramOf (ms : List UdpMsg) : List UInt8 := ms.flatMap UdpMsg.bytes

/-- The messages before the first one with an extended header, which the parser does not know. -/
def readable (ms : List UdpMsg) : List UdpMsg := ms.takeWhile fun m => !m.hi.isExt

/-- The headers of the messages before the first extended one, each with the bytes that follow it in the datagram. -/
def following : List UdpMsg → List (HeadInfo × List UInt8)
  | [] => []
  | m :: ms => if m.hi.isExt then [] else (m.hi, m.payload ++ datagramOf ms) :: following ms

/-- The standard header is read back. -/
theorem headInfoOf_stdHeadBytes (hi : HeadInfo) (size count : ℕ) (rest : List UInt8) :
    headInfoOf (stdHeadBytes hi size count ++ rest) =
      { hi with payloadSize := u32OfBe (beBytes 2 size), dataCount := u32OfBe (beBytes 2 count), isExt := false } := by
  let q : Fifo := ⟨_, stdHeadBytes hi size count ++ rest, le_rfl⟩
  have hlen : 16 ≤ ByteQueue.len q := by
    change 16 ≤ (stdHeadBytes hi size count ++ rest).length
    rw [List.length_append, length_stdHeadBytes]
    omega
  rcases headInfoFromNetbuf_of_le hlen with ⟨q1, hread, -⟩
  rcases headInfoFromNetbuf_head (q := q) rfl with ⟨q2, hread', -, -⟩
  rw [hread', Option.some.injEq, Prod.mk.injEq] at hread
  exact hread.1.symm

/-- The header of a message on the wire is read back. -/
theorem headInfoOf_headBytes {m : UdpMsg} (hstd : m.hi.isExt = false) (rest : List UInt8) :
    headInfoOf (headBytes m.hi ++ rest) = m.hi := by
  rcases m.wellFormed.std hstd with ⟨hsize, hcount⟩
  rw [headBytes, hstd, if_neg Bool.false_ne_true, headInfoOf_stdHeadBytes, u32OfBe_beBytes_two hsize.le,
    u32OfBe_beBytes_two hcount, ← hstd]

/-- The first part of an extended header is read as that of a message of 65535 bytes. -/
theorem payloadSize_headInfoOf_ext {m : UdpMsg} (hext : m.hi.isExt = true) (rest : List UInt8) :
    (headInfoOf (headBytes m.hi ++ rest)).payloadSize.toNat = 0xffff := by
  rw [headBytes, if_pos hext, List.append_assoc, headInfoOf_stdHeadBytes]
  rfl

/-- The complete messages of a datagram of messages are those before the first extended one. -/
theorem completeMsgs_datagramOf {ms : List UdpMsg} (hfits : (datagramOf ms).length ≤ recvCap) :
    completeMsgs (datagramOf ms) = following ms := by
  induction ms with
  | nil =>
      rw [completeMsgs]
      rfl
  | cons m ms ih =>
      have hsplit : datagramOf (m :: ms) = headBytes m.hi ++ (m.payload ++ datagramOf ms) := by
        rw [datagramOf, List.flatMap_cons, UdpMsg.bytes, List.append_assoc]
        rfl
      have hhead : 16 ≤ (headBytes m.hi).length := by
        rw [headBytes]
        split <;> simp
      have hlong : ¬ (datagramOf (m :: ms)).length < 16 := by
        rw [hsplit, List.length_append]
        omega
      rw [completeMsgs, dif_neg hlong, following]
      cases hext : m.hi.isExt with
      | true =>
          have hsize : (headInfoOf (datagramOf (m :: ms))).payloadSize.toNat = 0xffff := by
            rw [hsplit, payloadSize_headInfoOf_ext hext]
          have hshort : ((datagramOf (m :: ms)).drop 16).length < 0xffff := by
            rw [List.length_drop]
            rw [recvCap] at hfits
            omega
          rw [hsize, if_pos hshort]
          rfl
      | false =>
          have hsixteen : (headBytes m.hi).length = 16 := by
            rw [headBytes, hext, if_neg Bool.false_ne_true, length_stdHeadBytes]
          have hinfo : headInfoOf (datagramOf (m :: ms)) = m.hi := by
            rw [hsplit, headInfoOf_headBytes hext]
          have hdrop : (datagramOf (m :: ms)).drop 16 = m.payload ++ datagramOf ms := by
            rw [hsplit, ← hsixteen, List.drop_left]
          have hcomplete : ¬ (m.payload ++ datagramOf ms).length < m.hi.payloadSize.toNat := by
            rw [List.length_append, m.wellFormed.size]
            omega
          have hrest : (datagramOf ms).length ≤ recvCap := by
            rw [hsplit, List.length_append, List.length_append] at hfits
            omega
          rw [hinfo, hdrop, if_neg hcomplete, ← m.wellFormed.size, List.drop_left, ih hrest]
          rfl

/-! ## What the messages are made into -/

section Made

variable {α β : Type} {msg : CaMsg}

theorem eq_of_pure {a r : α} (hr : (pure a : Fallible α) = some (.ok r)) : r = a := by
  have hsome : (some (.ok a) : Option (Except Error α)) = some (.ok r) := hr
  simpa using hsome.symm

/-- Where a sequence gives a result, its first part does, and the rest from that. -/
theorem bind_eq_ok {x : Fallible α} {g : α → Fallible β} {r : β} (hr : (x >>= g) = some (.ok r)) :
    ∃ a, x = some (.ok a) ∧ g a = some (.ok r) := by
  match x with
  | none => exact absurd hr (by rintro ⟨⟩)
  | some (.error e) => exact absurd hr (by rintro ⟨⟩)
  | some (.ok a) => exact ⟨a, rfl, hr⟩

theorem eq_of_bind_pure {x : Fallible α} {f : α → CaMsg}
    (hmsg : (x >>= fun a => pure (f a)) = some (.ok msg)) : ∃ a, msg = f a := by
  rcases bind_eq_ok hmsg with ⟨a, -, ha⟩
  exact ⟨a, eq_of_pure ha⟩

theorem throw_ne_ok {e : Error} (hmsg : (throw e : Fallible CaMsg) = some (.ok msg)) : False := by
  have hsome : (some (.error e) : Option (Except Error CaMsg)) = some (.ok msg) := hmsg
  simp at hsome

end Made

/-- An accepted message gives the search result that it denotes. -/
theorem searchResult_of_fromProtoInfos (src : SocketAddrV4) {m : UdpMsg} {bs : List UInt8} {msg : CaMsg}
    (hmsg : CaMsg.fromProtoInfos m.hi bs 32 = some (.ok msg)) : searchResult src msg = m.denotes src := by
  have hother : m.hi.cmdid.toNat ≠ 0x06 → m.denotes src = none := by
    intro hne
    refine if_neg fun heq => hne ?_
    rw [heq]
    rfl
  rw [CaMsg.fromProtoInfos] at hmsg
  split at hmsg
  case h_3 hcmd =>
    have hsix : m.hi.cmdid = 0x06 := UInt16.toNat_inj.mp hcmd
    split at hmsg
    · exact (throw_ne_ok hmsg).elim
    · rw [eq_of_pure hmsg, UdpMsg.denotes, if_pos hsix]
      rfl
  case h_2 hcmd =>
    rw [hother (by omega)]
    split at hmsg
    · rcases eq_of_bind_pure hmsg with ⟨text, rfl⟩
      rfl
    · rw [eq_of_pure hmsg]
      rfl
  case h_4 hcmd =>
    rw [hother (by omega)]
    split at hmsg
    · split at hmsg
      · rw [eq_of_pure hmsg]
        rfl
      · exact (throw_ne_ok hmsg).elim
    · rcases eq_of_bind_pure hmsg with ⟨value, rfl⟩
      rfl
  case h_5 hcmd =>
    rw [hother (by omega)]
    split at hmsg
    · exact (throw_ne_ok hmsg).elim
    · rw [eq_of_pure hmsg]
      rfl
  case h_6 hcmd =>
    rw [hother (by omega)]
    rcases eq_of_bind_pure hmsg with ⟨value, rfl⟩
    rfl
  case h_11 hcmd =>
    rw [hother (by omega)]
    split at hmsg <;> rw [eq_of_pure hmsg] <;> rfl
  case h_13 => exact (throw_ne_ok hmsg).elim
  all_goals
    rw [hother (by omega), eq_of_pure hmsg]
    rfl

/-- An accepted version message tells the version. -/
theorem good_of_version {m : UdpMsg} {bs : List UInt8} {msg : CaMsg} (hversion : m.hi.cmdid = 0)
    (hmsg : CaMsg.fromProtoInfos m.hi bs 32 = some (.ok msg)) :
    good msg = (m.hi.dataCount.toUInt16 == 13) := by
  rw [CaMsg.fromProtoInfos, hversion] at hmsg
  rw [eq_of_pure hmsg]
  rfl

/-! ## Messages one after another -/

section Sequence

variable {α β : Type} {f : α → Fallible β}

/-- Each element contributes one result. -/
theorem length_of_mapM {xs : List α} {ys : List β} (hmap : xs.mapM f = some (.ok ys)) :
    ys.length = xs.length := by
  induction xs generalizing ys with
  | nil =>
      rw [eq_of_pure hmap]
      rfl
  | cons x xs ih =>
      rw [List.mapM_cons] at hmap
      rcases bind_eq_ok hmap with ⟨y, -, hrest⟩
      rcases bind_eq_ok hrest with ⟨zs, hzs, hcons⟩
      rw [eq_of_pure hcons, List.length_cons, List.length_cons, ih hzs]

/-- A result for all elements comes from one for each. -/
theorem forall_of_mapM {xs : List α} {ys : List β} (hmap : xs.mapM f = some (.ok ys)) :
    ∀ x ∈ xs, ∃ y, f x = some (.ok y) := by
  induction xs generalizing ys with
  | nil => simp
  | cons x xs ih =>
      rw [List.mapM_cons] at hmap
      rcases bind_eq_ok hmap with ⟨y, hy, hrest⟩
      rcases bind_eq_ok hrest with ⟨zs, hzs, -⟩
      exact List.forall_mem_cons.mpr ⟨⟨y, hy⟩, ih hzs⟩

/-- Results for the elements are results for all of them. -/
theorem mapM_of_forall₂ {xs : List α} {ys : List β}
    (hall : List.Forall₂ (fun x y => f x = some (.ok y)) xs ys) : xs.mapM f = some (.ok ys) := by
  induction hall with
  | nil => rfl
  | cons hx hall ih =>
      rw [List.mapM_cons, hx]
      rw [ih]
      rfl

end Sequence

/-- No message makes the parser of messages panic, up to the first one that is not accepted. -/
def Safe : List (HeadInfo × List UInt8) → Prop
  | [] => True
  | m :: ms => CaMsg.PayloadFits m.1 m.2 ∧ (CaMsg.Accepts m.1 m.2 → Safe ms)

/-- The parser of messages panics for none of some messages exactly when it does not before the first error. -/
theorem mapM_ne_panicked_iff (ms : List (HeadInfo × List UInt8)) :
    (ms.mapM fun m => CaMsg.fromProtoInfos m.1 m.2 32) ≠ panicked ↔ Safe ms := by
  induction ms with
  | nil => exact iff_of_true (pure_ne_panicked []) trivial
  | cons m ms ih =>
      rw [List.mapM_cons, Safe, ← CaMsg.fromProtoInfos_ne_panicked_iff m.1 m.2 32,
        ← CaMsg.exists_fromProtoInfos_iff]
      match hm : CaMsg.fromProtoInfos m.1 m.2 32 with
      | none => exact iff_of_false (not_not_intro rfl) fun h => h.1 rfl
      | some (.error e) =>
          refine iff_of_true (throw_ne_panicked e) ⟨throw_ne_panicked e, ?_⟩
          rintro ⟨msg, ⟨⟩⟩
      | some (.ok msg) =>
          have htail := bind_pure_ne_panicked_iff (ms.mapM fun m => CaMsg.fromProtoInfos m.1 m.2 32) (msg :: ·)
          refine htail.trans (ih.trans ?_)
          exact ⟨fun h => ⟨pure_ne_panicked msg, fun _ => h⟩, fun h => h.2 ⟨msg, rfl⟩⟩

/-! ## The parser -/

variable [LawfulByteQueue B]

/-- A datagram that fits is put into the buffer. -/
theorem parseResponse_eq (src : SocketAddrV4) {datagram : List UInt8}
    (hfits : datagram.length ≤ recvCap) :
    parseResponse B src datagram
      = ((completeMsgs datagram).mapM fun m => CaMsg.fromProtoInfos m.1 m.2 32) >>= fun msgs =>
        match msgs with
        | [] => panicked
        | first :: _ => pure (src, if good first then msgs.filterMap (searchResult src) else []) := by
  rcases LawfulByteQueue.create_spec (B := B) recvCap with ⟨hempty, hcap⟩
  have hroom : ByteQueue.len (ByteQueue.create recvCap : B) + datagram.length
      ≤ ByteQueue.cap (ByteQueue.create recvCap : B) := by
    rw [ByteQueue.len, hempty, hcap]
    simpa using hfits
  rcases area_of_le hroom with ⟨a, q, harea⟩
  rcases LawfulByteQueue.area_spec _ _ _ _ harea with ⟨hle, -, hdata, hfill⟩
  rcases hfill datagram hle with ⟨q', hput, -, hdata'⟩
  rw [hempty, List.nil_append] at hdata'
  have hrounds : ByteQueue.len q' < datagram.length + 1 := by
    rw [ByteQueue.len, hdata']
    omega
  rw [parseResponse, if_neg (by omega), harea]
  dsimp only
  rw [hput]
  dsimp only
  rw [readMsgs_eq hrounds, hdata']

/-- The parser returns a result or an error for exactly the datagrams that begin with a complete message and of which
no message makes the parser of messages panic, up to the first one that this does not accept. -/
theorem parseResponse_ne_panicked_iff (src : SocketAddrV4) {datagram : List UInt8}
    (hfits : datagram.length ≤ recvCap) :
    parseResponse B src datagram ≠ panicked ↔ completeMsgs datagram ≠ [] ∧ Safe (completeMsgs datagram) := by
  rw [parseResponse_eq src hfits, ← mapM_ne_panicked_iff]
  generalize hread : ((completeMsgs datagram).mapM fun m => CaMsg.fromProtoInfos m.1 m.2 32) = made
  match made with
  | none => exact iff_of_false (not_not_intro rfl) fun h => h.2 rfl
  | some (.error e) =>
      refine iff_of_true (throw_ne_panicked e) ⟨?_, throw_ne_panicked e⟩
      intro hnil
      rw [hnil] at hread
      cases hread
  | some (.ok []) =>
      have hlen := length_of_mapM hread
      exact iff_of_false (not_not_intro rfl) fun h => h.1 (List.length_eq_zero_iff.mp hlen.symm)
  | some (.ok (first :: msgs)) =>
      refine iff_of_true (pure_ne_panicked _) ⟨?_, pure_ne_panicked _⟩
      intro hnil
      rw [hnil] at hread
      cases eq_of_pure hread

/-- The messages that are read are made, where all of them are accepted, and give what they denote. -/
theorem exists_made (src : SocketAddrV4) {ms : List UdpMsg}
    (haccepted : ∀ p ∈ following ms, CaMsg.Accepts p.1 p.2) :
    ∃ msgs, List.Forall₂ (fun m msg => CaMsg.fromProtoInfos m.1 m.2 32 = some (.ok msg))
        (following ms) msgs ∧
      msgs.filterMap (searchResult src) = (readable ms).filterMap (UdpMsg.denotes src) := by
  induction ms with
  | nil => exact ⟨[], .nil, rfl⟩
  | cons m ms ih =>
      rw [following] at haccepted ⊢
      rw [readable, List.takeWhile_cons]
      cases hext : m.hi.isExt with
      | true => exact ⟨[], .nil, rfl⟩
      | false =>
          rw [hext, if_neg Bool.false_ne_true] at haccepted
          obtain ⟨hhead, htail⟩ := List.forall_mem_cons.mp haccepted
          obtain ⟨msgs, hall, hdenote⟩ := ih htail
          obtain ⟨msg, hmsg⟩ := (CaMsg.exists_fromProtoInfos_iff _ _ _).mpr hhead
          refine ⟨msg :: msgs, .cons hmsg hall, ?_⟩
          have hsame : searchResult src msg = m.denotes src := searchResult_of_fromProtoInfos src hmsg
          rw [List.filterMap_cons, hsame, hdenote]
          rfl

/-- Every search result of some messages is found: the first message is read and announces the supported version,
if there is a search result at all, every message that is read is accepted with all that follows its header, and no
search result stands behind the header that is not read. -/
structure Findable (m : UdpMsg) (ms : List UdpMsg) : Prop where
  std : m.hi.isExt = false
  accepted : ∀ p ∈ following (m :: ms), CaMsg.Accepts p.1 p.2
  version : ∀ u ∈ m :: ms, u.hi.cmdid = 0x06 → m.hi.dataCount.toUInt16 = 13
  unread : ∀ u ∈ (m :: ms).dropWhile (fun u => !u.hi.isExt), u.hi.cmdid ≠ 0x06

theorem denotes_eq_none {src : SocketAddrV4} {m : UdpMsg} : m.denotes src = none ↔ m.hi.cmdid ≠ 0x06 := by
  simp [UdpMsg.denotes]

/-- The results are those of all messages, exactly when none of them is left out. -/
theorem results_eq_iff (src : SocketAddrV4) (m : UdpMsg) (ms : List UdpMsg) :
    (if m.hi.dataCount.toUInt16 == 13 then (readable (m :: ms)).filterMap (UdpMsg.denotes src) else []) =
        (m :: ms).filterMap (UdpMsg.denotes src) ↔
      (∀ u ∈ m :: ms, u.hi.cmdid = 0x06 → m.hi.dataCount.toUInt16 = 13) ∧
        ∀ u ∈ (m :: ms).dropWhile (fun u => !u.hi.isExt), u.hi.cmdid ≠ 0x06 := by
  by_cases hversion : m.hi.dataCount.toUInt16 = 13
  · have hsplit : (m :: ms).filterMap (UdpMsg.denotes src) = (readable (m :: ms)).filterMap (UdpMsg.denotes src) ++
        ((m :: ms).dropWhile fun u => !u.hi.isExt).filterMap (UdpMsg.denotes src) := by
      rw [readable, ← List.filterMap_append, List.takeWhile_append_dropWhile]
    rw [if_pos (beq_iff_eq.mpr hversion), hsplit, List.self_eq_append_right, List.filterMap_eq_nil_iff]
    simp only [denotes_eq_none, hversion, implies_true, true_and]
  · rw [if_neg (fun heq => hversion (beq_iff_eq.mp heq)), eq_comm, List.filterMap_eq_nil_iff]
    simp only [denotes_eq_none, hversion, imp_false]
    exact ⟨fun h => ⟨h, fun u hu => h u ((List.dropWhile_suffix _).mem hu)⟩, And.left⟩

/-- A datagram of well-formed messages that begins with a version message gives exactly the search results in it, in
order, if and only if they can be found. -/
theorem parseResponse_finds_iff (src : SocketAddrV4) {m : UdpMsg} {ms : List UdpMsg}
    (hfits : (datagramOf (m :: ms)).length ≤ recvCap) (hversion : m.hi.cmdid = 0) :
    parseResponse B src (datagramOf (m :: ms)) =
        some (.ok (src, (m :: ms).filterMap (UdpMsg.denotes src))) ↔ Findable m ms := by
  rw [parseResponse_eq src hfits, completeMsgs_datagramOf hfits]
  by_cases haccepted : ∀ p ∈ following (m :: ms), CaMsg.Accepts p.1 p.2
  · obtain ⟨msgs, hall, hdenote⟩ := exists_made src haccepted
    rw [mapM_of_forall₂ hall]
    cases hext : m.hi.isExt with
    | true =>
        have hnil : following (m :: ms) = [] := by rw [following, if_pos hext]
        rw [hnil] at hall
        cases hall
        refine iff_of_false (by rintro ⟨⟩) ?_
        intro h
        exact absurd (hext.symm.trans h.std) Bool.false_ne_true.symm
    | false =>
        have hcons : following (m :: ms) = (m.hi, m.payload ++ datagramOf ms) :: following ms := by
          rw [following, hext, if_neg Bool.false_ne_true]
        rw [hcons] at hall
        cases hall with
        | @cons _ msg _ msgs hmsg hall =>
            change (some (.ok (src, if good msg then (msg :: msgs).filterMap (searchResult src) else [])) :
              Option (Except Error (SocketAddrV4 × List (UInt32 × SocketAddrV4)))) = _ ↔ _
            rw [good_of_version hversion hmsg, hdenote, Option.some_inj, Except.ok.injEq, Prod.mk.injEq,
              and_iff_right rfl, results_eq_iff]
            exact ⟨fun h => ⟨hext, haccepted, h.1, h.2⟩, fun h => ⟨h.version, h.unread⟩⟩
  · refine iff_of_false ?_ fun h => haccepted h.accepted
    intro hfinds
    obtain ⟨msgs, hmsgs, -⟩ := bind_eq_ok hfinds
    apply haccepted
    intro p hp
    exact (CaMsg.exists_fromProtoInfos_iff _ _ _).mp (forall_of_mapM hmsgs p hp)

/-- For every datagram that fits into the buffer: the parser of search replies returns a result or an error exactly when
the datagram begins with a complete message and no message makes the parser of messages panic, up to the first that this
does not accept; and of well-formed messages behind a version message it gives exactly the search results in them, in
order, when these can be found. -/
theorem parseResponse_returns_finds_iff (src : SocketAddrV4) :
    (∀ datagram : List UInt8, datagram.length ≤ recvCap →
      (parseResponse B src datagram ≠ panicked ↔ completeMsgs datagram ≠ [] ∧ Safe (completeMsgs datagram))) ∧
    ∀ (m : UdpMsg) (ms : List UdpMsg), (datagramOf (m :: ms)).length ≤ recvCap → m.hi.cmdid = 0 →
      (parseResponse B src (datagramOf (m :: ms)) = some (.ok (src, (m :: ms).filterMap (UdpMsg.denotes src))) ↔
        Findable m ms) :=
  ⟨fun _ hfits => parseResponse_ne_panicked_iff src hfits, fun _ _ hfits hversion =>
    parseResponse_finds_iff src hfits hversion⟩

/-- A message without a payload or with one of eight bytes is well formed. -/
theorem wellFormed_short {hi : HeadInfo} {payload : List UInt8} (hsize : payload.length = hi.payloadSize.toNat)
    (hshort : payload.length ≤ 8) (hcount : hi.dataCount.toNat ≤ 0xffff) : WellFormed hi payload :=
  ⟨hsize, fun _ => ⟨by omega, hcount⟩⟩

/-- A version message. -/
def versionMsg (v : UInt16) : UdpMsg where
  hi := ⟨0, 0, 0, v.toUInt32, 0, 0, false⟩
  payload := []
  wellFormed := wellFormed_short rfl (Nat.zero_le 8) (by
    have hv := v.toNat_lt
    simp
    omega)

/-- The search result of a server that has the address from which the datagram comes. -/
def foundMsg (port : UInt16) (id : UInt32) : UdpMsg where
  hi := ⟨6, 8, port, 0, 0xffffffff, id, false⟩
  payload := [0, 13, 0, 0, 0, 0, 0, 0]
  wellFormed := wellFormed_short rfl le_rfl (Nat.zero_le _)

/-- A channel that its server has closed. -/
def closedMsg (cid : UInt32) : UdpMsg where
  hi := ⟨0x0c, 0, 0, 0, 0, cid, false⟩
  payload := []
  wellFormed := wellFormed_short rfl (Nat.zero_le 8) (Nat.zero_le _)

/-- The search results behind a version message can be found. -/
theorem findable_found (ports : List (UInt16 × UInt32)) :
    Findable (versionMsg 13) (ports.map fun p => foundMsg p.1 p.2) where
  std := rfl
  accepted := by
    have htail : ∀ p ∈ following (ports.map fun p => foundMsg p.1 p.2), CaMsg.Accepts p.1 p.2 := by
      induction ports with
      | nil => simp [following]
      | cons port ports ih =>
          rw [List.map_cons, following, if_neg (by rintro ⟨⟩)]
          refine List.forall_mem_cons.mpr ⟨?_, ih⟩
          change 2 ≤ (_ ++ _ : List UInt8).length
          rw [List.length_append]
          exact Nat.le_add_right_of_le (Nat.le_add_left 2 6)
    rw [following, if_neg (by rintro ⟨⟩)]
    exact List.forall_mem_cons.mpr ⟨trivial, htail⟩
  version _ _ _ := rfl
  unread := by
    have hread : ∀ m ∈ versionMsg 13 :: ports.map (fun p => foundMsg p.1 p.2), (!m.hi.isExt) = true := by
      refine List.forall_mem_cons.mpr ⟨rfl, ?_⟩
      simp only [List.mem_map]
      rintro m ⟨port, -, rfl⟩
      rfl
    rw [List.dropWhile_eq_nil_iff.mpr hread]
    simp

/-- Two servers with the supported version are found. -/
theorem parseResponse_returns_finds_two :
    parseResponse Fifo ⟨0x7f000001, 5064⟩ (datagramOf [versionMsg 13, foundMsg 5064 7, foundMsg 5066 8]) ≠ panicked ∧
      parseResponse Fifo ⟨0x7f000001, 5064⟩ (datagramOf [versionMsg 13, foundMsg 5064 7, foundMsg 5066 8])
        = some (.ok (⟨0x7f000001, 5064⟩, [(7, ⟨0x7f000001, 5064⟩), (8, ⟨0x7f000001, 5066⟩)])) := by
  have hfits : (datagramOf [versionMsg 13, foundMsg 5064 7, foundMsg 5066 8]).length ≤ recvCap := by decide
  have hspec := parseResponse_returns_finds_iff (B := Fifo) ⟨0x7f000001, 5064⟩
  constructor
  · refine (hspec.1 _ hfits).mpr ?_
    rw [completeMsgs_datagramOf hfits]
    refine ⟨by rintro ⟨⟩, ?_⟩
    simp [following, Safe, CaMsg.PayloadFits, versionMsg, foundMsg]
  · exact (hspec.2 _ _ hfits rfl).mpr (findable_found [(5064, 7), (5066, 8)])

/-- A datagram of one byte makes the parser panic, and the search result behind a closed channel is not found, although
both messages are accepted with their own payloads. -/
theorem not_returns_finds :
    ¬ parseResponse Fifo ⟨0x7f000001, 5064⟩ [0] ≠ panicked ∧
      parseResponse Fifo ⟨0x7f000001, 5064⟩ (datagramOf [versionMsg 13, closedMsg 1, foundMsg 5064 7])
        ≠ some (.ok (⟨0x7f000001, 5064⟩, [(7, ⟨0x7f000001, 5064⟩)])) := by
  constructor
  · exact not_not_intro rfl
  · intro hfinds
    have hthrow : parseResponse Fifo ⟨0x7f000001, 5064⟩ (datagramOf [versionMsg 13, closedMsg 1, foundMsg 5064 7])
        = throw .badPayload := rfl
    rw [hthrow] at hfinds
    cases hfinds

end FindIoc

end Ca
end Daqbuf
