import Daqbuf.Connset.ConnSet
import Daqbuf.Slots.Pool
/-!
# Queries from the Connections

The connections hand batches of items to the connection set, which forwards the queries among them to the lookup of
series.  The future that does so is kept in a single slot.  A round that finds the slot empty goes over all connections
and fills it anew with each query, and with the future for a connection that is done.

Main results:

- Theorem {lit}`pollConnsLoop_fut`: the slot is left with the last future of the round.
- Theorem {lit}`pollConns_fut`: the slot is filled exactly where the connection set notes that it has a future.
- Theorem {lit}`keepsQueries_iff`: in a run each query is forwarded, held or still in its channel, exactly once, if and
  only if each round that goes over the connections makes at most one future, and drops no queries behind an error.
-/

namespace Daqbuf
namespace Connset

open Ca (SocketAddrV4)
open Poll
open Slots (Reached Along forall_reached_iff_along)

/-- {lit}`CaConnItem`, with the query that it carries -/
inductive CommItem (Q : Type) where
  | statusInfo
  | channelInfoQuery (q : Q)
  | testValue
  | localLog
  | channelEventValue
  deriving DecidableEq

/-- The batches of a connection, as its channel gives them. -/
abbrev CommRx (Q : Type) := Script (Except Unit (List (CommItem Q)))

/-- A future in {lit}`cmd_fut_comm`: it sends a query, or reports a connection that is done. -/
inductive CommFut (Q : Type) where
  | query (q : Q)
  | connDone
  deriving DecidableEq

/-- The part of {lit}`ConnSet` that takes part here -/
structure ConnComm (Q : Type) where
  caConns : List (SocketAddrV4 × CommRx Q)
  cmdFutComm : Option (CommFut Q)

namespace ConnComm

variable {Q : Type}

/-- What an item does to the slot; a status never makes a future. -/
def setFut (fut : Option (CommFut Q)) : CommItem Q → Option (CommFut Q)
  | .channelInfoQuery q => some (.query q)
  | .statusInfo | .testValue | .localLog | .channelEventValue => fut

/-- The loop over the connections in {lit}`poll_conn_comm`: the connections that are left, and the slot.  It ends at the
first connection that is done. -/
def pollConnsLoop : List (SocketAddrV4 × CommRx Q) → Option (CommFut Q) →
    List (SocketAddrV4 × CommRx Q) × Option (CommFut Q)
  | [], fut => ([], fut)
  | (addr, .ready (.ok items) :: rx) :: rest, fut =>
      let r := pollConnsLoop rest (items.foldl setFut fut)
      ((addr, rx) :: r.1, r.2)
  | (_, .ready (.error _) :: _) :: rest, fut => pollConnsLoop rest fut
  | (_, []) :: rest, _ => (rest, some .connDone)
  | (addr, .pending :: rx) :: rest, fut =>
      let r := pollConnsLoop rest fut
      ((addr, rx) :: r.1, r.2)

/-- One round of {lit}`poll_conn_comm`, and what it forwards; a query is sent if the lookup is ready to take it. -/
def pollConnComm (ready : Bool) (s : ConnComm Q) : List Q × ConnComm Q :=
  match s.cmdFutComm with
  | some (.query q) => if ready then ([q], { s with cmdFutComm := none }) else ([], s)
  | some .connDone => ([], { s with cmdFutComm := none })
  | none =>
      let r := pollConnsLoop s.caConns none
      ([], { s with caConns := r.1, cmdFutComm := r.2 })

/-- A connection that is made; nothing is done where there is one to its address. -/
def connect (addr : SocketAddrV4) (rx : CommRx Q) (s : ConnComm Q) : Option (ConnComm Q) :=
  if addr ∈ s.caConns.map Prod.fst then none
  else some { s with caConns := insertAt addrBefore addr rx s.caConns }

/-! ## A round over the connections -/

/-- The queries of a batch -/
def queries (items : List (CommItem Q)) : List Q :=
  items.filterMap fun
    | .channelInfoQuery q => some q
    | _ => none

/-- The queries in the channel of a connection, also behind an error -/
def queriesIn (rx : CommRx Q) : List Q := rx.items.flatMap fun x => queries (x.toOption.getD [])

/-- The queries in the channels of all connections -/
def waiting (cs : List (SocketAddrV4 × CommRx Q)) : List Q := cs.flatMap fun c => queriesIn c.2

/-- The futures that a round makes, in order -/
def futs : List (SocketAddrV4 × CommRx Q) → List (CommFut Q)
  | [] => []
  | (_, .ready (.ok items) :: _) :: rest => (queries items).map .query ++ futs rest
  | (_, .ready (.error _) :: _) :: rest => futs rest
  | (_, []) :: _ => [.connDone]
  | (_, .pending :: _) :: rest => futs rest

/-- The queries behind the errors that a round finds -/
def dropped : List (SocketAddrV4 × CommRx Q) → List Q
  | [] => []
  | (_, .ready (.ok _) :: _) :: rest => dropped rest
  | (_, .ready (.error _) :: rx) :: rest => queriesIn rx ++ dropped rest
  | (_, []) :: _ => []
  | (_, .pending :: _) :: rest => dropped rest

/-- The query that a future sends -/
def CommFut.query? : CommFut Q → Option Q
  | .query q => some q
  | .connDone => none

section Round

variable {cs : List (SocketAddrV4 × CommRx Q)} {fut : Option (CommFut Q)}

theorem foldl_setFut (items : List (CommItem Q)) :
    items.foldl setFut fut = ((queries items).map CommFut.query).getLast?.or fut := by
  induction items using List.reverseRecOn with
  | nil => rfl
  | append_singleton items item ih =>
      have happ : queries (items ++ [item]) = queries items ++ queries [item] := List.filterMap_append
      rw [List.foldl_append, ih, happ, List.map_append, List.getLast?_append]
      cases item with
      | channelInfoQuery q => rfl
      | _ => rfl

/-- The slot is left with the last future of the round. -/
theorem pollConnsLoop_fut : (pollConnsLoop cs fut).2 = (futs cs).getLast?.or fut := by
  fun_induction pollConnsLoop cs fut with
  | case1 fut => rfl
  | case2 addr items rx rest fut r ih =>
      rw [ih, futs, List.getLast?_append, foldl_setFut, Option.or_assoc]
  | case3 addr e rx rest fut ih => rw [ih, futs]
  | case4 addr rest fut => rfl
  | case5 addr rx rest fut r ih => rw [ih, futs]

theorem query?_map (qs : List Q) : (qs.map CommFut.query).filterMap CommFut.query? = qs := by
  rw [List.filterMap_map]
  exact List.filterMap_some

theorem waiting_cons (c : SocketAddrV4 × CommRx Q) : waiting (c :: cs) = queriesIn c.2 ++ waiting cs :=
  List.flatMap_cons

/-- A round takes queries out of the channels for its futures, or drops them. -/
theorem waiting_pollConnsLoop :
    (waiting cs).Perm ((futs cs).filterMap CommFut.query? ++ dropped cs ++ waiting (pollConnsLoop cs fut).1) := by
  fun_induction pollConnsLoop cs fut with
  | case1 fut => exact List.Perm.refl _
  | case2 addr items rx rest fut r ih =>
      have hhead : queriesIn (.ready (.ok items) :: rx) = queries items ++ queriesIn rx := rfl
      have hrest := Multiset.coe_eq_coe.mpr ih
      simp only [waiting_cons, hhead, futs, List.filterMap_append, query?_map, dropped]
      rw [← Multiset.coe_eq_coe]
      simp only [← Multiset.coe_add] at hrest ⊢
      rw [hrest]
      abel
  | case3 addr e rx rest fut ih =>
      have hhead : queriesIn (.ready (.error e) :: rx) = queriesIn rx := rfl
      have hrest := Multiset.coe_eq_coe.mpr ih
      simp only [waiting_cons, hhead, futs, dropped]
      rw [← Multiset.coe_eq_coe]
      simp only [← Multiset.coe_add] at hrest ⊢
      rw [hrest]
      abel
  | case4 addr rest fut => exact List.Perm.refl _
  | case5 addr rx rest fut r ih =>
      have hhead : queriesIn (.pending :: rx) = queriesIn rx := rfl
      have hrest := Multiset.coe_eq_coe.mpr ih
      simp only [waiting_cons, hhead, futs, dropped]
      rw [← Multiset.coe_eq_coe]
      simp only [← Multiset.coe_add] at hrest ⊢
      rw [hrest]
      abel

/-- All futures of a round but the last one send queries. -/
theorem futs_eq : ∃ qs : List Q, futs cs = qs.map .query ∨ futs cs = qs.map .query ++ [.connDone] := by
  fun_induction futs cs with
  | case1 => exact ⟨[], .inl rfl⟩
  | case2 addr items rx rest ih =>
      obtain ⟨qs, h | h⟩ := ih
      · exact ⟨queries items ++ qs, .inl (by rw [h, List.map_append])⟩
      · exact ⟨queries items ++ qs, .inr (by rw [h, List.map_append, List.append_assoc])⟩
  | case3 addr e rx rest ih => exact ih
  | case4 addr rest => exact ⟨[], .inr rfl⟩
  | case5 addr rx rest ih => exact ih

/-- The query that a round leaves in the slot -/
def kept (cs : List (SocketAddrV4 × CommRx Q)) : List Q := ((futs cs).getLast?.bind CommFut.query?).toList

/-- Of the queries of a round all are kept exactly if the round makes at most one future. -/
theorem length_kept_eq : (kept cs).length = ((futs cs).filterMap CommFut.query?).length ↔ (futs cs).length ≤ 1 := by
  obtain ⟨qs, h | h⟩ := @futs_eq _ cs
  · rw [kept, h, query?_map, List.length_map]
    cases qs using List.reverseRecOn with
    | nil => simp
    | append_singleton qs q => simp [CommFut.query?]
  · have hdone : ([.connDone] : List (CommFut Q)).filterMap CommFut.query? = [] := rfl
    rw [kept, h, List.filterMap_append, query?_map, List.getLast?_concat, hdone]
    simp [CommFut.query?, eq_comm]

/-- The query that is kept is one of the round. -/
theorem kept_sublist : (kept cs).Sublist ((futs cs).filterMap CommFut.query?) := by
  obtain ⟨qs, h | h⟩ := @futs_eq _ cs
  · rw [kept, h, query?_map]
    cases qs using List.reverseRecOn with
    | nil => exact List.Sublist.refl _
    | append_singleton qs q =>
        rw [List.map_append, List.map_singleton, List.getLast?_concat]
        exact List.sublist_append_right _ _
  · rw [kept, h, List.getLast?_concat]
    exact List.nil_sublist _

end Round

/-! ## The round of the connection set -/

/-- An item without its query -/
def CommItem.forget : CommItem Q → CaConnItem
  | .statusInfo => .statusInfo
  | .channelInfoQuery _ => .channelInfoQuery
  | .testValue => .testValue
  | .localLog => .localLog
  | .channelEventValue => .channelEventValue

/-- What a connection gives in the next round -/
def nextPoll : CommRx Q → ConnPoll
  | .ready (.ok items) :: _ => .items (items.map CommItem.forget)
  | .ready (.error _) :: _ => .error
  | [] => .done
  | .pending :: _ => .pending

theorem contains_forget (items : List (CommItem Q)) :
    (items.map CommItem.forget).contains .channelInfoQuery = !(queries items).isEmpty := by
  induction items with
  | nil => rfl
  | cons item items ih =>
      rw [List.map_cons, List.contains_cons, ih]
      cases item with
      | channelInfoQuery q => rfl
      | _ => rfl

/-- A round of the connection set fills the slot exactly if a future is made here. -/
theorem pollConns_fut (conn : SocketAddrV4 → ConnPoll) (reg : CaConnReg) (cs : List (SocketAddrV4 × CommRx Q))
    (hconn : ∀ c ∈ cs, conn c.1 = nextPoll c.2) :
    (ConnSet.pollConns conn (cs.map fun c => (c.1, reg))).fut = !(futs cs).isEmpty := by
  fun_induction futs cs with
  | case1 => rfl
  | case2 addr items rx rest ih =>
      have hhead : conn addr = .items (items.map CommItem.forget) := hconn _ List.mem_cons_self
      have hrest := ih fun c hc => hconn c (List.mem_cons_of_mem _ hc)
      simp only [List.map_cons, ConnSet.pollConns, hhead, hrest, contains_forget]
      cases queries items with
      | nil => simp
      | cons q qs => simp
  | case3 addr e rx rest ih =>
      have hhead : conn addr = .error := hconn _ List.mem_cons_self
      simp only [List.map_cons, ConnSet.pollConns, hhead]
      exact ih fun c hc => hconn c (List.mem_cons_of_mem _ hc)
  | case4 addr rest =>
      have hhead : conn addr = .done := hconn _ List.mem_cons_self
      simp only [List.map_cons, ConnSet.pollConns, hhead]
      rfl
  | case5 addr rx rest ih =>
      have hhead : conn addr = .pending := hconn _ List.mem_cons_self
      simp only [List.map_cons, ConnSet.pollConns, hhead]
      exact ih fun c hc => hconn c (List.mem_cons_of_mem _ hc)

/-! ## Runs -/

/-- The query that the slot holds -/
def held (s : ConnComm Q) : List Q := (s.cmdFutComm.bind CommFut.query?).toList

/-- A run, with the queries that the connections have handed over so far or have in their channels, and those that were
forwarded -/
structure Forwarding (Q : Type) where
  handed : List Q
  forwarded : List Q
  comm : ConnComm Q

/-- What can happen: a connection is made, or there is a round. -/
inductive CommOp (Q : Type) where
  | connect (addr : SocketAddrV4) (rx : CommRx Q)
  | round (ready : Bool)

/-- The connection set when it starts -/
def init : Forwarding Q := ⟨[], [], ⟨[], none⟩⟩

def step : CommOp Q → Forwarding Q → Option (Forwarding Q)
  | .connect addr rx, x =>
      (x.comm.connect addr rx).map fun s => { x with handed := queriesIn rx ++ x.handed, comm := s }
  | .round ready, x =>
      let r := x.comm.pollConnComm ready
      some { x with forwarded := x.forwarded ++ r.1, comm := r.2 }

/-- Each query was forwarded, or is held, or is in its channel, exactly once. -/
def KeepsQueries (x : Forwarding Q) : Prop :=
  x.handed.Perm (x.forwarded ++ held x.comm ++ waiting x.comm.caConns)

/-- A round over the connections makes at most one future, and finds no error in front of queries. -/
def OneAtATime : CommOp Q → Forwarding Q → Prop
  | .connect _ _, _ => True
  | .round _, x => x.comm.cmdFutComm = none → (futs x.comm.caConns).length ≤ 1 ∧ dropped x.comm.caConns = []

theorem insertAt_perm {before : SocketAddrV4 → SocketAddrV4 → Bool} {addr : SocketAddrV4} {rx : CommRx Q}
    {cs : List (SocketAddrV4 × CommRx Q)} (hnew : addr ∉ cs.map Prod.fst) :
    (insertAt before addr rx cs).Perm ((addr, rx) :: cs) := by
  induction cs with
  | nil => exact List.Perm.refl _
  | cons c cs ih =>
      rw [List.map_cons, List.mem_cons, not_or] at hnew
      rw [insertAt, if_neg (Ne.symm hnew.1)]
      split
      · exact List.Perm.refl _
      · exact ((ih hnew.2).cons c).trans (List.Perm.swap _ _ _)

/-- A new connection brings its queries. -/
theorem keepsQueries_connect {x y : Forwarding Q} {addr : SocketAddrV4} {rx : CommRx Q} (hx : KeepsQueries x)
    (h : step (.connect addr rx) x = some y) : KeepsQueries y := by
  obtain ⟨s, hs, rfl⟩ := Option.map_eq_some_iff.mp h
  unfold connect at hs
  split_ifs at hs with hmem
  cases hs
  have hwaiting : (waiting (insertAt addrBefore addr rx x.comm.caConns)).Perm
      (queriesIn rx ++ waiting x.comm.caConns) := by
    rw [← waiting_cons (addr, rx)]
    exact (insertAt_perm hmem).flatMap_right _
  have hall := Multiset.coe_eq_coe.mpr hx
  have hnew := Multiset.coe_eq_coe.mpr hwaiting
  rw [KeepsQueries, ← Multiset.coe_eq_coe]
  simp only [← Multiset.coe_add, held] at hall hnew ⊢
  rw [hall, hnew]
  abel

/-- A round with the slot filled moves the query on, or leaves it. -/
theorem keepsQueries_slot {x : Forwarding Q} {fut : CommFut Q} (hx : KeepsQueries x)
    (hslot : x.comm.cmdFutComm = some fut) (ready : Bool) :
    KeepsQueries { x with
      forwarded := x.forwarded ++ (x.comm.pollConnComm ready).1, comm := (x.comm.pollConnComm ready).2 } := by
  rw [KeepsQueries, held, hslot] at hx
  cases fut with
  | connDone =>
      rw [pollConnComm, hslot]
      simpa [KeepsQueries, held, CommFut.query?] using hx
  | query q =>
      rw [pollConnComm, hslot]
      cases ready with
      | true => simpa [KeepsQueries, held, CommFut.query?] using hx
      | false => simpa [KeepsQueries, held, CommFut.query?, hslot] using hx

/-- A round over the connections keeps the queries exactly if it makes at most one future and drops none. -/
theorem keepsQueries_round {x : Forwarding Q} (hx : KeepsQueries x) (hslot : x.comm.cmdFutComm = none) (ready : Bool) :
    KeepsQueries { x with
      forwarded := x.forwarded ++ (x.comm.pollConnComm ready).1, comm := (x.comm.pollConnComm ready).2 } ↔
      (futs x.comm.caConns).length ≤ 1 ∧ dropped x.comm.caConns = [] := by
  have hpoll : x.comm.pollConnComm ready =
      ([], ⟨(pollConnsLoop x.comm.caConns none).1, (futs x.comm.caConns).getLast?⟩) := by
    rw [pollConnComm, hslot]
    simp only [pollConnsLoop_fut, Option.or_none]
  have hwaiting := Multiset.coe_eq_coe.mpr (@waiting_pollConnsLoop _ x.comm.caConns none)
  have hall := Multiset.coe_eq_coe.mpr hx
  rw [hpoll]
  change x.handed.Perm (x.forwarded ++ [] ++ kept x.comm.caConns ++ waiting (pollConnsLoop x.comm.caConns none).1) ↔ _
  rw [← Multiset.coe_eq_coe]
  simp only [held, hslot, Option.bind_none, Option.toList_none, List.append_nil, ← Multiset.coe_add] at hall hwaiting ⊢
  have hsub := @kept_sublist _ x.comm.caConns
  rw [hall, hwaiting]
  constructor
  · intro h
    have hcard := congrArg Multiset.card h
    have hle := hsub.length_le
    simp only [Multiset.card_add, Multiset.coe_card] at hcard
    exact ⟨length_kept_eq.mp (by omega), List.length_eq_zero_iff.mp (by omega)⟩
  · rintro ⟨hone, hnone⟩
    rw [hsub.eq_of_length (length_kept_eq.mpr hone), hnone, Multiset.coe_nil, add_zero, add_assoc]

/-- In every run, whatever the batches are and whenever the lookup is ready, each query is kept until it is forwarded,
and forwarded once, exactly if each round over the connections makes at most one future, and finds no error in front of
queries. -/
theorem keepsQueries_iff (ops : List (CommOp Q)) :
    (∀ x, Reached step ops init x → KeepsQueries x) ↔ Along step OneAtATime ops init := by
  apply forall_reached_iff_along
  · intro o x y hx h
    cases o with
    | connect addr rx => exact iff_of_true (keepsQueries_connect hx h) trivial
    | round ready =>
        cases h
        cases hslot : x.comm.cmdFutComm with
        | some fut =>
            refine iff_of_true (keepsQueries_slot hx hslot ready) fun hnone => ?_
            rw [hslot] at hnone
            cases hnone
        | none => exact (keepsQueries_round hx hslot ready).trans ⟨fun h _ => h, fun h => h hslot⟩
  · exact List.Perm.refl _

/-- Where nothing is held or waits any more, the queries that were forwarded are those that were handed over. -/
theorem KeepsQueries.forwarded_perm {x : Forwarding Q} (hx : KeepsQueries x) (hslot : x.comm.cmdFutComm = none)
    (hwaiting : waiting x.comm.caConns = []) : x.handed.Perm x.forwarded := by
  rw [KeepsQueries, held, hslot, hwaiting] at hx
  simpa using hx

/-- A server -/
def someAddr : SocketAddrV4 := ⟨0x0a000001, 5064⟩

/-- A connection that hands over two queries in one batch -/
def twoQueries : CommRx ℕ := [.ready (.ok [.channelInfoQuery 1, .channelInfoQuery 2]), .pending]

/-- Of two queries in one batch the first one is lost. -/
theorem not_keepsQueries :
    ¬ ∀ (ops : List (CommOp ℕ)) (x : Forwarding ℕ), Reached step ops init x → KeepsQueries x := by
  intro h
  have hrun : Slots.run step [.connect someAddr twoQueries, .round true] init =
      some ⟨[1, 2], [], ⟨[(someAddr, [.pending])], some (.query 2)⟩⟩ := rfl
  have hkeeps := h _ _ ⟨_, List.prefix_rfl, hrun⟩
  exact absurd hkeeps.length_eq (by decide)

end ConnComm

end Connset
end Daqbuf
