import Cube.Lib.Outcome
import Cube.Lib.Run

/-!
# Reading from the peers of a datagram connector

A peer-to-peer connector (`connector_inet.c`) receives the datagrams of all its
peers from one socket and keeps what it has not returned yet in a buffer of
each peer. A cursor marks the current peer; lookups move it. A read first
receives what there is, and then returns bytes of the peer that was current.

* `findpeer_spec`: a lookup ends at the peer with the address, if there is one;
* `drain_spec`: what is received goes to the end of the buffer of its sender, but for what
  the buffer of the read cuts off and what there is no memory for;
* `readPeer_spec`: a read returns the first bytes of the buffer of the current peer;
* `streams_separate_iff`: when, in a run, the bytes returned under a peer are the first
  ones of its datagrams, and the others are in its buffer or in the socket.
-/

namespace Cube.Connector.P2p

open Lib

/-- `enum p2p_read_state`, and the zero a new connector has. -/
inductive ReadState
  | zero
  | waitPeer
  | readConn
  | readBuf
  | readFin
  deriving DecidableEq, Repr

/-- `struct connector_af_inet_p2p_peer_info`: the address of a peer, and the
    bytes at `buf`, if any. -/
structure PeerInfo (Addr : Type*) where
  adrInet : Addr
  buf : Option (List UInt8)

/-- `struct connector_af_inet_p2p_info`. A record of the list is given by its
    position, and the head of the list by none. -/
structure P2pInfo (Addr : Type*) where
  readState : ReadState
  peerList : List (PeerInfo Addr)
  currPeer : Option Nat

variable {Addr : Type*}

namespace PeerInfo

/-- The bytes in the buffer of a peer. -/
def content (peer : PeerInfo Addr) : List UInt8 := peer.buf.getD []

/-- The field `buf_size`. -/
def bufSize (peer : PeerInfo Addr) : Nat := peer.content.length

end PeerInfo

/-- The addresses of the peers. -/
def P2pInfo.addrs (info : P2pInfo Addr) : List Addr := info.peerList.map PeerInfo.adrInet

/-! ## The cursor -/

/-- The `next` of a record of the list, or of its head. -/
def P2pInfo.next (info : P2pInfo Addr) : Option Nat → Option Nat
  | none => if 0 < info.peerList.length then some 0 else none
  | some i => if i + 1 < info.peerList.length then some (i + 1) else none

/-- The `prev` of the head of the list. -/
def P2pInfo.last (info : P2pInfo Addr) : Option Nat :=
  if 0 < info.peerList.length then some (info.peerList.length - 1) else none

/-- `af_inet_p2p_getfirstpeer`. -/
def getfirstpeer (info : P2pInfo Addr) : Option Nat × P2pInfo Addr :=
  let currPeer := info.next none
  (currPeer, { info with currPeer := currPeer })

/-- `af_inet_p2p_getnextpeer`. -/
def getnextpeer (info : P2pInfo Addr) : Option Nat × P2pInfo Addr :=
  if info.currPeer = info.last then (none, info)
  else
    let currPeer := info.next info.currPeer
    (currPeer, { info with currPeer := currPeer })

/-- `af_inet_p2p_getcurrpeer`. -/
def getcurrpeer (info : P2pInfo Addr) : Option Nat := info.currPeer

/-- `af_inet_p2p_islastpeer`. -/
def islastpeer (info : P2pInfo Addr) : Bool := info.currPeer = info.last

/-- `af_inet_p2p_read_refresh`. -/
def readRefresh (info : P2pInfo Addr) : P2pInfo Addr := { info with readState := .readConn }

/-- `af_inet_p2p_read_hold`. -/
def readHold (info : P2pInfo Addr) : P2pInfo Addr := { info with readState := .readBuf }

/-- `af_inet_p2p_read_fin`, which sets the state of `af_inet_p2p_read_hold`. -/
def readFin (info : P2pInfo Addr) : P2pInfo Addr := { info with readState := .readBuf }

/-- `af_inet_p2p_setcurrpeer`: the loop ends at the record of the peer or, without
    one, at the head of the list. -/
def setcurrpeer (info : P2pInfo Addr) (peer : Nat) : Int × P2pInfo Addr :=
  if peer < info.peerList.length then (0, { info with currPeer := some peer })
  else (-EINVAL, { info with currPeer := none })

variable [DecidableEq Addr]

/-- The loop of `af_inet_p2p_findpeer`, over at most as many peers as there are. -/
def findFrom (fromAddr : Addr) : Nat → Option Nat → P2pInfo Addr → Option Nat × P2pInfo Addr
  | 0, _, info => (none, info)
  | _ + 1, none, info => (none, info)
  | n + 1, some i, info =>
    if (info.peerList[i]?).any fun peer => peer.adrInet = fromAddr then (some i, info)
    else
      let (peer, info) := getnextpeer info
      findFrom fromAddr n peer info

/-- `af_inet_p2p_findpeer`. The comparison of addresses, `Memcmp` over their
    length, is equality. -/
def findpeer (info : P2pInfo Addr) (fromAddr : Addr) : Option Nat × P2pInfo Addr :=
  let (peer, info) := getfirstpeer info
  findFrom fromAddr (info.peerList.length + 1) peer info

/-- The memory for a datagram: for a new record, a new peer, and the buffer. -/
structure DatagramMem where
  record : Bool
  peer : Bool
  buf : Bool

/-- `af_inet_p2p_addpeer`: the new peer, or none when there is one already.
    Without memory it returns what is no peer. -/
def addpeer (mem : DatagramMem) (info : P2pInfo Addr) (fromAddr : Addr) :
    Option Nat × P2pInfo Addr :=
  let (peer, info) := findpeer info fromAddr
  if peer.isSome ∨ ¬ mem.record ∨ ¬ mem.peer then (none, info)
  else
    let info := { info with peerList := info.peerList ++ [(⟨fromAddr, none⟩ : PeerInfo Addr)] }
    (info.last, { info with currPeer := info.last })

/-! ## Reading -/

/-- The datagrams in the socket, each with the address it is from: what `recvfrom`
    is to return, the oldest first. -/
abbrev Socket (Addr : Type*) := List (Addr × List UInt8)

/-- The size of the buffer that a datagram is received in. -/
def MAX_P2P_SIZE : Nat := 1450

/-- The bytes received from a peer put to the end of its buffer. -/
def P2pInfo.receive (info : P2pInfo Addr) (i : Nat) (peer : PeerInfo Addr) (data : List UInt8) :
    P2pInfo Addr :=
  let buf := match peer.buf with
    | none => data
    | some buf => buf ++ data
  { info with peerList := info.peerList.set i { peer with buf := some buf } }

/-- The loop of `connector_af_inet_p2p_read` over the datagrams, of which `recvfrom`
    returns `n` at most before it finds none: the value returned, if the call
    ends with an error, and what is left. A datagram without bytes ends the loop, and one
    that is longer than the buffer is cut off. -/
def drain (mem : Nat → DatagramMem) :
    Nat → Socket Addr → P2pInfo Addr → Outcome (Int × Socket Addr × P2pInfo Addr)
  | 0, socket, info => .done (0, socket, info)
  | _ + 1, [], info => .done (0, [], info)
  | n + 1, (fromAddr, data) :: socket, info =>
    if data = [] then .done (0, socket, info)
    else
      let (found, info) := findpeer info fromAddr
      let (peer, info) :=
        if found.isNone then addpeer (mem n) info fromAddr else (found, info)
      match peer with
      | none => .fault
      | some i => match info.peerList[i]? with
        | none => .fault
        | some peerInfo =>
          if ¬ (mem n).buf then .done (-ENOMEM, socket, info)
          else drain mem n socket (info.receive i peerInfo (data.take MAX_P2P_SIZE))

/-- The end of `connector_af_inet_p2p_read`, for the peer at `i`: the value returned,
    the bytes written to the buffer of the caller, and the connector. -/
def readPeer (rest : Bool) (count i : Nat) (info : P2pInfo Addr) :
    Outcome (Int × List UInt8 × P2pInfo Addr) :=
  match info.peerList[i]? with
  | none => .fault
  | some peer =>
    if peer.bufSize ≤ count ∧ 0 < peer.bufSize then
      let info := { info with peerList := info.peerList.set i { peer with buf := none } }
      .done (peer.bufSize, peer.content, if islastpeer info then readFin info else info)
    else if count < peer.bufSize then
      if ¬ rest then .done (-ENOMEM, peer.content.take count, info)
      else .done (count, peer.content.take count, { info with
        peerList := info.peerList.set i { peer with buf := some (peer.content.drop count) } })
    else .done (0, [], info)

/-- The memory for a read: for each datagram, and for what is left of a buffer. -/
structure ReadMem where
  datagram : Nat → DatagramMem
  rest : Bool

/-- The first half of `connector_af_inet_p2p_read`: receiving, if the state says so. -/
def receiveAll (mem : ReadMem) (avail : Nat) (socket : Socket Addr) (info : P2pInfo Addr) :
    Outcome (Int × Socket Addr × P2pInfo Addr) :=
  let info := if info.readState = .zero ∨ info.readState = .readFin then readRefresh info else info
  if info.readState = .readConn then do
    let (ret, socket, info) ← drain mem.datagram avail socket info
    .done (ret, socket, if ret < 0 then info else readHold info)
  else .done (0, socket, info)

/-- `connector_af_inet_p2p_read`, when `recvfrom` finds at most `avail` datagrams: the
    value returned, the bytes written, what is left in the socket, and the connector. -/
def connectorAfInetP2pRead (mem : ReadMem) (avail count : Nat) (socket : Socket Addr)
    (info : P2pInfo Addr) : Outcome (Int × List UInt8 × Socket Addr × P2pInfo Addr) := do
  let currPeerInfo := getcurrpeer info
  let (ret, socket, info) ← receiveAll mem avail socket info
  if ret < 0 then .done (ret, [], socket, info)
  else
    let (peer, info) := match currPeerInfo with
      | none => getfirstpeer info
      | some i => (some i, (setcurrpeer info i).2)
    match peer with
    | none => .done (0, [], socket, info)
    | some i => do
      let (ret, bytes, info) ← readPeer mem.rest count i info
      .done (ret, bytes, socket, info)

/-- Nothing is lost of the datagrams that `recvfrom` returns, `n` at most: each fits into the
    buffer, and there is memory for its bytes and, if its sender is not known yet, for a peer. -/
def Receivable (mem : Nat → DatagramMem) : Nat → Socket Addr → Set Addr → Prop
  | 0, _, _ => True
  | _ + 1, [], _ => True
  | n + 1, (fromAddr, data) :: socket, known =>
    data = [] ∨
      data.length ≤ MAX_P2P_SIZE ∧ (mem n).buf ∧
        (fromAddr ∈ known ∨ (mem n).record ∧ (mem n).peer) ∧
        Receivable mem n socket (insert fromAddr known)

/-! ## The traffic of a connector -/

/-- The bytes of the datagrams from an address, one datagram after the other. -/
def bytesOf (a : Addr) (datagrams : List (Addr × List UInt8)) : List UInt8 :=
  (datagrams.filter fun d => d.1 = a).flatMap Prod.snd

/-- The bytes in the buffers of the peers with an address. -/
def pending (a : Addr) (peers : List (PeerInfo Addr)) : List UInt8 :=
  (peers.filter fun peer => peer.adrInet = a).flatMap PeerInfo.content

/-- A connector and its socket, with all datagrams that have arrived, and the bytes
    returned so far, each with the peer that was current. -/
structure Traffic (Addr : Type*) where
  socket : Socket Addr
  info : P2pInfo Addr
  arrived : List (Addr × List UInt8)
  returned : List (Addr × List UInt8)

/-- A datagram arrives, a read into a buffer with some content, a lookup, or a change of the
    state of reading. -/
inductive Event (Addr : Type*)
  | arrive (fromAddr : Addr) (data : List UInt8)
  | read (mem : ReadMem) (avail : Nat) (buf : List UInt8)
  | getfirstpeer
  | getnextpeer
  | setcurrpeer (peer : Nat)
  | findpeer (fromAddr : Addr)
  | readRefresh
  | readHold
  | readFin

namespace Traffic

/-- The address of the current peer. -/
def currAddr (info : P2pInfo Addr) : Option Addr :=
  info.currPeer.bind fun i => (info.peerList[i]?).map PeerInfo.adrInet

/-- The bytes that the caller of a read has: as many of its buffer as were returned. -/
def handed (ret : Int) (bytes buf : List UInt8) : List UInt8 :=
  (bytes ++ buf.drop bytes.length).take ret.toNat

/-- A step of the traffic. If no peer is current, a read makes one current. -/
def step (t : Traffic Addr) : Event Addr → Outcome (Traffic Addr)
  | .arrive fromAddr data => .done { t with
      socket := t.socket ++ [(fromAddr, data)]
      arrived := t.arrived ++ [(fromAddr, data)] }
  | .read mem avail buf => do
    let (ret, bytes, socket, info) ←
      connectorAfInetP2pRead mem avail buf.length t.socket t.info
    let curr := (currAddr t.info).or (currAddr info)
    .done { t with
      socket := socket
      info := info
      returned := t.returned ++ (curr.map fun a => (a, handed ret bytes buf)).toList }
  | .getfirstpeer => .done { t with info := (P2p.getfirstpeer t.info).2 }
  | .getnextpeer => .done { t with info := (P2p.getnextpeer t.info).2 }
  | .setcurrpeer peer => .done { t with info := (P2p.setcurrpeer t.info peer).2 }
  | .findpeer fromAddr => .done { t with info := (P2p.findpeer t.info fromAddr).2 }
  | .readRefresh => .done { t with info := P2p.readRefresh t.info }
  | .readHold => .done { t with info := P2p.readHold t.info }
  | .readFin => .done { t with info := P2p.readFin t.info }

/-- A step of the traffic, where the ones before it came to an end. -/
def next (t : Outcome (Traffic Addr)) (e : Event Addr) : Outcome (Traffic Addr) :=
  t >>= fun t => t.step e

/-- A new connector: it knows no peer (`connector_af_inet_p2p_bind_init`), or the
    server (`connector_af_inet_p2p_rand_init`). -/
def start (server : Option Addr) : Traffic Addr where
  socket := []
  info := {
    readState := .zero
    peerList := server.toList.map fun a => ⟨a, none⟩
    currPeer := none }
  arrived := []
  returned := []

/-- The condition on a step: a read in a state of receiving can receive what there is. -/
def StepOk (t : Traffic Addr) : Event Addr → Prop
  | .read mem avail _ => t.info.readState ≠ .waitPeer → t.info.readState ≠ .readBuf →
    Receivable mem.datagram avail t.socket {a | a ∈ t.info.addrs}
  | _ => True

/-- The streams of the peers are kept apart: of the bytes that have arrived from
    an address, those returned under its peer are the first ones, those in the
    buffer of the peer come next, and the others are in the socket. -/
def Separate (t : Traffic Addr) : Prop :=
  ∀ a, bytesOf a t.returned ++ pending a t.info.peerList ++ bytesOf a t.socket =
    bytesOf a t.arrived

end Traffic

/-! ## Lookups -/

section Lookups

omit [DecidableEq Addr]

variable {info : P2pInfo Addr} {a : Addr}

/-- The peers have different addresses, and the cursor stands on one of them or on
    the head of the list. -/
structure P2pInfo.Valid (info : P2pInfo Addr) : Prop where
  nodup : (info.peerList.map PeerInfo.adrInet).Nodup
  currPeer_lt : ∀ i, info.currPeer = some i → i < info.peerList.length

theorem getfirstpeer_valid (h : info.Valid) : (getfirstpeer info).2.Valid := by
  refine ⟨h.nodup, fun i hi => ?_⟩
  simp only [getfirstpeer, P2pInfo.next] at hi ⊢
  split_ifs at hi with hpos
  exact Option.some_inj.1 hi ▸ hpos

theorem getnextpeer_valid (h : info.Valid) : (getnextpeer info).2.Valid := by
  unfold getnextpeer
  split_ifs with hlast
  · exact h
  refine ⟨h.nodup, fun i hi => ?_⟩
  simp only [P2pInfo.next] at hi ⊢
  rcases hcurr : info.currPeer with _ | j
  · rw [hcurr] at hi
    simp only at hi
    split_ifs at hi with hpos
    exact Option.some_inj.1 hi ▸ hpos
  · rw [hcurr] at hi
    simp only at hi
    split_ifs at hi with hpos
    exact Option.some_inj.1 hi ▸ hpos

theorem setcurrpeer_valid (h : info.Valid) (peer : Nat) : (setcurrpeer info peer).2.Valid := by
  unfold setcurrpeer
  split_ifs with hpeer
  · refine ⟨h.nodup, fun i hi => ?_⟩
    exact Option.some_inj.1 hi ▸ hpeer
  · exact ⟨h.nodup, fun i hi => nomatch hi⟩

variable [DecidableEq Addr]

/-- The search from the peer at `i` on, when none before it has the address. -/
theorem findFrom_spec {i n : Nat} (hi : i < info.peerList.length)
    (hn : info.peerList.length < n + i) (hbefore : ∀ j peer, j < i →
      info.peerList[j]? = some peer → peer.adrInet ≠ a) :
    (∃ j peer, info.peerList[j]? = some peer ∧ peer.adrInet = a ∧
      findFrom a n (some i) { info with currPeer := some i } =
        (some j, { info with currPeer := some j })) ∨
    ((∀ peer ∈ info.peerList, peer.adrInet ≠ a) ∧ ∃ j, j < info.peerList.length ∧
      findFrom a n (some i) { info with currPeer := some i } =
        (none, { info with currPeer := some j })) := by
  induction n generalizing i with
  | zero => omega
  | succ n ih =>
    obtain ⟨peer, hpeer⟩ : ∃ peer, info.peerList[i]? = some peer := ⟨_, List.getElem?_eq_getElem hi⟩
    rw [findFrom]
    by_cases ha : peer.adrInet = a
    · exact .inl ⟨i, peer, hpeer, ha, by simp [hpeer, ha]⟩
    rw [if_neg (by simp [hpeer, ha])]
    by_cases hlast : i + 1 < info.peerList.length
    · -- the cursor moves to the next peer
      have hnext : getnextpeer { info with currPeer := some i } =
          (some (i + 1), { info with currPeer := some (i + 1) }) := by
        have hne : i ≠ info.peerList.length - 1 := by omega
        simp [getnextpeer, P2pInfo.last, P2pInfo.next, hlast, hne]
      simp only [hnext]
      refine ih hlast (by omega) fun j peer' hj hpeer' => ?_
      rcases Nat.lt_succ_iff_lt_or_eq.1 hj with hj | rfl
      · exact hbefore j peer' hj hpeer'
      · rw [hpeer] at hpeer'
        exact Option.some_inj.1 hpeer' ▸ ha
    · -- the cursor stays on the last peer
      have hnext : getnextpeer { info with currPeer := some i } =
          (none, { info with currPeer := some i }) := by
        have heq : i = info.peerList.length - 1 := by omega
        have hpos : 0 < info.peerList.length := by omega
        simp [getnextpeer, P2pInfo.last, hpos, heq]
      simp only [hnext]
      refine .inr ⟨fun peer' hmem => ?_, i, hi, ?_⟩
      · obtain ⟨j, hj, rfl⟩ := List.getElem_of_mem hmem
        rcases Nat.lt_or_ge j i with hji | hji
        · exact hbefore j _ hji (List.getElem?_eq_getElem hj)
        · obtain rfl : j = i := by omega
          rw [List.getElem?_eq_getElem hj] at hpeer
          exact Option.some_inj.1 hpeer ▸ ha
      · cases n <;> rfl

/-- A lookup finds the peer with the address, if there is one, and leaves the
    cursor on it. -/
theorem findpeer_spec (info : P2pInfo Addr) (a : Addr) :
    (∃ j peer, info.peerList[j]? = some peer ∧ peer.adrInet = a ∧
      findpeer info a = (some j, { info with currPeer := some j })) ∨
    ((∀ peer ∈ info.peerList, peer.adrInet ≠ a) ∧
      ∃ curr, (∀ j, curr = some j → j < info.peerList.length) ∧
        findpeer info a = (none, { info with currPeer := curr })) := by
  by_cases hpos : 0 < info.peerList.length
  · have hfirst : getfirstpeer info = (some 0, { info with currPeer := some 0 }) := by
      simp [getfirstpeer, P2pInfo.next, hpos]
    rw [findpeer, hfirst]
    rcases findFrom_spec (a := a) hpos (n := info.peerList.length + 1) (by omega)
        (fun j _ hj => absurd hj (Nat.not_lt_zero j)) with hfound | ⟨hnone, j, hj, hfind⟩
    · exact .inl hfound
    · exact .inr ⟨hnone, some j, fun k hk => Option.some_inj.1 hk ▸ hj, hfind⟩
  · have hnil : info.peerList = [] := List.length_eq_zero_iff.1 (by omega)
    refine .inr ⟨by simp [hnil], none, by simp, ?_⟩
    simp [findpeer, getfirstpeer, P2pInfo.next, hnil, findFrom]

theorem findpeer_valid (h : info.Valid) (a : Addr) : (findpeer info a).2.Valid := by
  rcases findpeer_spec info a with ⟨j, peer, hj, _, hfind⟩ | ⟨_, curr, hcurr, hfind⟩
  · rw [hfind]
    refine ⟨h.nodup, fun k hk => ?_⟩
    exact Option.some_inj.1 hk ▸ (List.getElem?_eq_some_iff.1 hj).1
  · rw [hfind]
    exact ⟨h.nodup, hcurr⟩

end Lookups

/-! ## Bytes and buffers -/

section Buffers

variable {a b : Addr} {l : List (PeerInfo Addr)} {peer peer' : PeerInfo Addr} {i : Nat}

theorem bytesOf_append (l₁ l₂ : List (Addr × List UInt8)) :
    bytesOf b (l₁ ++ l₂) = bytesOf b l₁ ++ bytesOf b l₂ := by
  simp [bytesOf]

theorem bytesOf_cons (data : List UInt8) (l : List (Addr × List UInt8)) :
    bytesOf b ((a, data) :: l) = (if a = b then data else []) ++ bytesOf b l := by
  by_cases h : a = b <;> simp [bytesOf, h]

theorem pending_cons (peer : PeerInfo Addr) (l : List (PeerInfo Addr)) : pending b (peer :: l) =
    (if peer.adrInet = b then peer.content else []) ++ pending b l := by
  by_cases h : peer.adrInet = b <;> simp [pending, h]

/-- A new peer has an empty buffer. -/
theorem pending_concat_new : pending b (l ++ [⟨a, none⟩]) = pending b l := by
  rw [pending, List.filter_append, List.flatMap_append, ← pending]
  by_cases h : a = b <;> simp [h, PeerInfo.content]

/-- No bytes are in the buffers of others. -/
theorem pending_eq_nil (h : ∀ peer ∈ l, peer.adrInet ≠ a) : pending a l = [] := by
  rw [pending, List.filter_eq_nil_iff.2 (by simpa using h), List.flatMap_nil]

/-- A peer with another buffer. -/
theorem pending_set (hnd : (l.map PeerInfo.adrInet).Nodup) (hi : l[i]? = some peer)
    (peer' : PeerInfo Addr) (hadr : peer'.adrInet = peer.adrInet) :
    pending b (l.set i peer') = if peer.adrInet = b then peer'.content else pending b l := by
  induction l generalizing i with
  | nil => simp at hi
  | cons x l ih =>
    rw [List.map_cons, List.nodup_cons] at hnd
    rcases i with _ | i
    · obtain rfl : x = peer := by simpa using hi
      rw [List.set_cons_zero, pending_cons, pending_cons, hadr]
      split_ifs with hb
      · have hothers : ∀ y ∈ l, y.adrInet ≠ b :=
          fun y hy h => hnd.1 ((hb.trans h.symm) ▸ List.mem_map_of_mem hy)
        rw [pending_eq_nil hothers, List.append_nil]
      · rfl
    · rw [List.getElem?_cons_succ] at hi
      have hne : x.adrInet ≠ peer.adrInet :=
        fun h => hnd.1 (h ▸ List.mem_map_of_mem (List.mem_of_getElem? hi))
      rw [List.set_cons_succ, pending_cons, ih hnd.2 hi, pending_cons]
      by_cases hb : peer.adrInet = b
      · have hxb : x.adrInet ≠ b := fun h => hne (h.trans hb.symm)
        simp [hb, hxb]
      · simp [hb]

/-- The bytes of an address are in the buffer of its peer. -/
theorem pending_of_getElem (hnd : (l.map PeerInfo.adrInet).Nodup) (hi : l[i]? = some peer) :
    pending peer.adrInet l = peer.content := by
  have hset : pending peer.adrInet (l.set i peer) = _ := pending_set hnd hi peer rfl
  obtain ⟨hlt, rfl⟩ := List.getElem?_eq_some_iff.1 hi
  rwa [List.set_getElem_self, if_pos rfl] at hset

omit [DecidableEq Addr] in
/-- Buffers change, addresses do not. -/
theorem map_adrInet_set (hi : l[i]? = some peer) (hadr : peer'.adrInet = peer.adrInet) :
    (l.set i peer').map PeerInfo.adrInet = l.map PeerInfo.adrInet := by
  induction l generalizing i with
  | nil => rfl
  | cons x l ih =>
    rcases i with _ | i
    · obtain rfl : x = peer := by simpa using hi
      rw [List.set_cons_zero, List.map_cons, List.map_cons, hadr]
    · rw [List.set_cons_succ, List.map_cons, List.map_cons, ih hi]

/-- The buffer of the peer that receives bytes gets them behind its own. -/
theorem receive_spec {info : P2pInfo Addr} (h : info.Valid) (hi : info.peerList[i]? = some peer)
    (data : List UInt8) :
    (info.receive i peer data).Valid ∧
      (info.receive i peer data).peerList.map PeerInfo.adrInet =
        info.peerList.map PeerInfo.adrInet ∧
      ∀ b, pending b (info.receive i peer data).peerList =
        pending b info.peerList ++ if peer.adrInet = b then data else [] := by
  have hmap : (info.receive i peer data).peerList.map PeerInfo.adrInet =
      info.peerList.map PeerInfo.adrInet := map_adrInet_set hi rfl
  refine ⟨⟨hmap ▸ h.nodup, fun j hj => ?_⟩, hmap, fun b => ?_⟩
  · have hlen := congrArg List.length hmap
    rw [List.length_map, List.length_map] at hlen
    exact hlen ▸ h.currPeer_lt j hj
  · simp only [P2pInfo.receive]
    rw [pending_set h.nodup hi _ (by rfl)]
    split_ifs with hb
    · rw [← hb, pending_of_getElem h.nodup hi]
      rcases hbuf : peer.buf with _ | buf <;> simp [PeerInfo.content, hbuf]
    · rw [List.append_nil]

end Buffers

/-! ## What a read does -/

section Read

variable {info info' : P2pInfo Addr} {mem : Nat → DatagramMem} {socket socket' : Socket Addr}
  {n : Nat}

/-- The bytes of an address that are in the buffer of its peer and, behind that, in the socket. -/
def held (a : Addr) (info : P2pInfo Addr) (socket : Socket Addr) : List UInt8 :=
  pending a info.peerList ++ bytesOf a socket

/-- The peers known before are still at their places. -/
structure Follows (info info' : P2pInfo Addr) : Prop where
  valid : info'.Valid
  addrs : info.addrs <+: info'.addrs

omit [DecidableEq Addr] in
theorem Follows.trans {info'' : P2pInfo Addr} (h : Follows info info') (h' : Follows info' info'') :
    Follows info info'' := ⟨h'.valid, h.addrs.trans h'.addrs⟩

/-- A peer is found for the sender of a datagram, or added if there is memory. -/
theorem senderOf_spec (h : info.Valid) (mem : DatagramMem) (a : Addr) :
    let sender := if (findpeer info a).1.isNone then addpeer mem (findpeer info a).2 a
      else findpeer info a
    (¬ (a ∈ info.addrs ∨ mem.record ∧ mem.peer) ∧ sender.1 = none) ∨
    ∃ i peer info', (a ∈ info.addrs ∨ mem.record ∧ mem.peer) ∧ sender = (some i, info') ∧
      info'.peerList[i]? = some peer ∧ peer.adrInet = a ∧ Follows info info' ∧
      {b | b ∈ info'.addrs} = insert a {b | b ∈ info.addrs} ∧
      ∀ b, pending b info'.peerList = pending b info.peerList := by
  intro sender
  rcases findpeer_spec info a with ⟨j, peer, hj, ha, hfind⟩ | ⟨hnone, curr, hcurr, hfind⟩
  · have hmem : a ∈ info.addrs := List.mem_map.2 ⟨peer, List.mem_of_getElem? hj, ha⟩
    refine .inr ⟨j, peer, { info with currPeer := some j }, .inl hmem, ?_, hj, ha,
      ⟨⟨h.nodup, fun k hk => ?_⟩, List.prefix_refl _⟩, ?_, fun b => rfl⟩
    · simp only [sender, hfind, Option.isNone_some, Bool.false_eq_true, if_false]
    · exact Option.some_inj.1 hk ▸ (List.getElem?_eq_some_iff.1 hj).1
    · exact (Set.insert_eq_of_mem (s := {b | b ∈ info.addrs}) hmem).symm
  have hno : a ∉ info.addrs := fun hmem => by
    obtain ⟨peer, hpeer, ha⟩ := List.mem_map.1 hmem
    exact hnone peer hpeer ha
  obtain ⟨c, hagain⟩ : ∃ c, findpeer { info with currPeer := curr } a =
      (none, { info with currPeer := c }) := by
    rcases findpeer_spec { info with currPeer := curr } a with ⟨j, peer, hj, ha, _⟩ | ⟨_, c, _, hc⟩
    · exact absurd ha (hnone peer (List.mem_of_getElem? hj))
    · exact ⟨c, hc⟩
  by_cases hmem : mem.record ∧ mem.peer
  · -- The peer is added at the end, and the cursor left on it.
    have hpos : 0 < info.peerList.length + 1 := Nat.succ_pos _
    refine .inr ⟨info.peerList.length, ⟨a, none⟩, { info with
        peerList := info.peerList ++ [⟨a, none⟩]
        currPeer := some info.peerList.length }, .inr hmem, ?_, ?_, rfl,
      ⟨⟨?_, fun k hk => ?_⟩, ?_⟩, ?_, fun b => pending_concat_new⟩
    · simp only [sender, hfind]
      simp [addpeer, hagain, hmem, P2pInfo.last]
    · simp
    · rw [List.map_append]
      refine h.nodup.append (List.nodup_singleton a) ?_
      simpa using hnone
    · have hk : info.peerList.length = k := Option.some_inj.1 hk
      simp [← hk]
    · rw [P2pInfo.addrs, P2pInfo.addrs, List.map_append]
      exact List.prefix_append _ _
    · ext b
      rw [Set.mem_insert_iff, Set.mem_ofPred_eq, Set.mem_ofPred_eq, P2pInfo.addrs, List.map_append,
        List.mem_append, List.map_singleton, List.mem_singleton, or_comm, P2pInfo.addrs]
  · refine .inl ⟨not_or.2 ⟨hno, hmem⟩, ?_⟩
    have hmem' : ¬ mem.record ∨ ¬ mem.peer := not_and_or.1 hmem
    simp only [sender, hfind, Option.isNone_none, if_true, addpeer, hagain, Option.isSome_none,
      Bool.false_eq_true, false_or, if_pos hmem']

/-- What becomes of a datagram: there is no peer for it, or its bytes, as far as they fit into the
    buffer of the read, go to the end of the buffer of its sender, if there is memory for that. -/
theorem drain_cons (h : info.Valid) (mem : Nat → DatagramMem) (n : Nat) (a : Addr)
    {data : List UInt8} (hdata : data ≠ []) (socket : Socket Addr) :
    (¬ (a ∈ info.addrs ∨ (mem n).record ∧ (mem n).peer) ∧
      drain mem (n + 1) ((a, data) :: socket) info = .fault) ∨
    ∃ info₁ info₂, (a ∈ info.addrs ∨ (mem n).record ∧ (mem n).peer) ∧
      Follows info info₁ ∧ Follows info info₂ ∧
      {b | b ∈ info₂.addrs} = insert a {b | b ∈ info.addrs} ∧
      (∀ b, pending b info₁.peerList = pending b info.peerList) ∧
      (∀ b, pending b info₂.peerList =
        pending b info.peerList ++ if a = b then data.take MAX_P2P_SIZE else []) ∧
      drain mem (n + 1) ((a, data) :: socket) info =
        if (mem n).buf then drain mem n socket info₂ else .done (-ENOMEM, socket, info₁) := by
  rw [drain, if_neg hdata]
  rcases hfind : findpeer info a with ⟨found, info₀⟩
  have hsender := senderOf_spec h (mem n) a
  rw [hfind] at hsender
  rcases hsender with ⟨hno, hnone⟩ | ⟨i, peer, info₁, hok, hsome, hi, ha, h₁, hset, hpend₁⟩
  · simp only at hnone ⊢
    exact .inl ⟨hno, by rw [hnone]⟩
  · obtain ⟨hvalid, hmap, hpend⟩ := receive_spec h₁.valid hi (data.take MAX_P2P_SIZE)
    have haddrs : (info₁.receive i peer (data.take MAX_P2P_SIZE)).addrs = info₁.addrs := hmap
    refine .inr ⟨info₁, info₁.receive i peer (data.take MAX_P2P_SIZE), hok, h₁,
      ⟨hvalid, haddrs ▸ h₁.addrs⟩, haddrs ▸ hset, hpend₁, fun b => ?_, ?_⟩
    · rw [hpend, hpend₁, ha]
    · simp only at hsome ⊢
      rw [hsome]
      simp only [hi]
      by_cases hbuf : (mem n).buf = true
      · rw [if_neg (not_not.2 hbuf), if_pos hbuf]
      · rw [if_pos hbuf, if_neg hbuf]

variable (socket) in
/-- The bytes of an address when the first datagram has gone to its sender. -/
theorem held_receive {a b : Addr} (data : List UInt8) {kept : List UInt8}
    (hpend : pending b info'.peerList =
      pending b info.peerList ++ if a = b then kept else []) :
    (held b info' socket).length + (if a = b then data.length else 0) =
      (held b info ((a, data) :: socket)).length + if a = b then kept.length else 0 := by
  rw [held, held, hpend, bytesOf_cons]
  split_ifs
  · simp only [List.length_append]
    omega
  · simp

/-- What can be received goes to the end of the buffer of its sender, and the rest stays in the
    socket. -/
theorem drain_spec (h : info.Valid) (hok : Receivable mem n socket {a | a ∈ info.addrs}) :
    ∃ socket' info', drain mem n socket info = .done (0, socket', info') ∧ Follows info info' ∧
      ∀ b, held b info' socket' = held b info socket := by
  induction n generalizing socket info with
  | zero => exact ⟨socket, info, rfl, ⟨h, List.prefix_refl _⟩, fun b => rfl⟩
  | succ n ih =>
    rcases socket with _ | ⟨⟨a, data⟩, socket⟩
    · exact ⟨[], info, rfl, ⟨h, List.prefix_refl _⟩, fun b => rfl⟩
    by_cases hdata : data = []
    · refine ⟨socket, info, by rw [drain, if_pos hdata], ⟨h, List.prefix_refl _⟩, fun b => ?_⟩
      rw [held, held, bytesOf_cons, hdata, ite_self, List.nil_append]
    obtain ⟨hlen, hbuf, hknown, hrest⟩ := hok.resolve_left hdata
    rcases drain_cons h mem n a hdata socket with ⟨hno, -⟩ |
      ⟨info₁, info₂, -, -, h₂, hset, -, hpend₂, hdrain⟩
    · exact absurd hknown hno
    obtain ⟨socket', info', hdrain', h', hheld⟩ := ih h₂.valid (hset ▸ hrest)
    refine ⟨socket', info', by rw [hdrain, if_pos hbuf, hdrain'], h₂.trans h', fun b => ?_⟩
    rw [hheld, held, held, hpend₂, List.take_of_length_le hlen, bytesOf_cons, List.append_assoc]

/-- Whatever is received, no bytes are added. -/
theorem drain_le (h : info.Valid) {ret : Int}
    (hdrain : drain mem n socket info = .done (ret, socket', info')) :
    Follows info info' ∧ ∀ b, (held b info' socket').length ≤ (held b info socket).length := by
  induction n generalizing socket info with
  | zero =>
    cases hdrain
    exact ⟨⟨h, List.prefix_refl _⟩, fun b => le_rfl⟩
  | succ n ih =>
    rcases socket with _ | ⟨⟨a, data⟩, socket⟩
    · cases hdrain
      exact ⟨⟨h, List.prefix_refl _⟩, fun b => le_rfl⟩
    by_cases hdata : data = []
    · rw [drain, if_pos hdata] at hdrain
      cases hdrain
      refine ⟨⟨h, List.prefix_refl _⟩, fun b => ?_⟩
      rw [held, held, bytesOf_cons, hdata, ite_self, List.nil_append]
    rcases drain_cons h mem n a hdata socket with ⟨-, hfault⟩ |
      ⟨info₁, info₂, -, h₁, h₂, -, hpend₁, hpend₂, hcons⟩
    · rw [hfault] at hdrain
      cases hdrain
    rw [hcons] at hdrain
    split_ifs at hdrain
    · obtain ⟨h', hle⟩ := ih h₂.valid hdrain
      refine ⟨h₂.trans h', fun b => (hle b).trans ?_⟩
      have hreceive := held_receive socket data (hpend₂ b)
      rw [List.length_take] at hreceive
      split_ifs at hreceive <;> omega
    · cases hdrain
      refine ⟨h₁, fun b => ?_⟩
      rw [held, held, hpend₁, bytesOf_cons]
      simp only [List.length_append]
      omega

/-- If not all can be received, bytes of some address are lost. -/
theorem drain_lt (h : info.Valid) (hok : ¬ Receivable mem n socket {a | a ∈ info.addrs}) {ret : Int}
    (hdrain : drain mem n socket info = .done (ret, socket', info')) :
    ∃ b, (held b info' socket').length < (held b info socket).length := by
  induction n generalizing socket info with
  | zero => exact absurd trivial hok
  | succ n ih =>
    rcases socket with _ | ⟨⟨a, data⟩, socket⟩
    · exact absurd trivial hok
    rw [Receivable, not_or] at hok
    obtain ⟨hdata, hok⟩ := hok
    have hpos : 0 < data.length := List.length_pos_iff.2 hdata
    rcases drain_cons h mem n a hdata socket with ⟨-, hfault⟩ |
      ⟨info₁, info₂, hknown, -, h₂, hset, hpend₁, hpend₂, hcons⟩
    · rw [hfault] at hdrain
      cases hdrain
    rw [hcons] at hdrain
    split_ifs at hdrain with hbuf
    · have hreceive (b : Addr) := held_receive socket data (hpend₂ b)
      simp only [List.length_take] at hreceive
      by_cases hlen : data.length ≤ MAX_P2P_SIZE
      · -- Lost later.
        obtain ⟨b, hlt⟩ := ih h₂.valid (hset ▸ fun hrest => hok ⟨hlen, hbuf, hknown, hrest⟩) hdrain
        refine ⟨b, hlt.trans_le ?_⟩
        have hb := hreceive b
        split_ifs at hb <;> omega
      · refine ⟨a, ((drain_le h₂.valid hdrain).2 a).trans_lt ?_⟩
        have ha := hreceive a
        rw [if_pos rfl, if_pos rfl] at ha
        omega
    · cases hdrain
      refine ⟨a, ?_⟩
      rw [held, held, hpend₁, bytesOf_cons, if_pos rfl]
      simp only [List.length_append]
      omega

/-- A read takes the first bytes of the buffer of the peer the cursor stands on. -/
theorem readPeer_spec (h : info.Valid) {i : Nat} (hcurr : info.currPeer = some i) (rest : Bool)
    (count : Nat) :
    ∃ ret bytes info' a, readPeer rest count i info = .done (ret, bytes, info') ∧
      info'.Valid ∧ Traffic.currAddr info = some a ∧ Traffic.currAddr info' = some a ∧
      ∀ buf b, (if a = b then Traffic.handed ret bytes buf else []) ++ pending b info'.peerList =
        pending b info.peerList := by
  have hlt := h.currPeer_lt i hcurr
  obtain ⟨peer, hi⟩ : ∃ peer, info.peerList[i]? = some peer := ⟨_, List.getElem?_eq_getElem hlt⟩
  have haddr : Traffic.currAddr info = some peer.adrInet := by simp [Traffic.currAddr, hcurr, hi]
  -- The buffer left, whatever is taken.
  have hleft (buf : Option (List UInt8)) (state : ReadState) (bytes : List UInt8) {ret : Int}
      (hret : ret = bytes.length) (hbuf : bytes ++ buf.getD [] = peer.content) :
      let info' : P2pInfo Addr := { info with
        readState := state
        peerList := info.peerList.set i { peer with buf := buf } }
      info'.Valid ∧ Traffic.currAddr info = some peer.adrInet ∧
        Traffic.currAddr info' = some peer.adrInet ∧
        ∀ old b, (if peer.adrInet = b then Traffic.handed ret bytes old else []) ++
          pending b info'.peerList = pending b info.peerList := by
    have hmap : (info.peerList.set i { peer with buf := buf }).map PeerInfo.adrInet = _ :=
      map_adrInet_set hi rfl
    refine ⟨⟨hmap ▸ h.nodup, fun j hj => ?_⟩, haddr, ?_, fun old b => ?_⟩
    · rw [List.length_set]
      exact h.currPeer_lt j hj
    · simp [Traffic.currAddr, hcurr, hlt]
    · have hhanded : Traffic.handed ret bytes old = bytes := by
        rw [Traffic.handed, hret, Int.toNat_natCast, List.take_left]
      simp only
      rw [pending_set h.nodup hi _ (by rfl), hhanded]
      split_ifs with hb
      · rw [← hb, pending_of_getElem h.nodup hi, ← hbuf]
        rfl
      · rfl
  -- Nothing is returned.
  have hnone (ret : Int) (bytes : List UInt8) (hret : ret ≤ 0) :
      info.Valid ∧ Traffic.currAddr info = some peer.adrInet ∧
        Traffic.currAddr info = some peer.adrInet ∧
        ∀ old b, (if peer.adrInet = b then Traffic.handed ret bytes old else []) ++
          pending b info.peerList = pending b info.peerList := by
    refine ⟨h, haddr, haddr, fun old b => ?_⟩
    rw [Traffic.handed, Int.toNat_of_nonpos hret, List.take_zero, ite_self, List.nil_append]
  unfold readPeer
  simp only [hi]
  split_ifs with hall hlast hmore
  · exact ⟨_, _, _, _, rfl, hleft none .readBuf peer.content rfl (List.append_nil _)⟩
  · exact ⟨_, _, _, _, rfl, hleft none info.readState peer.content rfl (List.append_nil _)⟩
  · refine ⟨_, _, _, _, rfl, hleft (some (peer.content.drop count)) info.readState
      (peer.content.take count) ?_ (List.take_append_drop count peer.content)⟩
    have hle : count ≤ peer.content.length := Nat.le_of_lt hmore
    rw [List.length_take, Nat.min_eq_left hle]
  · exact ⟨_, _, _, _, rfl, hnone _ _ (by decide)⟩
  · exact ⟨_, _, _, _, rfl, hnone 0 [] le_rfl⟩

/-- A state of receiving. -/
def Receiving (info : P2pInfo Addr) : Prop :=
  info.readState ≠ .waitPeer ∧ info.readState ≠ .readBuf

/-- The first half of a read. -/
theorem receiveAll_eq (mem : ReadMem) (avail : Nat) (socket : Socket Addr) (info : P2pInfo Addr) :
    (Receiving info → receiveAll mem avail socket info =
      drain mem.datagram avail socket (readRefresh info) >>= fun r =>
        .done (r.1, r.2.1, if r.1 < 0 then r.2.2 else readHold r.2.2)) ∧
    (¬ Receiving info → receiveAll mem avail socket info = .done (0, socket, info)) := by
  obtain ⟨readState, peerList, currPeer⟩ := info
  cases readState with
  | zero | readFin | readConn =>
    exact ⟨fun _ => rfl, fun hno => absurd ⟨nofun, nofun⟩ hno⟩
  | waitPeer => exact ⟨fun h => absurd rfl h.1, fun _ => rfl⟩
  | readBuf => exact ⟨fun h => absurd rfl h.2, fun _ => rfl⟩

/-- What can be received is. -/
theorem receiveAll_spec {mem : ReadMem} (h : info.Valid)
    (hok : Receiving info → Receivable mem.datagram n socket {a | a ∈ info.addrs}) :
    ∃ socket' info', receiveAll mem n socket info = .done (0, socket', info') ∧
      Follows info info' ∧ ∀ b, held b info' socket' = held b info socket := by
  by_cases hstate : Receiving info
  · have hvalid : (readRefresh info).Valid := ⟨h.nodup, h.currPeer_lt⟩
    obtain ⟨socket', info', hdrain, h', hheld⟩ := drain_spec hvalid (hok hstate)
    refine ⟨socket', readHold info', ?_, ⟨⟨h'.valid.nodup, h'.valid.currPeer_lt⟩, h'.addrs⟩, hheld⟩
    rw [(receiveAll_eq mem n socket info).1 hstate, hdrain]
    rfl
  · exact ⟨socket, info, (receiveAll_eq mem n socket info).2 hstate, ⟨h, List.prefix_refl _⟩,
      fun b => rfl⟩

/-- If not all can be received, bytes are lost. -/
theorem receiveAll_lt {mem : ReadMem} {ret : Int} (h : info.Valid)
    (hok : ¬ (Receiving info → Receivable mem.datagram n socket {a | a ∈ info.addrs}))
    (hreceive : receiveAll mem n socket info = .done (ret, socket', info')) :
    Follows info info' ∧ ∃ b, (held b info' socket').length < (held b info socket).length := by
  obtain ⟨hstate, hno⟩ := Classical.not_imp.1 hok
  rw [(receiveAll_eq mem n socket info).1 hstate] at hreceive
  obtain ⟨⟨ret₁, socket₁, info₁⟩, hdrain, hdone⟩ := Outcome.bind_eq_done.1 hreceive
  have h₀ : (readRefresh info).Valid := ⟨h.nodup, h.currPeer_lt⟩
  obtain ⟨b, hlt⟩ := drain_lt h₀ hno hdrain
  have h₁ := (drain_le h₀ hdrain).1
  simp only [Outcome.done.injEq, Prod.mk.injEq] at hdone
  obtain ⟨-, rfl, rfl⟩ := hdone
  split_ifs
  · exact ⟨⟨h₁.valid, h₁.addrs⟩, b, hlt⟩
  · exact ⟨⟨⟨h₁.valid.nodup, h₁.valid.currPeer_lt⟩, h₁.addrs⟩, b, hlt⟩

/-- What is received is split into what is returned under the peer that is current and what stays
    in the buffers. -/
theorem read_spec {mem : ReadMem} {ret : Int} (h : info.Valid) (count : Nat)
    (hreceive : receiveAll mem n socket info = .done (ret, socket', info'))
    (h' : Follows info info') :
    ∃ ret bytes info'', connectorAfInetP2pRead mem n count socket info =
        .done (ret, bytes, socket', info'') ∧ info''.Valid ∧
      ∀ buf b, bytesOf b (((Traffic.currAddr info).or (Traffic.currAddr info'')).map
          fun a => (a, Traffic.handed ret bytes buf)).toList ++ pending b info''.peerList =
        pending b info'.peerList := by
  -- Without bytes, whatever is current.
  have hnone {ret : Int} (hret : ret ≤ 0) (curr : Option Addr) (buf : List UInt8) (b : Addr) :
      bytesOf b (curr.map fun a => (a, Traffic.handed ret [] buf)).toList = [] := by
    rw [Traffic.handed, Int.toNat_of_nonpos hret, List.take_zero]
    cases curr <;> simp [bytesOf]
  by_cases hret : ret < 0
  · refine ⟨ret, [], info', ?_, h'.valid, fun buf b => ?_⟩
    · simp [connectorAfInetP2pRead, hreceive, hret]
    · rw [hnone hret.le, List.nil_append]
  -- The cursor is put on the peer that was current, or on the first one.
  have hend {i : Nat} {info₂ : P2pInfo Addr} (h₂ : info₂.Valid)
      (hpeers : info₂.peerList = info'.peerList) (hcurr : info₂.currPeer = some i)
      (haddr : (Traffic.currAddr info).or (Traffic.currAddr info₂) = Traffic.currAddr info₂) :
      ∃ ret bytes info'', readPeer mem.rest count i info₂ = .done (ret, bytes, info'') ∧
        info''.Valid ∧ ∀ buf b, bytesOf b (((Traffic.currAddr info).or
            (Traffic.currAddr info'')).map fun a => (a, Traffic.handed ret bytes buf)).toList ++
          pending b info''.peerList = pending b info'.peerList := by
    obtain ⟨ret, bytes, info'', a, hread, hvalid, hcurr₂, hcurr', hpend⟩ :=
      readPeer_spec h₂ hcurr mem.rest count
    refine ⟨ret, bytes, info'', hread, hvalid, fun buf b => ?_⟩
    rw [hcurr', ← hcurr₂, haddr, hcurr₂, Option.map_some, Option.toList_some, bytesOf_cons, bytesOf,
      List.filter_nil, List.flatMap_nil, List.append_nil, hpend, hpeers]
  rcases hcurr : info.currPeer with _ | i
  · have hbefore : Traffic.currAddr info = none := by rw [Traffic.currAddr, hcurr]; rfl
    by_cases hpos : 0 < info'.peerList.length
    · have hfirst : getfirstpeer info' = (some 0, { info' with currPeer := some 0 }) := by
        simp [getfirstpeer, P2pInfo.next, hpos]
      obtain ⟨ret', bytes, info'', hread, hvalid, hpend⟩ := hend (getfirstpeer_valid h'.valid)
        (by rw [hfirst]) (by rw [hfirst]) (by rw [hbefore, Option.none_or])
      refine ⟨ret', bytes, info'', ?_, hvalid, hpend⟩
      rw [hfirst] at hread
      simp [connectorAfInetP2pRead, hreceive, hret, getcurrpeer, hcurr, hfirst, hread]
    · have hfirst : getfirstpeer info' = (none, { info' with currPeer := none }) := by
        simp [getfirstpeer, P2pInfo.next, hpos]
      refine ⟨0, [], { info' with currPeer := none }, ?_, ⟨h'.valid.nodup, by simp⟩, fun buf b => ?_⟩
      · simp [connectorAfInetP2pRead, hreceive, hret, getcurrpeer, hcurr, hfirst]
      · rw [hnone le_rfl, List.nil_append]
  · have hlt := h.currPeer_lt i hcurr
    have hlen : info.peerList.length ≤ info'.peerList.length := by
      simpa [P2pInfo.addrs] using h'.addrs.length_le
    have hset : setcurrpeer info' i = (0, { info' with currPeer := some i }) :=
      if_pos (Nat.lt_of_lt_of_le hlt hlen)
    -- The peer at that place is the one that was there before.
    have haddr : Traffic.currAddr info = Traffic.currAddr { info' with currPeer := some i } := by
      have hi : i < info.addrs.length := by rwa [P2pInfo.addrs, List.length_map]
      have hget := (List.prefix_iff_getElem?.1 h'.addrs i hi).trans
        (List.getElem?_eq_getElem hi).symm
      rw [P2pInfo.addrs, P2pInfo.addrs, List.getElem?_map, List.getElem?_map] at hget
      simp only [Traffic.currAddr, hcurr, Option.bind_some]
      exact hget.symm
    obtain ⟨ret', bytes, info'', hread, hvalid, hpend⟩ := hend (setcurrpeer_valid h'.valid i)
      (by rw [hset]) (by rw [hset]) (by rw [hset, haddr, Option.or_self])
    refine ⟨ret', bytes, info'', ?_, hvalid, hpend⟩
    rw [hset] at hread
    simp [connectorAfInetP2pRead, hreceive, hret, getcurrpeer, hcurr, hset, hread]

end Read

namespace Traffic

variable {t t' : Traffic Addr}

omit [DecidableEq Addr] in
theorem valid_start (server : Option Addr) : (start server).info.Valid := by
  refine ⟨?_, fun i hi => nomatch hi⟩
  rcases server with _ | a <;> simp [start]

theorem separate_start (server : Option Addr) : (start server).Separate := by
  intro a
  rcases server with _ | b
  · rfl
  · simp [start, bytesOf, pending, PeerInfo.content]

/-- What has been returned is the first of what has arrived. -/
theorem Separate.isPrefix (h : t.Separate) (a : Addr) :
    bytesOf a t.returned <+: bytesOf a t.arrived := by
  rw [← h a, List.append_assoc]
  exact List.prefix_append _ _

/-- The peers stay valid. -/
theorem step_valid (h : t.info.Valid) {e : Event Addr} (hstep : t.step e = .done t') :
    t'.info.Valid := by
  cases e with
  | arrive a data =>
    cases hstep
    exact h
  | read mem avail buf =>
    obtain ⟨⟨ret, bytes, socket', info'⟩, hread, hdone⟩ := Outcome.bind_eq_done.1 hstep
    cases hdone
    obtain ⟨⟨ret₁, socket₁, info₁⟩, hreceive, -⟩ := Outcome.bind_eq_done.1 hread
    have h₁ : Follows t.info info₁ := by
      by_cases hok : Receiving t.info →
          Receivable mem.datagram avail t.socket {a | a ∈ t.info.addrs}
      · obtain ⟨socket₂, info₂, hreceive₂, h₂, -⟩ := receiveAll_spec h hok
        rw [hreceive] at hreceive₂
        cases hreceive₂
        exact h₂
      · exact (receiveAll_lt h hok hreceive).1
    obtain ⟨ret₂, bytes₂, info₂, hread₂, h₂, -⟩ := read_spec h buf.length hreceive h₁
    rw [hread] at hread₂
    cases hread₂
    exact h₂
  | getfirstpeer =>
    cases hstep
    exact getfirstpeer_valid h
  | getnextpeer =>
    cases hstep
    exact getnextpeer_valid h
  | setcurrpeer peer =>
    cases hstep
    exact setcurrpeer_valid h peer
  | findpeer a =>
    cases hstep
    exact findpeer_valid h a
  | readRefresh | readHold | readFin =>
    cases hstep
    exact ⟨h.nodup, h.currPeer_lt⟩

/-- A step that does not touch the buffers and the socket keeps the streams apart. -/
theorem Separate.lookup (h : t.Separate) {info : P2pInfo Addr}
    (hpeers : info.peerList = t.info.peerList) : ({ t with info := info } : Traffic Addr).Separate :=
  fun a => by simp only [hpeers]; exact h a

/-- A step that meets the condition keeps the streams apart. -/
theorem Separate.step (h : t.Separate) (hvalid : t.info.Valid) {e : Event Addr}
    (hok : StepOk t e) : ∃ t', t.step e = .done t' ∧ t'.Separate := by
  cases e with
  | arrive a data =>
    refine ⟨_, rfl, fun b => ?_⟩
    simp only
    rw [bytesOf_append, bytesOf_append, ← List.append_assoc, h b]
  | read mem avail buf =>
    have hreceivable (hstate : Receiving _) := hok hstate.1 hstate.2
    obtain ⟨socket', info₁, hreceive, h₁, hheld⟩ := receiveAll_spec hvalid hreceivable
    obtain ⟨ret, bytes, info', hread, -, hpend⟩ := read_spec hvalid buf.length hreceive h₁
    refine ⟨_, by rw [Traffic.step, hread, Outcome.done_bind], fun b => ?_⟩
    have hb := hheld b
    rw [held, held, ← hpend buf b] at hb
    simp only
    rw [bytesOf_append, ← h b, List.append_assoc, List.append_assoc, List.append_assoc, ← hb,
      List.append_assoc]
  | getfirstpeer => exact ⟨_, rfl, h.lookup rfl⟩
  | getnextpeer =>
    refine ⟨_, rfl, h.lookup ?_⟩
    unfold P2p.getnextpeer
    split_ifs <;> rfl
  | setcurrpeer peer =>
    refine ⟨_, rfl, h.lookup ?_⟩
    unfold P2p.setcurrpeer
    split_ifs <;> rfl
  | findpeer a =>
    refine ⟨_, rfl, h.lookup ?_⟩
    rcases findpeer_spec t.info a with ⟨_, _, _, _, hfind⟩ | ⟨_, _, _, hfind⟩ <;> rw [hfind]
  | readRefresh | readHold | readFin => exact ⟨_, rfl, h.lookup rfl⟩

/-- A step that does not meet the condition loses bytes. -/
theorem Separate.stepOk (h : t.Separate) (hvalid : t.info.Valid) {e : Event Addr}
    (hstep : t.step e = .done t') (h' : t'.Separate) : StepOk t e := by
  cases e with
  | read mem avail buf =>
    intro hwait hbuf
    by_contra hno
    obtain ⟨⟨ret, bytes, socket', info'⟩, hread, hdone⟩ := Outcome.bind_eq_done.1 hstep
    cases hdone
    obtain ⟨⟨ret₁, socket₁, info₁⟩, hreceive, -⟩ := Outcome.bind_eq_done.1 hread
    obtain ⟨h₁, b, hlt⟩ := receiveAll_lt hvalid (fun hok => hno (hok ⟨hwait, hbuf⟩)) hreceive
    obtain ⟨ret₂, bytes₂, info₂, hread₂, -, hpend⟩ := read_spec hvalid buf.length hreceive h₁
    rw [hread] at hread₂
    cases hread₂
    -- As many bytes are accounted for as before.
    have hb := congrArg List.length ((h' b).trans (h b).symm)
    have hsplit := congrArg List.length (hpend buf b)
    simp only [bytesOf_append, List.length_append] at hb hsplit
    rw [held, held, List.length_append, List.length_append] at hlt
    omega
  | _ => trivial

/-- The streams are kept apart in every state of a run exactly if every read of it that receives
    can receive what there is: the bytes returned while a peer is current are then the first ones
    of the datagrams that have arrived from it, and the rest of them is in the buffer of the peer
    and, behind that, in the socket. -/
theorem streams_separate_iff (server : Option Addr) (events : List (Event Addr)) :
    Throughout next (fun x => ∃ t, x = .done t ∧ t.Separate ∧
      ∀ a, bytesOf a t.returned <+: bytesOf a t.arrived) (.done (start server)) events ↔
    Steps next (fun x e => ∀ t, x = .done t → StepOk t e) (.done (start server)) events := by
  refine throughout_iff_steps (W := fun x => ∀ t, x = .done t → t.info.Valid)
    (D := fun _ _ => True) (fun x e hvalid hx _ _ t' ht' => ?_) (fun x e hvalid hx _ => ?_)
    (fun t ht => ?_) ⟨_, rfl, separate_start server, (separate_start server).isPrefix⟩
    (steps_of_forall fun _ _ => trivial)
  · obtain ⟨t, rfl, -⟩ := hx
    exact step_valid (hvalid t rfl) ht'
  · obtain ⟨t, rfl, ht, -⟩ := hx
    constructor
    · rintro ⟨t', ht', h', -⟩ t₁ ht₁
      cases ht₁
      exact ht.stepOk (hvalid t rfl) ht' h'
    · intro hok
      obtain ⟨t', ht', h'⟩ := ht.step (hvalid t rfl) (hok t rfl)
      exact ⟨t', ht', h', h'.isPrefix⟩
  · cases ht
    exact valid_start server

/-- A read with all the memory it needs. -/
def fullMem : ReadMem where
  datagram _ := { record := true, peer := true, buf := true }
  rest := true

/-- A datagram that is longer than the buffer of the read is cut off. -/
theorem not_separate_of_long {data : List UInt8} (hlong : MAX_P2P_SIZE < data.length) (a : Addr)
    (buf : List UInt8) :
    ¬ Throughout next (fun x => ∃ t, x = .done t ∧ t.Separate ∧
        ∀ a, bytesOf a t.returned <+: bytesOf a t.arrived) (.done (start none))
      [.arrive a data, .read fullMem 1 buf] := by
  intro h
  have hvalid : (start (none : Option Addr)).info.Valid := valid_start none
  obtain ⟨t, ht, hsep, -⟩ := h _ (List.prefix_append [Event.arrive a data] _)
  obtain ⟨t', ht', hsep', -⟩ := h _ (List.prefix_refl _)
  cases ht
  rcases hsep.stepOk (e := .read fullMem 1 buf) hvalid ht' hsep' nofun nofun with hnil | ⟨hlen, -⟩
  · rw [hnil] at hlong
    exact absurd hlong (Nat.not_lt_zero _)
  · exact absurd hlong (Nat.not_lt.2 hlen)

theorem streams_not_separate :
    ¬ Throughout next (fun x => ∃ t, x = .done t ∧ t.Separate ∧
        ∀ a, bytesOf a t.returned <+: bytesOf a t.arrived) (.done (start (none : Option Nat)))
      [.arrive 1 (.replicate 1451 0), .read fullMem 1 (.replicate 2000 0)] :=
  not_separate_of_long (by rw [List.length_replicate]; decide) 1 _

end Traffic

end Cube.Connector.P2p
