import Cube.Connector.PeerLookup
import Cube.Crypto.Sm3
import Cube.Lib.Apart

/-!
# Answers of clients

A process names itself to each one that connects to it, and the client answers with `ACKI`
(`connect_message.c`, `connector_process_func.c`). The answer tells the channel of its peer. A
client that connects again gets a new channel, and its answer on that has the connector deleted
that it was found by before.

* `receiveLocalClientAck_cases`: what an answer does to the identities of the peers.
* `Answers.apart`, `Answers.lookup_eq`: an answer leaves the peer with one connector, the channel.
* `answers_apart`: the same in all runs.
-/

namespace Cube.Connector.Answer

open Lib Message P2p Lookup
open Crypto.Sm3 (procUuid)

variable {Addr : Type*}

/-! ## The answer -/

/-- `struct connect_ack`, as far as it is read. -/
structure ConnectAck where
  uuid : Uuid
  clientName : Option (List UInt8)
  clientProcess : Option (List UInt8)

/-- What `message_get_record` gives for the first record: an error, `NULL` or the record. -/
inductive Got (α : Type*)
  | error
  | null
  | record (a : α)

/-- The connector at a position is told of its peer. -/
def setExternInfo (i : Nat) (info : ConnInfo) (hub : ConnHub Addr) : ConnHub Addr :=
  { hub with
    connectors := hub.connectors.modify i fun conn => { conn with externInfo := some info } }

/-- `connector_hub_del_connector`. The cursor is not put right: the next search begins with
    `hub_get_first_connector`. -/
def delConnector (j : Nat) (hub : ConnHub Addr) : ConnHub Addr :=
  { hub with connectors := hub.connectors.eraseIdx j }

/-- `connector_hub_add_connector`. -/
def addConnector (conn : Conn Addr) (hub : ConnHub Addr) : ConnHub Addr :=
  { hub with connectors := hub.connectors ++ [conn] }

/-- What a new `struct connect_proc_info` says of the peer. -/
def emptyInfo : ConnInfo := ⟨.replicate _ 0, none⟩

/-- The channel of `connector_af_inet_accept`. -/
def newChannel : Conn Addr := ⟨.channel, none, ⟨.zero, [], none⟩, fun _ => none⟩

section Functions

variable (compProcUuid : Uuid → Option (List UInt8) → Uuid)

/-- The part of `receive_local_client_ack` that deletes the connector that the peer was found by
    and tells the channel of the peer, with the copy of the name of its process: the connector
    that is deleted and disconnected, if there is one, and the hub. -/
def tellChannel (clientAck : ConnectAck) (procName : Option (List UInt8)) (i : Nat)
    (hub : ConnHub Addr) : Option Nat × ConnHub Addr :=
  let connUuid := compProcUuid clientAck.uuid clientAck.clientProcess
  let (tempConn, hub) := hubGetConnectorBypeeruuid compProcUuid connUuid hub
  -- The channel is written to before the deletion, which may move it; it may also be the one
  -- that is deleted.
  let hub := setExternInfo i ⟨clientAck.uuid, procName⟩ hub
  (tempConn, match tempConn with
    | none => hub
    | some j => delConnector j hub)

/-- `receive_local_client_ack` for the channel at `i`, where `mem` says which of the allocations
    find memory: the value returned, the connector that is deleted, and the hub. The name of the
    client and that of its process are read, the second one for the record of the peer. -/
def receiveLocalClientAck (mem : Nat → Bool) (record : Got ConnectAck) (i : Nat)
    (hub : ConnHub Addr) : Outcome (Int × Option Nat × ConnHub Addr) :=
  if ¬ mem 0 ∨ ¬ mem 1 then .done (-ENOMEM, none, hub)
  else
    let hub := setExternInfo i emptyInfo hub
    match record with
    | .error => .done (-EINVAL, none, hub)
    | .null => .fault
    | .record clientAck =>
      if clientAck.clientName.isNone then .fault
      else
        let procName := if mem 2 then clientAck.clientProcess else none
        let (tempConn, hub) := tellChannel compProcUuid clientAck procName i hub
        if ¬ mem 3 then .done (-ENOMEM, tempConn, hub)
        else if clientAck.clientProcess.isNone then .fault
        else .done (0, tempConn, hub)

/-- What happens to a hub in `proc_conn_start`, but for the handshakes of its own clients and of
    P2P peers: a connection is accepted, `ACKI` is read from a connector, or a connector is looked
    up for a message to be sent. -/
inductive Event
  | accept
  | ack (mem : Nat → Bool) (i : Nat) (record : Got ConnectAck)
  | search (uuid : Uuid)

/-- A step of the process. Only a channel takes an answer; from a client it is passed on. -/
def step (hub : ConnHub Addr) : Event → Outcome (ConnHub Addr)
  | .accept => .done (addConnector newChannel hub)
  | .ack mem i record =>
    match hub.connectors[i]? with
    | none => .done hub
    | some conn =>
      if conn.connType = .channel then
        (fun r => r.2.2) <$> receiveLocalClientAck compProcUuid mem record i hub
      else .done hub
  | .search uuid => .done (hubGetConnectorBypeeruuid compProcUuid uuid hub).2

/-- The name of the process is copied, if there is one to be copied. -/
def Event.Copies : Event → Prop
  | .ack mem _ (.record _) => mem 2
  | _ => True

/-! ## The identities of the peers -/

/-- The identity that a channel has before it is told of its peer. -/
def emptyUuid : Uuid := compProcUuid emptyInfo.uuid emptyInfo.name

/-- The identities that agree with one, but for those that agree with that of no peer. -/
def agreeing (u : Uuid) : Set Uuid :=
  {v | AgreeToZero u v ∧ ¬ AgreeToZero (emptyUuid compProcUuid) v}

/-- The identities of peers that a connector is found by. -/
def keys (conn : Conn Addr) : Set Uuid :=
  {u | conn.Agrees compProcUuid u ∧ ¬ AgreeToZero (emptyUuid compProcUuid) u}

/-- The identities that the connectors of a hub are found by, in their order. -/
def hubKeys (hub : ConnHub Addr) : List (Set Uuid) := hub.connectors.map (keys compProcUuid)

/-- No two connectors are found by one identity: each peer has one connector at most. -/
def Apart (hub : ConnHub Addr) : Prop := (hubKeys compProcUuid hub).Pairwise Disjoint

end Functions

section Keys

variable {compProcUuid : Uuid → Option (List UInt8) → Uuid} {hub hub' : ConnHub Addr}
  {conn : Conn Addr} {i j : Nat} {u v : Uuid} {K : Set Uuid}

theorem mem_agreeing (hu : ¬ AgreeToZero (emptyUuid compProcUuid) u) :
    u ∈ agreeing compProcUuid u := ⟨rfl, hu⟩

theorem agreeing_of_agree (hu : AgreeToZero (emptyUuid compProcUuid) u) :
    agreeing compProcUuid u = ∅ :=
  Set.eq_empty_of_forall_notMem fun _ hv => hv.2 (Eq.trans hu hv.1)

/-- What a connector is not found by does not meet what it is found by. -/
theorem disjoint_agreeing (h : u ∉ keys compProcUuid conn) :
    Disjoint (agreeing compProcUuid u) (keys compProcUuid conn) := by
  refine Set.disjoint_left.2 fun v hv hkey => h ?_
  obtain ⟨⟨a, hpeer, ha⟩, -⟩ := hkey
  exact ⟨⟨a, hpeer, Eq.trans ha (AgreeToZero.symm hv.1)⟩, fun hu => hv.2 (Eq.trans hu hv.1)⟩

/-- A channel that was told of its peer is found by what agrees with the identity of that. -/
theorem keys_externInfo (htype : conn.connType = .channel) (info : ConnInfo) :
    keys compProcUuid { conn with externInfo := some info } =
      agreeing compProcUuid (compProcUuid info.uuid info.name) := by
  ext v
  simp only [keys, Conn.Agrees, Conn.PeerIs, htype, Set.mem_ofPred_eq, Option.some.injEq, agreeing]
  refine and_congr_left fun _ => ⟨?_, fun h => ⟨_, ⟨info, rfl, rfl⟩, h⟩⟩
  rintro ⟨_, ⟨_, rfl, rfl⟩, h⟩
  exact h

theorem getElem?_hubKeys :
    (hubKeys compProcUuid hub)[i]? = hub.connectors[i]?.map (keys compProcUuid) :=
  List.getElem?_map ..

theorem length_hubKeys : (hubKeys compProcUuid hub).length = hub.connectors.length :=
  List.length_map ..

theorem exists_conn_of_keys (h : (hubKeys compProcUuid hub)[i]? = some K) :
    ∃ conn, hub.connectors[i]? = some conn ∧ keys compProcUuid conn = K :=
  Option.map_eq_some_iff.1 (getElem?_hubKeys.symm.trans h)

theorem getElem?_setExternInfo (hconn : hub.connectors[i]? = some conn) (info : ConnInfo) :
    (setExternInfo i info hub).connectors[i]? = some { conn with externInfo := some info } := by
  rw [setExternInfo, List.getElem?_modify_eq, hconn]
  rfl

variable (compProcUuid) in
/-- The identities when a channel is told of its peer. -/
theorem hubKeys_setExternInfo (hconn : hub.connectors[i]? = some conn)
    (htype : conn.connType = .channel) (info : ConnInfo) :
    hubKeys compProcUuid (setExternInfo i info hub) = (hubKeys compProcUuid hub).set i
      (agreeing compProcUuid (compProcUuid info.uuid info.name)) := by
  rw [← keys_externInfo htype]
  refine List.ext_getElem? fun k => ?_
  rw [hubKeys, setExternInfo, List.getElem?_map, List.getElem?_modify, List.getElem?_set,
    getElem?_hubKeys, length_hubKeys]
  obtain ⟨hlt, rfl⟩ := List.getElem?_eq_some_iff.1 hconn
  rcases eq_or_ne i k with rfl | hne
  · simp [hlt]
  · simp [hne]

theorem hubKeys_delConnector (j : Nat) (hub : ConnHub Addr) :
    hubKeys compProcUuid (delConnector j hub) = (hubKeys compProcUuid hub).eraseIdx j :=
  List.eraseIdx_map .. |>.symm

/-- A new channel is found by none. -/
theorem keys_newChannel : keys compProcUuid (newChannel : Conn Addr) = ∅ := by
  refine Set.eq_empty_of_forall_notMem fun u h => ?_
  obtain ⟨⟨_, ⟨_, hinfo, -⟩, -⟩, -⟩ := h
  cases hinfo

/-! ## The search for a peer -/

variable (compProcUuid) in
/-- A search moves no more than cursors. -/
theorem lookup_map {β : Type*} (f : Conn Addr → β) (hf : ∀ conn, f conn.reset = f conn) (u : Uuid)
    (hub : ConnHub Addr) : (hubGetConnectorBypeeruuid compProcUuid u hub).2.connectors.map f =
      hub.connectors.map f := by
  have hreset : (hubGetConnectorBypeeruuid compProcUuid u hub).2.connectors.map Conn.reset =
      hub.connectors.map Conn.reset := by
    rcases Cursor.scan_at (walks_connectors compProcUuid u hub) with ⟨hscan, -⟩ | ⟨i, -, hscan⟩
    · rw [hubGetConnectorBypeeruuid, hscan]
      rfl
    · exact hscan
  have hcomp : f ∘ Conn.reset = f := funext hf
  have hmap := congrArg (List.map f) hreset
  rwa [List.map_map, List.map_map, hcomp] at hmap

theorem hubKeys_lookup (u : Uuid) (hub : ConnHub Addr) :
    hubKeys compProcUuid (hubGetConnectorBypeeruuid compProcUuid u hub).2 =
      hubKeys compProcUuid hub := lookup_map compProcUuid (keys compProcUuid) (fun _ => rfl) u hub

variable (compProcUuid) in
theorem lookup_connType (u : Uuid) (hconn : hub.connectors[i]? = some conn) :
    ∃ conn', (hubGetConnectorBypeeruuid compProcUuid u hub).2.connectors[i]? = some conn' ∧
      conn'.connType = conn.connType := by
  have hsame := congrArg (·[i]?) (lookup_map compProcUuid Conn.connType (fun _ => rfl) u hub)
  simp only [List.getElem?_map, hconn, Option.map_some] at hsame
  exact Option.map_eq_some_iff.1 hsame

theorem hits_iff_mem (hu : ¬ AgreeToZero (emptyUuid compProcUuid) u) :
    hits compProcUuid u hub i = true ↔ ∃ K, (hubKeys compProcUuid hub)[i]? = some K ∧ u ∈ K := by
  rw [getElem?_hubKeys]
  constructor
  · intro h
    obtain ⟨conn, hconn, hlook⟩ := Option.any_eq_true .. |>.1 h
    have hagrees : conn.Agrees compProcUuid u := (look_iff compProcUuid conn u).1 hlook
    exact ⟨keys compProcUuid conn, congrArg (Option.map _) hconn, hagrees, hu⟩
  · rintro ⟨K, hK, huK⟩
    obtain ⟨conn, hconn, rfl⟩ := Option.map_eq_some_iff.1 hK
    exact (hits_iff compProcUuid hconn).2 huK.1

theorem lookup_eq_some (hu : ¬ AgreeToZero (emptyUuid compProcUuid) u)
    (h : (hubGetConnectorBypeeruuid compProcUuid u hub).1 = some i) :
    ∃ K, (hubKeys compProcUuid hub)[i]? = some K ∧ u ∈ K := by
  rw [lookup_eq] at h
  exact (hits_iff_mem hu).1 (List.find?_some h)

theorem lookup_eq_none (hu : ¬ AgreeToZero (emptyUuid compProcUuid) u)
    (h : (hubGetConnectorBypeeruuid compProcUuid u hub).1 = none)
    (hK : (hubKeys compProcUuid hub)[i]? = some K) : u ∉ K := by
  rw [lookup_eq, List.find?_range_eq_none] at h
  have hlt : i < hub.connectors.length := length_hubKeys ▸ (List.getElem?_eq_some_iff.1 hK).1
  intro huK
  have hmiss := h i hlt
  rw [(hits_iff_mem hu).2 ⟨K, hK, huK⟩] at hmiss
  exact absurd hmiss (by decide)

/-- In a hub where the peers have one connector at most, the search ends at that. -/
theorem Apart.lookup_eq (h : Apart compProcUuid hub)
    (hu : ¬ AgreeToZero (emptyUuid compProcUuid) u) (hK : (hubKeys compProcUuid hub)[i]? = some K)
    (huK : u ∈ K) : (hubGetConnectorBypeeruuid compProcUuid u hub).1 = some i := by
  cases hfound : (hubGetConnectorBypeeruuid compProcUuid u hub).1 with
  | none => exact absurd huK (lookup_eq_none hu hfound hK)
  | some j =>
    obtain ⟨L, hL, hmem⟩ := lookup_eq_some hu hfound
    rw [eq_of_mem_of_pairwise h hL hK hmem huK]

/-! ## What an answer comes to -/

/-- The sets when one of them is replaced, and the one that was found before is deleted. -/
def takeOver (i : Nat) (A : Set Uuid) (l : List (Set Uuid)) : Option Nat → List (Set Uuid)
  | none => l.set i A
  | some j => (l.set i A).eraseIdx j

/-- The new set has to be apart from the sets that stay. -/
theorem pairwise_takeOver {l : List (Set Uuid)} (hl : l.Pairwise Disjoint) {A : Set Uuid}
    (hi : i < l.length) (found : Option Nat)
    (hothers : ∀ k K, k ≠ i → l[k]? = some K → found ≠ some k → found ≠ some i → Disjoint A K) :
    (takeOver i A l found).Pairwise Disjoint := by
  have hsymm (A B : Set Uuid) (h : Disjoint A B) : Disjoint B A := h.symm
  cases found with
  | none =>
    exact (pairwise_set_iff hsymm hl hi).2 fun k K hk hK => hothers k K hk hK nofun nofun
  | some j =>
    rcases eq_or_ne j i with rfl | hne
    · rw [takeOver, List.eraseIdx_set_eq]
      exact hl.sublist (List.eraseIdx_sublist ..)
    · -- The one that is deleted may be taken for empty.
      have hempty : (l.set j ∅).Pairwise Disjoint := by
        rcases Nat.lt_or_ge j l.length with hj | hj
        · exact (pairwise_set_iff hsymm hl hj).2 fun _ _ _ _ => Set.empty_disjoint _
        · rwa [List.set_eq_of_length_le hj]
      have hset : ((l.set j ∅).set i A).Pairwise Disjoint := by
        refine (pairwise_set_iff hsymm hempty (by rwa [List.length_set])).2 fun k K hk hK => ?_
        rw [List.getElem?_set] at hK
        split_ifs at hK with hjk hlt
        · rw [← Option.some.inj hK]
          exact Set.disjoint_empty _
        · exact hothers k K hk hK (fun h => hjk (Option.some.inj h)) (fun h => hne (Option.some.inj h))
      rw [List.set_comm _ _ hne] at hset
      have hsub := hset.sublist (List.eraseIdx_sublist _ j)
      rwa [List.eraseIdx_set_eq] at hsub

/-- The channel is found by the identity of the peer, and the first connector that was found by
    it is deleted. -/
structure Answers (compProcUuid : Uuid → Option (List UInt8) → Uuid) (hub : ConnHub Addr) (i : Nat)
    (u : Uuid) (disconnected : Option Nat) (hub' : ConnHub Addr) : Prop where
  found : disconnected =
    (hubGetConnectorBypeeruuid compProcUuid u (setExternInfo i emptyInfo hub)).1
  keys_eq : hubKeys compProcUuid hub' =
    takeOver i (agreeing compProcUuid u) (hubKeys compProcUuid hub) disconnected

variable {mem : Nat → Bool} {clientAck : ConnectAck} {disconnected : Option Nat}

variable (compProcUuid) in
theorem answers_tellChannel (hconn : hub.connectors[i]? = some conn)
    (htype : conn.connType = .channel) (clientAck : ConnectAck) :
    Answers compProcUuid hub i (compProcUuid clientAck.uuid clientAck.clientProcess)
      (tellChannel compProcUuid clientAck clientAck.clientProcess i (setExternInfo i emptyInfo hub)).1
      (tellChannel compProcUuid clientAck clientAck.clientProcess i
        (setExternInfo i emptyInfo hub)).2 := by
  refine ⟨rfl, ?_⟩
  obtain ⟨conn', hconn', htype'⟩ := lookup_connType compProcUuid
    (compProcUuid clientAck.uuid clientAck.clientProcess) (getElem?_setExternInfo hconn emptyInfo)
  have hkeys := hubKeys_setExternInfo compProcUuid hconn' (htype'.trans htype)
    ⟨clientAck.uuid, clientAck.clientProcess⟩
  rw [hubKeys_lookup, hubKeys_setExternInfo compProcUuid hconn htype, List.set_set] at hkeys
  unfold tellChannel
  dsimp only
  split
  next hfound => rw [hfound, hkeys, takeOver]
  next j hfound => rw [hfound, hubKeys_delConnector, hkeys, takeOver]

/-- An answer with a record that has its names is taken where there is memory. -/
theorem exists_answers (hconn : hub.connectors[i]? = some conn) (htype : conn.connType = .channel)
    (h0 : mem 0) (h1 : mem 1) (h2 : mem 2) (hname : clientAck.clientName.isSome)
    (hproc : clientAck.clientProcess.isSome) :
    ∃ ret disconnected hub',
      receiveLocalClientAck compProcUuid mem (.record clientAck) i hub =
        .done (ret, disconnected, hub') ∧
      Answers compProcUuid hub i (compProcUuid clientAck.uuid clientAck.clientProcess)
        disconnected hub' := by
  have hmem : ¬ (¬ mem 0 ∨ ¬ mem 1) := by simp [h0, h1]
  have hname' : ¬ clientAck.clientName.isNone := by simpa using Option.isSome_iff_ne_none.1 hname
  have hproc' : ¬ clientAck.clientProcess.isNone := by simpa using Option.isSome_iff_ne_none.1 hproc
  refine ⟨if mem 3 then 0 else -ENOMEM, _, _, ?_,
    answers_tellChannel compProcUuid hconn htype clientAck⟩
  simp only [receiveLocalClientAck, if_neg hmem, if_neg hname', if_neg hproc', if_pos h2]
  by_cases h3 : mem 3
  · simp only [h3, not_true, if_false, if_true]
  · simp only [h3, not_false_eq_true, if_true, Bool.false_eq_true, if_false]

/-- What an answer does: nothing without memory, the channel forgets its peer without a record, or
    the answer is taken. -/
theorem receiveLocalClientAck_cases {record : Got ConnectAck} {ret : Int}
    (hconn : hub.connectors[i]? = some conn) (htype : conn.connType = .channel)
    (hcopies : (Event.ack mem i record).Copies)
    (h : receiveLocalClientAck compProcUuid mem record i hub = .done (ret, disconnected, hub')) :
    hub' = hub ∨ hub' = setExternInfo i emptyInfo hub ∨
      ∃ u, Answers compProcUuid hub i u disconnected hub' := by
  by_cases hmem : ¬ mem 0 ∨ ¬ mem 1
  · rw [receiveLocalClientAck, if_pos hmem] at h
    cases h
    exact .inl rfl
  refine .inr ?_
  cases record with
  | error =>
    rw [receiveLocalClientAck, if_neg hmem] at h
    cases h
    exact .inl rfl
  | null =>
    rw [receiveLocalClientAck, if_neg hmem] at h
    cases h
  | record clientAck =>
    have h2 : mem 2 = true := hcopies
    have hanswers := answers_tellChannel compProcUuid hconn htype clientAck
    simp only [receiveLocalClientAck, if_neg hmem, if_pos h2] at h
    split_ifs at h <;> cases h <;> exact .inr ⟨_, hanswers⟩

/-- The connector that is deleted is not the channel itself. -/
theorem Answers.found_ne (h : Answers compProcUuid hub i u disconnected hub')
    (hu : ¬ AgreeToZero (emptyUuid compProcUuid) u) (hconn : hub.connectors[i]? = some conn)
    (htype : conn.connType = .channel) (hj : disconnected = some j) :
    j ≠ i ∧ ∃ K, (hubKeys compProcUuid hub)[j]? = some K ∧ u ∈ K := by
  obtain ⟨K, hK, huK⟩ := lookup_eq_some hu (h.found.symm.trans hj)
  rw [hubKeys_setExternInfo compProcUuid hconn htype, List.getElem?_set] at hK
  split_ifs at hK with hij hlt
  · -- The channel has been told of no peer yet.
    cases hK
    exact absurd huK.1 hu
  · exact ⟨Ne.symm hij, K, hK, huK⟩

/-- A channel that forgets its peer is found by none. -/
theorem Apart.forget (hapart : Apart compProcUuid hub) (hconn : hub.connectors[i]? = some conn)
    (htype : conn.connType = .channel) : Apart compProcUuid (setExternInfo i emptyInfo hub) := by
  have hi : i < hub.connectors.length := (List.getElem?_eq_some_iff.1 hconn).1
  have hnone : agreeing compProcUuid (compProcUuid emptyInfo.uuid emptyInfo.name) = ∅ :=
    agreeing_of_agree rfl
  rw [Apart, hubKeys_setExternInfo compProcUuid hconn htype, hnone]
  exact (pairwise_set_iff (fun _ _ h => h.symm) hapart (by rwa [length_hubKeys])).2
    fun _ _ _ _ => Set.empty_disjoint _

/-- The connector that is deleted is the one that the peer was found by, if it is not the channel. -/
theorem Answers.disconnected_iff (h : Answers compProcUuid hub i u disconnected hub')
    (hapart : Apart compProcUuid hub) (hu : ¬ AgreeToZero (emptyUuid compProcUuid) u)
    (hconn : hub.connectors[i]? = some conn) (htype : conn.connType = .channel) (j : Nat) :
    disconnected = some j ↔ j ≠ i ∧ (hubGetConnectorBypeeruuid compProcUuid u hub).1 = some j := by
  constructor
  · intro hj
    obtain ⟨hne, K, hK, huK⟩ := h.found_ne hu hconn htype hj
    exact ⟨hne, hapart.lookup_eq hu hK huK⟩
  · rintro ⟨hne, hj⟩
    obtain ⟨K, hK, huK⟩ := lookup_eq_some hu hj
    rw [h.found]
    refine (hapart.forget hconn htype).lookup_eq hu ?_ huK
    rw [hubKeys_setExternInfo compProcUuid hconn htype, List.getElem?_set_ne hne.symm, hK]

/-- An answer leaves each peer with one connector at most. -/
theorem Answers.apart (h : Answers compProcUuid hub i u disconnected hub')
    (hapart : Apart compProcUuid hub) (hconn : hub.connectors[i]? = some conn)
    (htype : conn.connType = .channel) : Apart compProcUuid hub' := by
  have hi : i < hub.connectors.length := (List.getElem?_eq_some_iff.1 hconn).1
  rw [Apart, h.keys_eq]
  refine pairwise_takeOver hapart (by rwa [length_hubKeys]) disconnected
    fun k K hk hK hother _ => ?_
  by_cases hu : AgreeToZero (emptyUuid compProcUuid) u
  · rw [agreeing_of_agree hu]
    exact Set.empty_disjoint K
  have huK : u ∉ K := by
    cases hfound : disconnected with
    | none =>
      refine lookup_eq_none hu (h.found.symm.trans hfound) (i := k) ?_
      rw [hubKeys_setExternInfo compProcUuid hconn htype, List.getElem?_set_ne (Ne.symm hk), hK]
    | some j =>
      obtain ⟨-, L, hL, huL⟩ := h.found_ne hu hconn htype hfound
      exact fun huK => hother (hfound.trans (congrArg some
        (eq_of_mem_of_pairwise hapart hL hK huL huK)))
  obtain ⟨conn', -, rfl⟩ := exists_conn_of_keys hK
  exact disjoint_agreeing huK

/-- Where a connector is when another one was deleted. -/
def positionAfter (i : Nat) : Option Nat → Nat
  | none => i
  | some j => if j < i then i - 1 else i

theorem getElem?_takeOver {A : Set Uuid} {l : List (Set Uuid)} {d : Option Nat} {k : Nat}
    (hd : d ≠ some k) : (takeOver i A l d)[positionAfter k d]? = (l.set i A)[k]? := by
  cases d with
  | none => rfl
  | some j =>
    have hne : j ≠ k := fun h => hd (congrArg some h)
    rw [positionAfter, takeOver]
    split_ifs with hlt
    · rw [List.getElem?_eraseIdx_of_ge (by omega), Nat.sub_add_cancel (by omega)]
    · rw [List.getElem?_eraseIdx_of_lt (by omega)]

/-- The peer that has answered is found by the channel that it answered on. -/
theorem Answers.lookup_eq (h : Answers compProcUuid hub i u disconnected hub')
    (hapart : Apart compProcUuid hub) (hu : ¬ AgreeToZero (emptyUuid compProcUuid) u)
    (hconn : hub.connectors[i]? = some conn) (htype : conn.connType = .channel) :
    (hubGetConnectorBypeeruuid compProcUuid u hub').1 = some (positionAfter i disconnected) := by
  have hi : i < hub.connectors.length := (List.getElem?_eq_some_iff.1 hconn).1
  refine (h.apart hapart hconn htype).lookup_eq hu (K := agreeing compProcUuid u) ?_
    (mem_agreeing hu)
  rw [h.keys_eq, getElem?_takeOver fun hj => (h.found_ne hu hconn htype hj).1 rfl]
  exact List.getElem?_set_self (by rwa [length_hubKeys])

/-- Another peer is found as before, if its connector is neither the channel nor the one that is
    deleted. -/
theorem Answers.lookup_other (h : Answers compProcUuid hub i u disconnected hub')
    (hapart : Apart compProcUuid hub) (hconn : hub.connectors[i]? = some conn)
    (htype : conn.connType = .channel) (hv : ¬ AgreeToZero (emptyUuid compProcUuid) v) {k : Nat}
    (hk : (hubGetConnectorBypeeruuid compProcUuid v hub).1 = some k) (hki : k ≠ i)
    (hd : disconnected ≠ some k) :
    (hubGetConnectorBypeeruuid compProcUuid v hub').1 = some (positionAfter k disconnected) := by
  obtain ⟨K, hK, hvK⟩ := lookup_eq_some hv hk
  refine (h.apart hapart hconn htype).lookup_eq hv ?_ hvK
  rw [h.keys_eq, getElem?_takeOver hd, List.getElem?_set_ne (Ne.symm hki), hK]

/-! ## Runs -/

/-- A step leaves each peer with one connector at most. -/
theorem step_apart {e : Event} (hapart : Apart compProcUuid hub) (hcopies : e.Copies)
    (h : step compProcUuid hub e = .done hub') : Apart compProcUuid hub' := by
  cases e with
  | accept =>
    cases h
    rw [Apart, hubKeys, addConnector, List.map_append, List.map_singleton, keys_newChannel,
      List.pairwise_append]
    exact ⟨hapart, List.pairwise_singleton .., fun _ _ _ hmem => by
      rw [List.mem_singleton.1 hmem]
      exact Set.disjoint_empty _⟩
  | search uuid =>
    cases h
    rwa [Apart, hubKeys_lookup]
  | ack mem i record =>
    cases hconn : hub.connectors[i]? with
    | none =>
      rw [step, hconn] at h
      cases h
      exact hapart
    | some conn =>
      rw [step, hconn] at h
      dsimp only at h
      split_ifs at h with htype
      · obtain ⟨⟨ret, disconnected, hub''⟩, hack, rfl⟩ := Outcome.map_eq_done.1 h
        rcases receiveLocalClientAck_cases hconn htype hcopies hack with rfl | rfl | ⟨u, hanswers⟩
        · exact hapart
        · exact hapart.forget hconn htype
        · exact hanswers.apart hapart hconn htype
      · cases h
        exact hapart

/-- From a hub where each peer has one connector at most, whatever is accepted, answered and
    looked up, in any order: each peer has one connector at most. An answer that has its names is
    then taken without a fault, the connector is deleted that the client was found by, unless it is
    the channel itself, the client is found by the channel that it answered on, and the others are
    found as before, but for those of the channel and of the connector that is deleted. -/
theorem answers_apart {start : ConnHub Addr} {trace : List Event} (hstart : Apart compProcUuid start)
    (hcopies : ∀ e ∈ trace, e.Copies) (h : trace.foldlM (step compProcUuid) start = .done hub) :
    Apart compProcUuid hub ∧
      ∀ (i : Nat) (conn : Conn Addr) (mem : Nat → Bool) (clientAck : ConnectAck),
        hub.connectors[i]? = some conn → conn.connType = .channel → mem 0 → mem 1 → mem 2 →
        clientAck.clientName.isSome → clientAck.clientProcess.isSome →
        let u := compProcUuid clientAck.uuid clientAck.clientProcess
        ∃ ret disconnected hub',
          receiveLocalClientAck compProcUuid mem (.record clientAck) i hub =
            .done (ret, disconnected, hub') ∧
          Apart compProcUuid hub' ∧
          Answers compProcUuid hub i u disconnected hub' ∧
          (¬ AgreeToZero (emptyUuid compProcUuid) u → ∀ j, disconnected = some j ↔
            j ≠ i ∧ (hubGetConnectorBypeeruuid compProcUuid u hub).1 = some j) ∧
          (¬ AgreeToZero (emptyUuid compProcUuid) u →
            (hubGetConnectorBypeeruuid compProcUuid u hub').1 =
              some (positionAfter i disconnected)) ∧
          ∀ v k, ¬ AgreeToZero (emptyUuid compProcUuid) v →
            (hubGetConnectorBypeeruuid compProcUuid v hub).1 = some k → k ≠ i →
            disconnected ≠ some k →
            (hubGetConnectorBypeeruuid compProcUuid v hub').1 =
              some (positionAfter k disconnected) := by
  have hapart : Apart compProcUuid hub := by
    induction trace generalizing start with
    | nil =>
      cases h
      exact hstart
    | cons e trace ih =>
      rw [List.foldlM_cons] at h
      obtain ⟨next, hstep, hrest⟩ := Outcome.bind_eq_done.1 h
      rw [List.forall_mem_cons] at hcopies
      exact ih (step_apart hstart hcopies.1 hstep) hcopies.2 hrest
  refine ⟨hapart, fun i conn mem clientAck hconn htype h0 h1 h2 hname hproc => ?_⟩
  obtain ⟨ret, disconnected, hub', hdone, hanswers⟩ :=
    exists_answers hconn htype h0 h1 h2 hname hproc
  exact ⟨ret, disconnected, hub', hdone, hanswers.apart hapart hconn htype, hanswers,
    fun hu j => hanswers.disconnected_iff hapart hu hconn htype j,
    fun hu => hanswers.lookup_eq hapart hu hconn htype,
    fun v k hv hk hki hd => hanswers.lookup_other hapart hconn htype hv hk hki hd⟩

/-- A client that answers on a second channel is found by that, and the first one is deleted. -/
theorem answers_apart_second :
    let clientAck : ConnectAck := ⟨.replicate _ 1, some [99], some [112]⟩
    let first : Conn Unit := { newChannel with externInfo := some ⟨.replicate _ 1, some [112]⟩ }
    ∃ ret hub', receiveLocalClientAck procUuid (fun _ => true) (.record clientAck) 1
        ⟨[first, newChannel], none⟩ = .done (ret, some 0, hub') ∧
      (hubGetConnectorBypeeruuid procUuid (procUuid clientAck.uuid clientAck.clientProcess) hub').1 =
        some 0 := by
  intro clientAck first
  have hstart : Apart procUuid ⟨[first], none⟩ := List.pairwise_singleton ..
  have hrun : [Event.accept].foldlM (step procUuid) ⟨[first], none⟩ =
      .done ⟨[first, newChannel], none⟩ := rfl
  have hcopies : ∀ e ∈ [Event.accept], e.Copies := List.forall_mem_singleton.2 trivial
  obtain ⟨ret, disconnected, hub', hdone, -, -, hgone, hself, -⟩ := (answers_apart hstart hcopies
    hrun).2 1 newChannel (fun _ => true) clientAck rfl rfl rfl rfl rfl rfl rfl
  have hu : ¬ AgreeToZero (emptyUuid procUuid)
      (procUuid clientAck.uuid clientAck.clientProcess) := by decide +kernel
  obtain rfl := (hgone hu 0).2 ⟨by decide, by decide +kernel⟩
  exact ⟨ret, hub', hdone, hself hu⟩

end Keys

end Cube.Connector.Answer
