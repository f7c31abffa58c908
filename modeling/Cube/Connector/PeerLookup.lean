import Cube.Connector.P2p
import Cube.Dispatch.MatchRule
import Cube.Lib.Cursor
import Cube.Message.SetUuid

/-!
# The connector of a peer

The connector to a peer is looked up by the identity of the peer (`connect_message.c`), and
a message is for a process if its receiver is the identity of the process
(`router_process_func.c`). Identities are digests, that is 32 bytes, but they are compared
as strings: up to a zero byte, and beyond the 32 bytes if there is none.

* `findPeer_eq`, `lookup_eq`: the searches find the first record that agrees.
* `findpeerbyuuid_spec`: a search that compares all the bytes.
* `peerLookup_iff`: when the connector that is found is one to the peer, and when a message
  is taken for one to the process.
-/

namespace Cube.Connector.Lookup

open Lib Message P2p
open Dispatch (strncmp strncmp_fields)
open Text (memcmp memcmp_eq_zero)

/-- `enum connector_type`. -/
inductive ConnType
  | invalid
  | p2pBind
  | p2pRand
  | client
  | channel
  | server
  deriving DecidableEq, Repr

/-- What `conn_extern_info` of a connector says of its peer: `uuid` and `server_name` of a
    `struct connect_syn`, or `uuid` and `proc_name` of a `struct connect_proc_info`. -/
structure ConnInfo where
  uuid : Uuid
  name : Option (List UInt8)

/-- A connector, with what the lookups read of it. What `extern_info` of a peer says is
    given by the position of the peer in the list. -/
structure Conn (Addr : Type*) where
  connType : ConnType
  externInfo : Option ConnInfo
  varInfo : P2pInfo Addr
  sysPeer : Nat → Option Uuid

/-- The list of the connectors of a hub and its cursor `curr_conn`, which is on a record or
    on the head of the list. -/
structure ConnHub (Addr : Type*) where
  connectors : List (Conn Addr)
  currConn : Option Nat

variable {Addr : Type*}

/-! ## The searches -/

/-- The `next` of a record of the list, or of its head. -/
def ConnHub.next (hub : ConnHub Addr) : Option Nat → Option Nat
  | none => if 0 < hub.connectors.length then some 0 else none
  | some i => if i + 1 < hub.connectors.length then some (i + 1) else none

/-- `hub_get_first_connector`. The head of the list has no connector. -/
def hubGetFirstConnector (hub : ConnHub Addr) : Option Nat × ConnHub Addr :=
  let curr := hub.next none
  (curr, { hub with currConn := curr })

/-- `hub_get_next_connector`. -/
def hubGetNextConnector (hub : ConnHub Addr) : Option Nat × ConnHub Addr :=
  match hub.next hub.currConn with
  | none => (none, hub)
  | some curr => (some curr, { hub with currConn := some curr })

/-- The loop over the peers of a connector, up to one whose `extern_info` is hit. -/
def findPeer (hit : Uuid → Bool) (sysPeer : Nat → Option Uuid) (info : P2pInfo Addr) :
    Option Nat × P2pInfo Addr :=
  Cursor.scan getfirstpeer getnextpeer (fun i info => ((sysPeer i).any hit, info))
    info.peerList.length info

/-- `af_inet_p2p_findpeerbyuuid`. -/
def findpeerbyuuid (conn : Conn Addr) (uuid : Uuid) : Option Nat × P2pInfo Addr :=
  findPeer (fun sys => memcmp sys.toList uuid.toList = 0) conn.sysPeer conn.varInfo

section Hub

variable (compProcUuid : Uuid → Option (List UInt8) → Uuid)

/-- Whether a connector ends the loop of `hub_get_connector_bypeeruuid`, and the connector,
    of which the cursor may have moved. -/
def Conn.look (uuid : Uuid) (conn : Conn Addr) : Bool × Conn Addr :=
  match conn.connType with
  | .client | .channel =>
    (conn.externInfo.any fun info =>
      strncmp (compProcUuid info.uuid info.name).toList uuid.toList DIGEST_SIZE = 0, conn)
  | .p2pBind | .p2pRand =>
    let (peer, varInfo) := findPeer
      (fun sys => strncmp uuid.toList sys.toList DIGEST_SIZE = 0) conn.sysPeer conn.varInfo
    (peer.isSome, { conn with varInfo := varInfo })
  | .invalid | .server => (false, conn)

/-- `hub_get_connector_bypeeruuid`. -/
def hubGetConnectorBypeeruuid (uuid : Uuid) (hub : ConnHub Addr) : Option Nat × ConnHub Addr :=
  Cursor.scan hubGetFirstConnector hubGetNextConnector
    (fun i hub =>
      match hub.connectors[i]? with
      | none => (false, hub)
      | some conn =>
        let (hit, conn) := conn.look compProcUuid uuid
        (hit, { hub with connectors := hub.connectors.set i conn }))
    hub.connectors.length hub

/-- The connector is one to a peer with the identity. -/
def Conn.PeerIs (conn : Conn Addr) (uuid : Uuid) : Prop :=
  match conn.connType with
  | .client | .channel =>
    ∃ info, conn.externInfo = some info ∧ compProcUuid info.uuid info.name = uuid
  | .p2pBind | .p2pRand =>
    ∃ i < conn.varInfo.peerList.length, conn.sysPeer i = some uuid
  | .invalid | .server => False

/-- The connector returned is one to the peer, if there is one. -/
def FindsPeer (uuid : Uuid) (hub : ConnHub Addr) : Prop :=
  match (hubGetConnectorBypeeruuid compProcUuid uuid hub).1 with
  | some i => ∃ conn, hub.connectors[i]? = some conn ∧ conn.PeerIs compProcUuid uuid
  | none => ∀ conn ∈ hub.connectors, ¬ conn.PeerIs compProcUuid uuid

/-- The bytes of the head of a message from the receiver on, as far as they are compared:
    the field behind it is the route. -/
def messageGetReceiver (head : MsgHead) : List UInt8 :=
  head.receiverUuid.toList ++ head.route.toList

/-- `proc_router_hit_target`. The array for the identity is twice as long, and holds what was
    on the stack behind it. -/
def procRouterHitTarget (stack : Uuid) (message : Option MsgHead) (localUuid : Uuid)
    (procName : List UInt8) : Int :=
  match message with
  | none => -EINVAL
  | some head =>
    let receiver := messageGetReceiver head
    if head.receiverUuid[0] = ':'.toUInt8 then 1
    else if head.receiverUuid[0] = '@'.toUInt8 then
      if strncmp (receiver.drop 1) (procName ++ [0]) (DIGEST_SIZE * 2 - 1) = 0 then 1 else 0
    else
      let connUuid := (compProcUuid localUuid (some procName)).toList ++ stack.toList
      if strncmp receiver connUuid (DIGEST_SIZE * 2) = 0 then 1 else 0

/-- A message hits exactly if its receiver is the identity of the process, whatever was on
    the stack. -/
def HitsRight (head : MsgHead) (localUuid : Uuid) (procName : List UInt8) : Prop :=
  ∀ stack, procRouterHitTarget compProcUuid stack (some head) localUuid procName = 1 ↔
    head.receiverUuid = compProcUuid localUuid (some procName)

end Hub

/-- Two identities agree up to the first zero byte. -/
def AgreeToZero (a b : Uuid) : Prop := a.toList.takeWhile (· ≠ 0) = b.toList.takeWhile (· ≠ 0)

instance (a b : Uuid) : Decidable (AgreeToZero a b) := inferInstanceAs (Decidable (_ = _))

/-! ## The peers of a connector -/

section Peers

variable (hit : Uuid → Bool) (sysPeer : Nat → Option Uuid) (info : P2pInfo Addr)

theorem walks_peers : Cursor.Walks getfirstpeer getnextpeer
    (fun i info => ((sysPeer i).any hit, info)) info.peerList.length
    (fun i info' => info' = { info with currPeer := some i }) (fun i => (sysPeer i).any hit) info where
  first_none h := by simp [getfirstpeer, P2pInfo.next, h]
  first_some h := by simp [getfirstpeer, P2pInfo.next, h]
  look h _ := ⟨rfl, h⟩
  next_some := by
    rintro i _ rfl hlt
    -- the cursor is on a record that is not the last
    have hne : i ≠ info.peerList.length - 1 := by omega
    simp [getnextpeer, P2pInfo.last, P2pInfo.next, hlt, hne]
  next_none := by
    rintro i _ rfl hlast
    have heq : i = info.peerList.length - 1 := by omega
    have hpos : 0 < info.peerList.length := by omega
    simp [getnextpeer, P2pInfo.last, hpos, heq]

/-- The peer found is the first one that is hit. -/
theorem findPeer_eq : (findPeer hit sysPeer info).1 =
    (List.range info.peerList.length).find? fun i => (sysPeer i).any hit :=
  Cursor.scan_eq (walks_peers hit sysPeer info)

/-- No more than the cursor moves. -/
theorem findPeer_snd :
    ∃ curr, (findPeer hit sysPeer info).2 = { info with currPeer := curr } := by
  rcases Cursor.scan_at (walks_peers hit sysPeer info) with ⟨hscan, -⟩ | ⟨i, hscan⟩
  · exact ⟨_, hscan⟩
  · exact ⟨_, hscan⟩

theorem findPeer_isSome : (findPeer hit sysPeer info).1.isSome = true ↔
    ∃ i < info.peerList.length, ∃ sys, sysPeer i = some sys ∧ hit sys = true := by
  rw [findPeer_eq, List.find?_isSome]
  simp [Option.any_eq_true]

end Peers

/-- The search that compares all the bytes finds the first peer with the identity. -/
theorem findpeerbyuuid_spec (conn : Conn Addr) (uuid : Uuid) :
    match (findpeerbyuuid conn uuid).1 with
    | some i => conn.sysPeer i = some uuid ∧ i < conn.varInfo.peerList.length ∧
        ∀ j < i, conn.sysPeer j ≠ some uuid
    | none => ∀ j < conn.varInfo.peerList.length, conn.sysPeer j ≠ some uuid := by
  have hany (i : Nat) : (conn.sysPeer i).any (fun sys => memcmp sys.toList uuid.toList = 0) = true ↔
      conn.sysPeer i = some uuid := by
    rw [Option.any_eq_true]
    refine ⟨fun ⟨sys, hsys, heq⟩ => ?_, fun h => ⟨uuid, h, ?_⟩⟩
    · rw [decide_eq_true_eq, memcmp_eq_zero (by simp), Vector.toList_inj] at heq
      rw [hsys, heq]
    · exact decide_eq_true ((memcmp_eq_zero rfl).2 rfl)
  rw [findpeerbyuuid, findPeer_eq]
  split
  next i hfind =>
    obtain ⟨hi, hmem, hbefore⟩ := List.find?_range_eq_some.1 hfind
    refine ⟨(hany i).1 hi, List.mem_range.1 hmem, fun j hj hu => ?_⟩
    have hmiss := hbefore j hj
    rw [(hany j).2 hu] at hmiss
    exact absurd hmiss (by decide)
  next hfind =>
    intro j hj hu
    have hmiss := List.find?_range_eq_none.1 hfind j hj
    rw [(hany j).2 hu] at hmiss
    exact absurd hmiss (by decide)

/-! ## The connectors of a hub -/

section Hub

variable (compProcUuid : Uuid → Option (List UInt8) → Uuid) {uuid : Uuid}

theorem strncmp_uuid (a b : Uuid) :
    strncmp a.toList b.toList DIGEST_SIZE = 0 ↔ AgreeToZero a b :=
  strncmp_fields Vector.length_toList Vector.length_toList

/-- The connector is one to a peer whose identity agrees. -/
def Conn.Agrees (conn : Conn Addr) (uuid : Uuid) : Prop :=
  ∃ a, conn.PeerIs compProcUuid a ∧ AgreeToZero a uuid

/-- The connector with the cursor at the head of its peers. -/
def Conn.reset (conn : Conn Addr) : Conn Addr :=
  { conn with varInfo := { conn.varInfo with currPeer := none } }

theorem look_iff (conn : Conn Addr) (uuid : Uuid) :
    (conn.look compProcUuid uuid).1 = true ↔ conn.Agrees compProcUuid uuid := by
  obtain ⟨connType, externInfo, varInfo, sysPeer⟩ := conn
  cases connType with
  | client | channel =>
    simp only [Conn.look, Conn.Agrees, Conn.PeerIs, Option.any_eq_true, decide_eq_true_eq,
      strncmp_uuid]
    exact ⟨fun ⟨info, hinfo, h⟩ => ⟨_, ⟨info, hinfo, rfl⟩, h⟩,
      fun ⟨_, ⟨info, hinfo, ha⟩, h⟩ => ⟨info, hinfo, ha ▸ h⟩⟩
  | p2pBind | p2pRand =>
    simp only [Conn.look, Conn.Agrees, Conn.PeerIs, findPeer_isSome, decide_eq_true_eq,
      strncmp_uuid]
    exact ⟨fun ⟨i, hi, sys, hsys, h⟩ => ⟨sys, ⟨i, hi, hsys⟩, h.symm⟩,
      fun ⟨a, ⟨i, hi, ha⟩, h⟩ => ⟨i, hi, a, ha, h.symm⟩⟩
  | invalid | server => simp [Conn.look, Conn.Agrees, Conn.PeerIs]

/-- To look at a connector moves no more than its cursor. -/
theorem reset_look (conn : Conn Addr) (uuid : Uuid) :
    (conn.look compProcUuid uuid).2.reset = conn.reset := by
  obtain ⟨connType, externInfo, varInfo, sysPeer⟩ := conn
  cases connType with
  | p2pBind | p2pRand =>
    obtain ⟨curr, hcurr⟩ := findPeer_snd
      (fun sys : Uuid => strncmp uuid.toList sys.toList DIGEST_SIZE = 0) sysPeer varInfo
    simp only [Conn.look, Conn.reset, hcurr]
  | client | channel | invalid | server => rfl

/-- What a connector agrees with does not depend on its cursor. -/
theorem agrees_reset (conn : Conn Addr) (uuid : Uuid) :
    conn.reset.Agrees compProcUuid uuid ↔ conn.Agrees compProcUuid uuid := Iff.rfl

/-- The connector at a position agrees with the identity. -/
def hits (uuid : Uuid) (hub : ConnHub Addr) (i : Nat) : Bool :=
  hub.connectors[i]?.any fun conn => (conn.look compProcUuid uuid).1

theorem walks_connectors (uuid : Uuid) (hub : ConnHub Addr) :
    Cursor.Walks hubGetFirstConnector hubGetNextConnector
      (fun i hub =>
        match hub.connectors[i]? with
        | none => (false, hub)
        | some conn =>
          let (hit, conn) := conn.look compProcUuid uuid
          (hit, { hub with connectors := hub.connectors.set i conn }))
      hub.connectors.length
      (fun i hub' => hub'.currConn = some i ∧
        hub'.connectors.map Conn.reset = hub.connectors.map Conn.reset)
      (hits compProcUuid uuid hub) hub where
  first_none h := by simp [hubGetFirstConnector, ConnHub.next, h]
  first_some h := by simp [hubGetFirstConnector, ConnHub.next, h]
  look := by
    rintro i ⟨connectors, _⟩ ⟨rfl, hsame⟩ hi
    have hget : connectors[i]?.map Conn.reset = hub.connectors[i]?.map Conn.reset := by
      rw [← List.getElem?_map, hsame, List.getElem?_map]
    obtain ⟨conn, hconn⟩ : ∃ conn, hub.connectors[i]? = some conn := ⟨_, List.getElem?_eq_getElem hi⟩
    rw [hconn, Option.map_some, Option.map_eq_some_iff] at hget
    obtain ⟨conn', hconn', hreset⟩ := hget
    simp only [hconn', hits, hconn, Option.any_some]
    refine ⟨?_, trivial, ?_⟩
    · rw [Bool.eq_iff_iff, look_iff, look_iff, ← agrees_reset, hreset, agrees_reset]
    · -- the connector is put back as it was, but for its cursor
      obtain ⟨hi', rfl⟩ := List.getElem?_eq_some_iff.1 hconn
      rw [List.map_set, reset_look, hsame, hreset, ← List.getElem_map Conn.reset,
        List.set_getElem_self]
      rwa [List.length_map]
  next_some := by
    rintro i ⟨connectors, _⟩ ⟨rfl, hsame⟩ hlt
    have hlen : connectors.length = hub.connectors.length := by
      simpa using congrArg List.length hsame
    rw [← hlen] at hlt
    simp [hubGetNextConnector, ConnHub.next, hlt, hsame]
  next_none := by
    rintro i ⟨connectors, _⟩ ⟨rfl, hsame⟩ hlast
    have hlen : connectors.length = hub.connectors.length := by
      simpa using congrArg List.length hsame
    have hge : ¬ i + 1 < connectors.length := by omega
    simp [hubGetNextConnector, ConnHub.next, hge, hsame]

/-- The connector found is the first one that agrees. -/
theorem lookup_eq (uuid : Uuid) (hub : ConnHub Addr) :
    (hubGetConnectorBypeeruuid compProcUuid uuid hub).1 =
      (List.range hub.connectors.length).find? (hits compProcUuid uuid hub) :=
  Cursor.scan_eq (walks_connectors compProcUuid uuid hub)

theorem hits_iff {hub : ConnHub Addr} {i : Nat} {conn : Conn Addr}
    (hconn : hub.connectors[i]? = some conn) :
    hits compProcUuid uuid hub i = true ↔ conn.Agrees compProcUuid uuid := by
  rw [hits, hconn, Option.any_some, look_iff]

theorem Conn.PeerIs.agrees {conn : Conn Addr} (h : conn.PeerIs compProcUuid uuid) :
    conn.Agrees compProcUuid uuid := ⟨uuid, h, rfl⟩

/-- The lookup is right exactly if every connector that agrees with the identity, but is not
    one to the peer, has one to the peer in front of it. -/
theorem findsPeer_iff (uuid : Uuid) (hub : ConnHub Addr) : FindsPeer compProcUuid uuid hub ↔
    ∀ (j : Nat) (conn : Conn Addr), hub.connectors[j]? = some conn →
      conn.Agrees compProcUuid uuid → ¬ conn.PeerIs compProcUuid uuid →
      ∃ i < j, ∃ conn', hub.connectors[i]? = some conn' ∧ conn'.PeerIs compProcUuid uuid := by
  rw [FindsPeer, lookup_eq]
  split
  next i hfind =>
    -- the connector returned is the first one that agrees
    obtain ⟨hi, hmem, hbefore⟩ := List.find?_range_eq_some.1 hfind
    obtain ⟨conn, hconn⟩ : ∃ conn, hub.connectors[i]? = some conn :=
      ⟨_, List.getElem?_eq_getElem (List.mem_range.1 hmem)⟩
    have hagrees := (hits_iff compProcUuid hconn).1 hi
    have hfirst {j : Nat} {conn' : Conn Addr} (hconn' : hub.connectors[j]? = some conn')
        (h : conn'.Agrees compProcUuid uuid) : i ≤ j := by
      by_contra hlt
      have hmiss := hbefore j (Nat.lt_of_not_le hlt)
      rw [(hits_iff compProcUuid hconn').2 h] at hmiss
      exact absurd hmiss (by decide)
    constructor
    · rintro ⟨conn', hconn', hpeer⟩ j other hother h hno
      refine ⟨i, Nat.lt_of_le_of_ne (hfirst hother h) ?_, conn', hconn', hpeer⟩
      rintro rfl
      rw [hconn'] at hother
      exact hno (Option.some.inj hother ▸ hpeer)
    · intro h
      refine ⟨conn, hconn, by_contra fun hno => ?_⟩
      obtain ⟨j, hj, conn', hconn', hpeer⟩ := h i conn hconn hagrees hno
      exact absurd (hfirst hconn' (hpeer.agrees compProcUuid)) (Nat.not_le_of_lt hj)
  next hfind =>
    have hnone {j : Nat} {conn : Conn Addr} (hconn : hub.connectors[j]? = some conn) :
        ¬ conn.Agrees compProcUuid uuid := fun h => by
      have hmiss := List.find?_range_eq_none.1 hfind j (List.getElem?_eq_some_iff.1 hconn).1
      rw [(hits_iff compProcUuid hconn).2 h] at hmiss
      exact absurd hmiss (by decide)
    refine iff_of_true (fun conn hmem hpeer => ?_) fun j conn hconn h => absurd h (hnone hconn)
    obtain ⟨j, hconn⟩ := List.mem_iff_getElem?.1 hmem
    exact hnone hconn (hpeer.agrees compProcUuid)

end Hub

/-! ## The process that is hit -/

section Fields

variable {a b c d : Uuid}

theorem takeWhile_full (h : 0 ∉ a.toList) : a.toList.takeWhile (· ≠ 0) = a.toList :=
  List.takeWhile_eq_self_iff.2 fun _ hx => decide_eq_true fun h0 => h (h0 ▸ hx)

/-- Behind an identity with a zero byte nothing is compared. -/
theorem takeWhile_of_mem (h : 0 ∈ a.toList) (rest : List UInt8) :
    (a.toList ++ rest).takeWhile (· ≠ 0) = a.toList.takeWhile (· ≠ 0) := by
  rw [List.takeWhile_append, if_neg]
  intro hlen
  have hself := (List.takeWhile_prefix (fun x : UInt8 => decide (x ≠ 0))).eq_of_length hlen
  exact absurd (List.takeWhile_eq_self_iff.1 hself 0 h) (by decide)

theorem takeWhile_of_not_mem (h : 0 ∉ a.toList) (rest : List UInt8) :
    (a.toList ++ rest).takeWhile (· ≠ 0) = a.toList ++ rest.takeWhile (· ≠ 0) := by
  rw [List.takeWhile_append, takeWhile_full h, if_pos rfl]

/-- Different identities that agree have a zero byte both. -/
theorem mem_of_agree (h : AgreeToZero a b) (hne : a ≠ b) : 0 ∈ a.toList := by
  by_contra hzero
  rw [AgreeToZero, takeWhile_full hzero] at h
  have hlen : (b.toList.takeWhile (· ≠ 0)).length = b.toList.length := by rw [← h]; simp
  have hself := (List.takeWhile_prefix (fun x : UInt8 => decide (x ≠ 0))).eq_of_length hlen
  exact hne (Vector.toList_inj.1 (h.trans hself))

theorem AgreeToZero.symm (h : AgreeToZero a b) : AgreeToZero b a := Eq.symm h

/-- Fields that agree agree in their first identities. -/
theorem agree_of_fields
    (h : (a.toList ++ b.toList).takeWhile (· ≠ 0) = (c.toList ++ d.toList).takeWhile (· ≠ 0)) :
    AgreeToZero a c := by
  have htake := congrArg (List.take DIGEST_SIZE) h
  rwa [List.take_takeWhile, List.take_takeWhile, List.take_left' Vector.length_toList,
    List.take_left' Vector.length_toList] at htake

/-- Something else may stand on the stack. -/
theorem exists_stack (route : Uuid) :
    ∃ stack : Uuid, route.toList.takeWhile (· ≠ 0) ≠ stack.toList.takeWhile (· ≠ 0) := by
  rcases eq_or_ne (route.toList.takeWhile (· ≠ 0)) [] with hnil | hne
  · refine ⟨.replicate _ 1, ?_⟩
    rw [hnil]
    decide
  · exact ⟨.replicate _ 0, hne⟩

end Fields

section Hit

variable (compProcUuid : Uuid → Option (List UInt8) → Uuid) {head : MsgHead} {localUuid : Uuid}
  {procName : List UInt8}

theorem ite_eq_one (p : Prop) [Decidable p] : (if p then (1 : Int) else 0) = 1 ↔ p := by
  by_cases h : p <;> simp [h]

theorem hitTarget_digest (hcolon : head.receiverUuid[0] ≠ ':'.toUInt8)
    (hat : head.receiverUuid[0] ≠ '@'.toUInt8) (stack : Uuid) :
    procRouterHitTarget compProcUuid stack (some head) localUuid procName = 1 ↔
      (head.receiverUuid.toList ++ head.route.toList).takeWhile (· ≠ 0) =
        ((compProcUuid localUuid (some procName)).toList ++ stack.toList).takeWhile (· ≠ 0) := by
  have hlen (a b : Uuid) : (a.toList ++ b.toList).length = DIGEST_SIZE * 2 := by
    rw [List.length_append, Vector.length_toList, Vector.length_toList, Nat.mul_two]
  simp only [procRouterHitTarget, if_neg hcolon, if_neg hat]
  rw [ite_eq_one, messageGetReceiver, strncmp_fields (hlen _ _) (hlen _ _)]

/-- A digest that is the identity hits for sure only if it has a zero byte, before what is
    behind it is compared; and one that is not misses if it disagrees up to a zero byte. -/
theorem hitsRight_digest (hcolon : head.receiverUuid[0] ≠ ':'.toUInt8)
    (hat : head.receiverUuid[0] ≠ '@'.toUInt8) :
    HitsRight compProcUuid head localUuid procName ↔
      if head.receiverUuid = compProcUuid localUuid (some procName) then
        0 ∈ head.receiverUuid.toList
      else ¬ AgreeToZero head.receiverUuid (compProcUuid localUuid (some procName)) := by
  simp only [HitsRight, hitTarget_digest compProcUuid hcolon hat]
  generalize compProcUuid localUuid (some procName) = identity
  generalize head.receiverUuid = receiver
  split_ifs with heq
  · subst heq
    refine ⟨fun h => by_contra fun hzero => ?_, fun hzero stack => iff_of_true ?_ rfl⟩
    · -- without a zero byte, the route is compared with the stack
      obtain ⟨stack, hstack⟩ := exists_stack head.route
      have hsame := (h stack).2 rfl
      rw [takeWhile_of_not_mem hzero, takeWhile_of_not_mem hzero] at hsame
      exact hstack (List.append_cancel_left hsame)
    · rw [takeWhile_of_mem hzero, takeWhile_of_mem hzero]
  · refine ⟨fun h hagree => heq ((h (.replicate _ 0)).1 ?_), fun h stack =>
      iff_of_false (fun hsame => h (agree_of_fields hsame)) heq⟩
    rw [takeWhile_of_mem (mem_of_agree hagree heq),
      takeWhile_of_mem (mem_of_agree hagree.symm (Ne.symm heq))]
    exact hagree

/-- A receiver that begins like the name of a connector always hits, and one that begins
    like a name is compared with the name of the process. -/
theorem hitsRight_iff :
    HitsRight compProcUuid head localUuid procName ↔
      if head.receiverUuid[0] = ':'.toUInt8 then
        head.receiverUuid = compProcUuid localUuid (some procName)
      else if head.receiverUuid[0] = '@'.toUInt8 then
        strncmp ((messageGetReceiver head).drop 1) (procName ++ [0]) (DIGEST_SIZE * 2 - 1) = 0 ↔
          head.receiverUuid = compProcUuid localUuid (some procName)
      else if head.receiverUuid = compProcUuid localUuid (some procName) then
        0 ∈ head.receiverUuid.toList
      else ¬ AgreeToZero head.receiverUuid (compProcUuid localUuid (some procName)) := by
  rcases Decidable.em (head.receiverUuid[0] = ':'.toUInt8) with hcolon | hcolon
  · rw [if_pos hcolon]
    simp only [HitsRight, procRouterHitTarget, if_pos hcolon, true_iff, forall_const]
  rcases Decidable.em (head.receiverUuid[0] = '@'.toUInt8) with hat | hat
  · rw [if_neg hcolon, if_pos hat]
    simp only [HitsRight, procRouterHitTarget, if_neg hcolon, if_pos hat, ite_eq_one,
      forall_const]
  · rw [if_neg hcolon, if_neg hat, hitsRight_digest compProcUuid hcolon hat]

end Hit

/-- The lookup is right exactly if every connector that agrees with the identity up to a
    zero byte, but is not one to the peer, has one to the peer in front of it; and a
    receiver tells the process right exactly if it is taken for no name, and has a zero byte
    if it is the identity, and does not agree with it up to one if it is not. -/
theorem peerLookup_iff :
    (∀ (compProcUuid : Uuid → Option (List UInt8) → Uuid) (uuid : Uuid) (hub : ConnHub Addr),
      FindsPeer compProcUuid uuid hub ↔
        ∀ (j : Nat) (conn : Conn Addr), hub.connectors[j]? = some conn →
          conn.Agrees compProcUuid uuid → ¬ conn.PeerIs compProcUuid uuid →
          ∃ i < j, ∃ conn', hub.connectors[i]? = some conn' ∧ conn'.PeerIs compProcUuid uuid) ∧
    ∀ (compProcUuid : Uuid → Option (List UInt8) → Uuid) (head : MsgHead) (localUuid : Uuid)
      (procName : List UInt8),
      HitsRight compProcUuid head localUuid procName ↔
        if head.receiverUuid[0] = ':'.toUInt8 then
          head.receiverUuid = compProcUuid localUuid (some procName)
        else if head.receiverUuid[0] = '@'.toUInt8 then
          strncmp ((messageGetReceiver head).drop 1) (procName ++ [0]) (DIGEST_SIZE * 2 - 1) = 0 ↔
            head.receiverUuid = compProcUuid localUuid (some procName)
        else if head.receiverUuid = compProcUuid localUuid (some procName) then
          0 ∈ head.receiverUuid.toList
        else ¬ AgreeToZero head.receiverUuid (compProcUuid localUuid (some procName)) :=
  ⟨findsPeer_iff, fun compProcUuid _ _ _ => hitsRight_iff compProcUuid⟩

/-- An identity whose first byte is zero. -/
def zeroFirst (b : UInt8) : Uuid := (Vector.replicate 32 b).set 0 0

/-- A connector to a peer is taken for one to another peer whose identity begins with a zero
    byte too; and a message for the process is not taken for one. -/
theorem not_findsPeer :
    ¬ FindsPeer (fun uuid _ => uuid) (zeroFirst 1)
        (⟨[⟨.client, some ⟨zeroFirst 2, none⟩, ⟨.zero, [], none⟩, fun _ => none⟩], none⟩ :
          ConnHub Unit) ∧
      ¬ HitsRight (fun uuid _ => uuid) { initHead with receiverUuid := .replicate _ 1 }
        (.replicate _ 1) [] := by
  constructor
  · intro h
    obtain ⟨i, hi, -⟩ := (findsPeer_iff _ _ _).1 h 0 _ rfl
      ⟨zeroFirst 2, ⟨⟨zeroFirst 2, none⟩, rfl, rfl⟩, by decide⟩ (by
        rintro ⟨info, hinfo, hu⟩
        obtain rfl := Option.some.inj hinfo
        exact absurd hu (by decide))
    exact absurd hi (Nat.not_lt_zero i)
  · intro h
    have hzero := (hitsRight_digest _ (by decide) (by decide)).1 h
    rw [if_pos rfl] at hzero
    exact absurd hzero (by decide)

end Cube.Connector.Lookup
