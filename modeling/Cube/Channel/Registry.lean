import Cube.Channel.Buf
import Cube.ExModule.MsgQueue
import Cube.Memdb.Database

/-!
# The registry of channels

Channels are registered under their names in one list (`channel.c`), where
`channel_find` looks them up. Both functions that register a channel initialise
the head of the list again before they link its record: the channels registered
before are no longer found.

* `channelFind_linked`: what is found after a channel was linked;
* `resolves_iff`: in a run, every name finds the channel registered under it and
  no other one, exactly if at most one call of the run links a channel, a channel
  that has been created, under a name with room for its end.
-/

namespace Cube.Registry

open Lib
open Channel (ChannelBuf toUint16 channelBufCreate)
open ExModule (Malloc)
open Memdb (Name)

/-- The directions of a channel, of `enum channel_type`. -/
def CHANNEL_READ : Int32 := 0x01
def CHANNEL_WRITE : Int32 := 0x02
/-- The type of a channel whose buffers are in memory of the caller. -/
def CHANNEL_FIXMEM : Int32 := 0x100
/-- The largest type. -/
def CHANNEL_SHUTDOWN : Int32 := 0x1000

/-- The state of a new channel, of `enum channel_state`. -/
def CHANNEL_INIT : Int32 := 0x01

/-- The size of the buffers of a channel. -/
def CHANNEL_BUF_SIZE : Int := 4000

/-- The fields of a channel, `CHANNEL`, that its creation sets. -/
structure Channel where
  name : Name
  type : Int32
  state : Int32
  readBuf : Option ChannelBuf
  writeBuf : Option ChannelBuf

/-- What a function returns for a channel: `NULL`, the error `-EINVAL` in place of a
    pointer, or the channel, told by its number among those created. -/
inductive Ptr
  | null
  | error
  | channel (id : Nat)
  deriving DecidableEq, Repr

/-! ## Creating channels -/

/-- `channel_membuf_create`: the buffer made of the memory of the caller, which is read as
    a buffer here. The size is compared unsigned with the size of the fields. -/
def channelMembufCreate (size : Int) (buf : Option ChannelBuf) : Option ChannelBuf :=
  if 0 ≤ size ∧ size < 8 then none
  else if size > 32767 then none
  else buf.map fun b => { b with bufsize := toUint16 (size - 8) }

/-- The buffers that a channel of the type has are there. -/
def Buffers (type : Int32) (readBuf writeBuf : Option ChannelBuf) : Prop :=
  (type &&& CHANNEL_READ ≠ 0 → readBuf.isSome) ∧ (type &&& CHANNEL_WRITE ≠ 0 → writeBuf.isSome)

instance (type : Int32) (readBuf writeBuf : Option ChannelBuf) :
    Decidable (Buffers type readBuf writeBuf) := inferInstanceAs (Decidable (_ ∧ _))

/-- A new channel with the buffers its type asks for, or `NULL` where one of them
    could not be created. The memory of the channel itself is static. -/
def newChannel (channels : List Channel) (name : Name) (type : Int32)
    (readBuf writeBuf : Option ChannelBuf) : Ptr × List Channel :=
  if Buffers type readBuf writeBuf then
    (.channel channels.length, channels ++ [{
      name := name.strncpy
      type := type
      state := CHANNEL_INIT
      readBuf := if type &&& CHANNEL_READ ≠ 0 then readBuf else none
      writeBuf := if type &&& CHANNEL_WRITE ≠ 0 then writeBuf else none }])
  else (.null, channels)

/-- `channel_create`, with the memory `Dalloc0` finds for the buffers. -/
def channelCreate (memRead memWrite : Bool) (channels : List Channel) (name : Name)
    (type : Int32) : Ptr × List Channel :=
  if type ≤ 0 then (.null, channels)
  else if type > CHANNEL_SHUTDOWN then (.null, channels)
  else if type &&& CHANNEL_FIXMEM ≠ 0 then (.error, channels)
  else newChannel channels name type (channelBufCreate memRead CHANNEL_BUF_SIZE)
    (channelBufCreate memWrite CHANNEL_BUF_SIZE)

/-- `channel_create_fixmem`. -/
def channelCreateFixmem (channels : List Channel) (name : Name) (type : Int32) (size : Int)
    (readaddr writeaddr : Option ChannelBuf) : Ptr × List Channel :=
  if type ≤ 0 then (.null, channels)
  else if type > CHANNEL_SHUTDOWN then (.null, channels)
  else if type &&& CHANNEL_FIXMEM = 0 then (.error, channels)
  else newChannel channels name type (channelMembufCreate size readaddr)
    (channelMembufCreate size writeaddr)

/-! ## The list of channels -/

variable {A : Type} [DecidableEq A]

/-- The list `channel_list`: the address of its head, the links of its records and what
    they are records of, the addresses in use, and the channels created. -/
structure ChannelList (A : Type) where
  head : A
  links : Links A
  record : A → Ptr
  used : List A
  channels : List Channel

/-- `channel_init`. -/
def channelInit (head : A) (links : Links A) : ChannelList A where
  head := head
  links := links.init head
  record _ := .null
  used := [head]
  channels := []

/-- How both functions that register a channel go on when it was created: its record is
    linked behind a head initialised again. -/
def link (m : Malloc A) (r : ChannelList A) : Ptr → Ptr × ChannelList A
  | .null => (.null, r)
  | new =>
    match m.malloc r.used with
    | none => (.null, r)
    | some channelHead =>
      (new, { r with
        links := (r.links.init r.head).addTail channelHead r.head
        record := Function.update r.record channelHead new
        used := channelHead :: r.used })

/-- `channel_register`. -/
def channelRegister (m : Malloc A) (memRead memWrite : Bool) (r : ChannelList A) (name : Name)
    (type : Int32) : Ptr × ChannelList A :=
  let (new, channels) := channelCreate memRead memWrite r.channels name type
  link m { r with channels := channels } new

/-- `channel_register_fixmem`. -/
def channelRegisterFixmem (m : Malloc A) (r : ChannelList A) (name : Name) (type : Int32)
    (size : Int) (readaddr writeaddr : Option ChannelBuf) : Ptr × ChannelList A :=
  if type &&& CHANNEL_FIXMEM = 0 then (.error, r)
  else
    let (new, channels) := channelCreateFixmem r.channels name type size readaddr writeaddr
    link m { r with channels := channels } new

/-- `_channel_comp_name`. What is at the address `-EINVAL` cannot be read. -/
def channelCompName (r : ChannelList A) (listHead : A) (name : Name) : Outcome Int :=
  match r.record listHead with
  | .null => .done (-EINVAL)
  | .error => .fault
  | .channel id =>
    match r.channels[id]? with
    | none => .fault
    | some compChannel => .done (compChannel.name.strncmp name)

/-- `find_elem_with_tag`: the search from an element on, of at most so many turns, with
    the value of the comparison for each element. -/
def findElemWithTag (fn : A → Outcome Int) (links : Links A) (head : A) :
    Nat → A → Outcome (Option A)
  | 0, _ => .fault
  | turns + 1, temp => do
    let ret ← fn temp
    if ret = 0 then .done (some temp)
    else if links.next temp = head then .done none
    else findElemWithTag fn links head turns (links.next temp)

/-- `channel_find`. There are no more elements in the list than addresses in use. -/
def channelFind (r : ChannelList A) (name : Name) : Outcome Ptr := do
  match ← findElemWithTag (channelCompName r · name) r.links r.head r.used.length r.head with
  | none => .done .null
  | some recordElem => .done (r.record recordElem)

/-! ## What is found -/

/-- The head is in use and is a record of nothing, and the channels recorded are some that
    were created. -/
structure ChannelList.Valid (r : ChannelList A) : Prop where
  head_mem : r.head ∈ r.used
  head_record : r.record r.head = .null
  lt_length : ∀ u id, r.record u = .channel id → id < r.channels.length

variable {m : Malloc A} {r : ChannelList A} {new : Ptr}

/-- A channel created and not linked changes nothing in what is found. -/
theorem channelFind_channels (h : r.Valid) (more : List Channel) (name : Name) :
    channelFind { r with channels := r.channels ++ more } name = channelFind r name := by
  have hcomp (u : A) : channelCompName { r with channels := r.channels ++ more } u name =
      channelCompName r u name := by
    simp only [channelCompName]
    cases hu : r.record u with
    | null => rfl
    | error => rfl
    | channel id => simp only [List.getElem?_append_left (h.lt_length u id hu)]
  simp only [channelFind, funext hcomp]

/-- What is linked is returned, in a record behind the head. -/
theorem link_eq {channelHead : A} (hm : m.malloc r.used = some channelHead)
    (hnew : new ≠ .null) :
    link m r new = (new, { r with
      links := (r.links.init r.head).addTail channelHead r.head
      record := Function.update r.record channelHead new
      used := channelHead :: r.used }) := by
  cases new with
  | null => exact absurd rfl hnew
  | error | channel id => simp only [link, hm]

/-- What is found after a record was linked: the channel in it, if the name compares equal.
    What is no channel cannot be compared. -/
theorem channelFind_linked (h : r.Valid) {channelHead : A} (hm : m.malloc r.used = some channelHead)
    (hnew : new ≠ .null) (name : Name) :
    channelFind (link m r new).2 name =
      match new with
      | .null => .done .null
      | .error => .fault
      | .channel id =>
        match r.channels[id]? with
        | none => .fault
        | some c => .done (if c.name.strncmp name = 0 then .channel id else .null) := by
  have hx : channelHead ≠ r.head := fun hx => m.fresh _ _ hm (hx ▸ h.head_mem)
  obtain ⟨turns, hturns⟩ : ∃ turns, r.used.length = turns + 1 :=
    ⟨r.used.length - 1, by have := List.length_pos_of_mem h.head_mem; omega⟩
  -- The ring of the head and the record linked: the search compares both.
  have hring : Links.IsRing ((r.links.init r.head).addTail channelHead r.head) r.head
      [channelHead] :=
    Links.isRing_addTail (l := []) Links.isRing_init (by simpa using hx)
  have hnext := hring.next_head
  have hback : ((r.links.init r.head).addTail channelHead r.head).next channelHead = r.head :=
    hring.seg.2.1
  have hhead : channelCompName (link m r new).2 r.head name = .done (-EINVAL) := by
    rw [link_eq hm hnew]
    simp [channelCompName, Function.update_of_ne hx.symm, h.head_record]
  rw [link_eq hm hnew] at hhead ⊢
  simp only [channelFind, List.length_cons, hturns, findElemWithTag, hhead, Outcome.done_bind,
    EINVAL, hnext, hx, hback]
  cases new with
  | null => exact absurd rfl hnew
  | error => simp [channelCompName]
  | channel id =>
    simp only [channelCompName, Function.update_self]
    cases r.channels[id]? with
    | none => simp
    | some c =>
      by_cases hc : c.name.strncmp name = 0 <;> simp [hc]

/-! ## Registering channels -/

/-- A call that registers a channel, with the memory found for the buffers of a channel
    that has its own. -/
inductive Call
  | register (name : Name) (type : Int32) (memRead memWrite : Bool)
  | registerFixmem (name : Name) (type : Int32) (size : Int)
      (readaddr writeaddr : Option ChannelBuf)

namespace Call

/-- The name a channel is registered under. -/
def name : Call → Name
  | register name .. => name
  | registerFixmem name .. => name

/-- The call, with the memory for the record. -/
def perform (m : Malloc A) (r : ChannelList A) : Call → Ptr × ChannelList A
  | register name type memRead memWrite => channelRegister m memRead memWrite r name type
  | registerFixmem name type size readaddr writeaddr =>
    channelRegisterFixmem m r name type size readaddr writeaddr

/-- The type asked for is a type of the kind that the call creates. -/
def Creates : Call → Prop
  | register _ type .. => type &&& CHANNEL_FIXMEM = 0
  | registerFixmem _ type .. => type &&& CHANNEL_FIXMEM ≠ 0

/-- The buffers that a channel of the type has can be created. -/
def HasBuffers : Call → Prop
  | register _ type memRead memWrite => Buffers type (channelBufCreate memRead CHANNEL_BUF_SIZE)
    (channelBufCreate memWrite CHANNEL_BUF_SIZE)
  | registerFixmem _ type size readaddr writeaddr =>
    Buffers type (channelMembufCreate size readaddr) (channelMembufCreate size writeaddr)

/-- The type is one that the call goes on with, and the buffers are there.
    `channel_register` goes on with types that it does not create. -/
def Wanted (c : Call) : Prop :=
  match c with
  | register _ type .. => 0 < type ∧ type ≤ CHANNEL_SHUTDOWN ∧ (c.Creates → c.HasBuffers)
  | registerFixmem _ type .. => 0 < type ∧ type ≤ CHANNEL_SHUTDOWN ∧ c.Creates ∧ c.HasBuffers

/-- The call links a record. -/
def Links (m : Malloc A) (r : ChannelList A) (c : Call) : Prop :=
  c.Wanted ∧ (m.malloc r.used).isSome

/-- What a call puts into the list. -/
inductive Linked (c : Call) (r : ChannelList A) : Ptr → List Channel → Prop
  | error (h : ¬ c.Creates) : Linked c r .error r.channels
  | channel (h : c.Creates) (new : Channel) (hname : new.name = c.name.strncpy) :
    Linked c r (.channel r.channels.length) (r.channels ++ [new])

end Call

/-- A new channel has its number, and its name as far as there is the room. -/
theorem newChannel_cases (channels : List Channel) (name : Name) (type : Int32)
    (readBuf writeBuf : Option ChannelBuf) :
    (¬ Buffers type readBuf writeBuf ∧
        newChannel channels name type readBuf writeBuf = (.null, channels)) ∨
      Buffers type readBuf writeBuf ∧ ∃ new : Channel, new.name = name.strncpy ∧
        newChannel channels name type readBuf writeBuf =
          (.channel channels.length, channels ++ [new]) := by
  by_cases h : Buffers type readBuf writeBuf
  · refine .inr ⟨h, _, ?_, by rw [newChannel, if_pos h]⟩
    rfl
  · exact .inl ⟨h, by rw [newChannel, if_neg h]⟩

/-- A record without memory is not linked. -/
theorem link_none (hm : m.malloc r.used = none) : link m r new = (.null, r) := by
  cases new <;> simp [link, hm]

/-- What a call creates: nothing, or what it puts into the list. -/
def Call.Made (c : Call) (r : ChannelList A) (made : Ptr × List Channel) : Prop :=
  (¬ c.Wanted ∧ made = (.null, r.channels)) ∨ c.Wanted ∧ c.Linked r made.1 made.2

omit [DecidableEq A] in
theorem made_register (r : ChannelList A) (name : Name) (type : Int32) (memRead memWrite : Bool) :
    (Call.register name type memRead memWrite).Made r
      (channelCreate memRead memWrite r.channels name type) := by
  rw [channelCreate]
  split_ifs with h0 h1 hfix
  · exact .inl ⟨fun h => absurd h.1 (Int32.not_lt.2 h0), rfl⟩
  · exact .inl ⟨fun h => absurd h1 (Int32.not_lt.2 h.2.1), rfl⟩
  · exact .inr ⟨⟨Int32.not_le.1 h0, Int32.not_lt.1 h1, fun h => absurd h hfix⟩, .error hfix⟩
  · have hcreates : (Call.register name type memRead memWrite).Creates := by
      rwa [ne_eq, not_not] at hfix
    rcases newChannel_cases r.channels name type (channelBufCreate memRead CHANNEL_BUF_SIZE)
      (channelBufCreate memWrite CHANNEL_BUF_SIZE) with ⟨hbuf, hnew⟩ | ⟨hbuf, new, hname, hnew⟩
    · exact .inl ⟨fun h => hbuf (h.2.2 hcreates), hnew⟩
    · rw [hnew]
      exact .inr ⟨⟨Int32.not_le.1 h0, Int32.not_lt.1 h1, fun _ => hbuf⟩,
        .channel hcreates new hname⟩

omit [DecidableEq A] in
theorem made_registerFixmem (r : ChannelList A) (name : Name) (type : Int32) (size : Int)
    (readaddr writeaddr : Option ChannelBuf) (hfix : type &&& CHANNEL_FIXMEM ≠ 0) :
    (Call.registerFixmem name type size readaddr writeaddr).Made r
      (channelCreateFixmem r.channels name type size readaddr writeaddr) := by
  have hcreates : (Call.registerFixmem name type size readaddr writeaddr).Creates := hfix
  rw [channelCreateFixmem]
  split_ifs with h0 h1
  · exact .inl ⟨fun h => absurd h.1 (Int32.not_lt.2 h0), rfl⟩
  · exact .inl ⟨fun h => absurd h1 (Int32.not_lt.2 h.2.1), rfl⟩
  · rcases newChannel_cases r.channels name type (channelMembufCreate size readaddr)
      (channelMembufCreate size writeaddr) with ⟨hbuf, hnew⟩ | ⟨hbuf, new, hname, hnew⟩
    · exact .inl ⟨fun h => hbuf h.2.2.2, hnew⟩
    · rw [hnew]
      exact .inr ⟨⟨Int32.not_le.1 h0, Int32.not_lt.1 h1, hfix, hbuf⟩, .channel hcreates new hname⟩

/-- The step of the list for a call: it links nothing, returns no channel and leaves the
    list, or links what it created, and returns it. -/
inductive Call.Step (m : Malloc A) (r : ChannelList A) (c : Call) : Ptr × ChannelList A → Prop
  | kept (h : ¬ c.Links m r) (p : Ptr) (hp : ∀ id, p ≠ .channel id) (more : List Channel) :
    c.Step m r (p, { r with channels := r.channels ++ more })
  | linked (h : c.Links m r) (new : Ptr) (channels : List Channel) (hl : c.Linked r new channels) :
    c.Step m r (new, (link m { r with channels := channels } new).2)

theorem Call.Made.step {c : Call} {made : Ptr × List Channel} (h : c.Made r made) :
    c.Step m r (link m { r with channels := made.2 } made.1) := by
  rcases h with ⟨hno, rfl⟩ | ⟨hwanted, hl⟩
  · have := Call.Step.kept (m := m) (r := r) (c := c) (fun h => hno h.1) .null (by simp) []
    simpa [link] using this
  obtain ⟨new, channels⟩ := made
  cases hm : m.malloc r.used with
  | none =>
    rw [link_none (by exact hm)]
    have hno : ¬ c.Links m r := fun h => by simpa [hm] using h.2
    cases hl with
    | error => simpa using Call.Step.kept hno .null (by simp) []
    | channel _ new _ => exact .kept hno .null (by simp) [new]
  | some channelHead =>
    have hnew : new ≠ .null := by cases hl <;> simp
    have hstep := Call.Step.linked (m := m) ⟨hwanted, by simp [hm]⟩ new channels hl
    rw [link_eq (by exact hm) hnew] at hstep ⊢
    exact hstep

/-- Every call is such a step. -/
theorem perform_step (m : Malloc A) (r : ChannelList A) (c : Call) :
    c.Step m r (c.perform m r) := by
  cases c with
  | register name type memRead memWrite => exact (made_register r name type memRead memWrite).step
  | registerFixmem name type size readaddr writeaddr =>
    rw [Call.perform, channelRegisterFixmem]
    by_cases hfix : type &&& CHANNEL_FIXMEM = 0
    · rw [if_pos hfix]
      simpa using Call.Step.kept (m := m) (r := r)
        (c := .registerFixmem name type size readaddr writeaddr)
        (fun h => h.1.2.2.1 hfix) .error (by simp) []
    · rw [if_neg hfix]
      exact (made_registerFixmem r name type size readaddr writeaddr hfix).step

/-! ## Runs -/

/-- The list of channels, with the names registered so far and their channels. -/
structure Directory (A : Type) where
  list : ChannelList A
  registered : List (Name × Nat)

/-- The directory of a list just initialised. -/
def Directory.start (head : A) (links : Links A) : Directory A where
  list := channelInit head links
  registered := []

/-- A name is registered when the call for it returns a channel. -/
def Directory.registeredWith (d : Directory A) (name : Name) : Ptr → List (Name × Nat)
  | .channel id => d.registered ++ [(name, id)]
  | .null | .error => d.registered

/-- The directory after a call. -/
def Directory.step (m : Malloc A) (d : Directory A) (c : Call) : Directory A where
  list := (c.perform m d.list).2
  registered := d.registeredWith c.name (c.perform m d.list).1

/-- The channel registered under a name, if any. -/
def Directory.lookup (d : Directory A) (name : Name) : Ptr :=
  match d.registered.lookup name with
  | some id => .channel id
  | none => .null

/-- Every name finds the channel registered under it, and no other one. -/
def Directory.Resolves (d : Directory A) : Prop :=
  ∀ name, channelFind d.list name = .done (d.lookup name)

/-- A call meets its condition: if it links a record, no channel has been registered before,
    the type is one that the call creates, and there is room for the end of the name. -/
def CallOk (m : Malloc A) (d : Directory A) (c : Call) : Prop :=
  c.Links m d.list → d.registered = [] ∧ c.Creates ∧ c.name.chars.length < DIGEST_SIZE

/-- The list is valid, and the channels registered are some that were created. -/
structure Directory.Valid (d : Directory A) : Prop where
  list : d.list.Valid
  lt_length : ∀ p ∈ d.registered, p.2 < d.list.channels.length

variable {d : Directory A}

theorem valid_start {head : A} {links : Links A} : (Directory.start head links).Valid where
  list := ⟨List.mem_singleton_self head, rfl, fun _ _ h => nomatch h⟩
  lt_length := fun _ h => absurd h List.not_mem_nil

/-- In a new list nothing is found. -/
theorem resolves_start {head : A} {links : Links A} : (Directory.start head links).Resolves := by
  intro name
  simp [channelFind, Directory.start, channelInit, findElemWithTag, channelCompName, EINVAL,
    Links.init, Directory.lookup]

omit [DecidableEq A] in
/-- Channels created are kept. -/
theorem ChannelList.Valid.more {r : ChannelList A} (h : r.Valid) (more : List Channel) :
    { r with channels := r.channels ++ more }.Valid where
  head_mem := h.head_mem
  head_record := h.head_record
  lt_length u id hu := by
    have := h.lt_length u id hu
    rw [List.length_append]
    omega

omit [DecidableEq A] in
/-- The channels a call goes on with are those before, and at most one more. -/
theorem Call.Linked.more {c : Call} {channels : List Channel} (h : c.Linked r new channels) :
    ∃ more, channels = r.channels ++ more := by
  cases h with
  | error => exact ⟨[], (List.append_nil _).symm⟩
  | channel _ new _ => exact ⟨[new], rfl⟩

/-- A record linked is one of the channels created, or of the error. -/
theorem ChannelList.Valid.link (h : r.Valid) (hm : (m.malloc r.used).isSome)
    (hnew : ∀ id, new = .channel id → id < r.channels.length) : (link m r new).2.Valid := by
  by_cases hnull : new = .null
  · rw [hnull]
    exact h
  obtain ⟨x, hm⟩ := Option.isSome_iff_exists.1 hm
  have hx : x ≠ r.head := fun hx => m.fresh _ _ hm (hx ▸ h.head_mem)
  rw [link_eq hm hnull]
  refine ⟨List.mem_cons_of_mem _ h.head_mem, ?_, fun u id hu => ?_⟩
  · simp [Function.update_of_ne hx.symm, h.head_record]
  · simp only [Function.update_apply] at hu
    split_ifs at hu with hux
    · exact hnew id hu
    · exact h.lt_length u id hu

omit [DecidableEq A] in
/-- The number of what a call links is that of a channel. -/
theorem Call.Linked.lt_length {c : Call} {channels : List Channel} (h : c.Linked r new channels)
    {id : Nat} (hid : new = .channel id) : id < channels.length := by
  cases h with
  | error => cases hid
  | channel _ new _ =>
    cases hid
    simp

omit [DecidableEq A] in
theorem registeredWith_of_ne {p : Ptr} (hp : ∀ id, p ≠ .channel id) (name : Name) :
    d.registeredWith name p = d.registered := by
  cases p with
  | channel id => exact absurd rfl (hp id)
  | null | error => rfl

/-- Every call leaves a valid directory. -/
theorem valid_step (h : d.Valid) (c : Call) : (d.step m c).Valid := by
  have hstep := perform_step m d.list c
  rw [Directory.step]
  generalize c.perform m d.list = made at hstep
  cases hstep with
  | kept hno p hp more =>
    refine ⟨h.list.more more, fun p' hp' => ?_⟩
    rw [registeredWith_of_ne hp] at hp'
    have := h.lt_length p' hp'
    rw [List.length_append]
    omega
  | linked hl new channels hlinked =>
    obtain ⟨more, hmore⟩ := hlinked.more
    have hlist : { d.list with channels := channels }.Valid := hmore ▸ h.list.more more
    have hlen : (link m { d.list with channels := channels } new).2.channels = channels := by
      obtain ⟨x, hm⟩ := Option.isSome_iff_exists.1 hl.2
      cases new <;> simp [link, hm]
    refine ⟨hlist.link hl.2 fun id hid => hlinked.lt_length hid, fun p' hp' => ?_⟩
    simp only [hlen]
    have hold (hreg : p' ∈ d.registered) : p'.2 < channels.length := by
      have := h.lt_length p' hreg
      rw [hmore, List.length_append]
      omega
    cases new with
    | null | error => exact hold hp'
    | channel id =>
      rcases List.mem_append.1 hp' with hreg | hnew
      · exact hold hreg
      · rw [List.mem_singleton.1 hnew]
        exact hlinked.lt_length rfl

/-- A name finds the channel linked last if the names agree as far as the channel has its
    name, and nothing if not. -/
theorem find_channel (hv : d.list.Valid) (hm : (m.malloc d.list.used).isSome) {new : Channel}
    {name : Name} (hname : new.name = name.strncpy) (name' : Name) :
    channelFind (link m { d.list with channels := d.list.channels ++ [new] }
        (.channel d.list.channels.length)).2 name' =
      .done (if name.chars.take DIGEST_SIZE = name'.chars.take DIGEST_SIZE
        then .channel d.list.channels.length else .null) := by
  obtain ⟨x, hm⟩ := Option.isSome_iff_exists.1 hm
  rw [channelFind_linked (hv.more [new]) (by exact hm) (by simp)]
  have hcmp : new.name.strncmp name' = 0 ↔
      name.chars.take DIGEST_SIZE = name'.chars.take DIGEST_SIZE := by
    rw [hname, Name.strncmp, Memdb.strncmp_eq_zero (Name.nul_free _) name'.nul_free,
      Name.strncpy, List.take_take, Nat.min_self]
  simp [hcmp]

/-- A call from a directory in which names resolve leaves one exactly if it meets its
    condition. -/
theorem resolves_step_iff (hv : d.Valid) (h : d.Resolves) (c : Call) :
    (d.step m c).Resolves ↔ CallOk m d c := by
  have hstep := perform_step m d.list c
  rw [Directory.step, CallOk]
  generalize c.perform m d.list = made at hstep
  cases hstep with
  | kept hno p hp more =>
    refine iff_of_true (fun name => ?_) fun hl => absurd hl hno
    rw [channelFind_channels hv.list more, h name, registeredWith_of_ne hp]
    rfl
  | linked hl new channels hlinked =>
    simp only [hl, true_imp_iff]
    cases hlinked with
    | error hcreates =>
      -- What is linked is no channel: no name can be looked up.
      refine iff_of_false (fun hr => ?_) (fun hok => hcreates hok.2.1)
      obtain ⟨x, hm⟩ := Option.isSome_iff_exists.1 hl.2
      have hfind := hr Name.empty
      rw [channelFind_linked (by exact hv.list) (by exact hm) (by simp)] at hfind
      cases hfind
    | channel hcreates new hname =>
      have hfind := find_channel hv.list hl.2 hname
      rw [Directory.registeredWith]
      refine ⟨fun hr => ?_, fun hok name' => ?_⟩
      · simp only [Directory.Resolves, hfind, Outcome.done.injEq] at hr
        have hnil : d.registered = [] := by
          -- A channel registered before is no longer found.
          by_contra hne
          obtain ⟨⟨name₀, id₀⟩, registered, hreg⟩ := List.exists_cons_of_ne_nil hne
          have hlt := hv.lt_length (name₀, id₀) (by simp [hreg])
          have h₀ := hr name₀
          rw [Directory.lookup, hreg, List.cons_append, List.lookup_cons_self] at h₀
          split_ifs at h₀
          cases h₀
          exact absurd hlt (Nat.lt_irrefl _)
        refine ⟨hnil, hcreates, Nat.lt_of_not_le fun hlen => ?_⟩
        -- A name that goes on where the room ends finds the same channel.
        let longer : Name := ⟨c.name.chars ++ [1], by simpa using c.name.nul_free⟩
        have hne : longer ≠ c.name := fun heq => by simpa [longer] using congrArg Name.chars heq
        have h₁ := hr longer
        rw [if_pos (List.take_append_of_le_length hlen).symm, Directory.lookup, hnil] at h₁
        simp [List.lookup_cons, beq_false_of_ne hne] at h₁
      · rw [hfind, Directory.lookup, hok.1]
        by_cases heq : name' = c.name
        · simp [heq]
        · have hne : c.name.chars.take DIGEST_SIZE ≠
              name'.chars.take DIGEST_SIZE := fun htake => by
            rw [List.take_of_length_le (Nat.le_of_lt hok.2.2)] at htake
            have hlen := congrArg List.length htake
            rw [List.length_take] at hlen
            have hshort : name'.chars.length ≤ DIGEST_SIZE := by omega
            rw [List.take_of_length_le hshort] at htake
            exact heq (Name.ext htake.symm)
          simp [hne, List.lookup_cons, beq_false_of_ne heq]

/-- In a run, every name finds the channel registered under it and no other one, after every
    call, exactly if every call that links a record finds no channel registered before,
    creates a channel of its kind, and has a name with the room for its end. -/
theorem resolves_iff (m : Malloc A) (head : A) (links : Links A) (calls : List Call) :
    Throughout (Directory.step m) Directory.Resolves (.start head links) calls ↔
      Steps (Directory.step m) (CallOk m) (.start head links) calls :=
  throughout_iff_steps (W := Directory.Valid) (D := fun _ _ => True)
    (fun _ c hv _ _ _ => valid_step hv c) (fun _ c hv h _ => resolves_step_iff hv h c)
    valid_start resolves_start (steps_of_forall fun _ _ => trivial)

/-- Two channels registered under the names `a` and `b`: the first one is no longer found. -/
theorem not_resolves : ∃ (m : Malloc Nat) (links : Links Nat), ¬ Throughout (Directory.step m)
    Directory.Resolves (.start 0 links)
    [.register ⟨[97], by decide⟩ CHANNEL_READ true true,
      .register ⟨[98], by decide⟩ CHANNEL_READ true true] := by
  refine ⟨.counting, ⟨id, id⟩, fun h => ?_⟩
  have hfind := h _ (List.prefix_refl _) ⟨[97], by decide⟩
  revert hfind
  decide

end Cube.Registry
