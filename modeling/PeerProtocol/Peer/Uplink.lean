import PeerProtocol.Peer.HostSession
import PeerProtocol.Peer.Log

/-!
# peer — the two ends of an uplink

A client's messages on their way to the host: what leaves the client, and what
the host keeps of it, each end on its own. `World.Uplink` puts the network
between them.

At the client's end, a message is queued once, and may be sent many times.
What matters of a client is its `Outbox`: under which id it sends, what data
it has queued, in order, and how much of that it has sent. A session response
changes the actor ids of the queued messages, and nothing that the outbox
shows. Only `peer_queue` adds to it, and only a tick sends.

At the host's end, a slot keeps every message that is ready, at its index,
whatever else comes in; it keeps its ids from when it is bound; and what the
mutual queue has under an actor id is the host's own or came from a bound slot
of that position.

## Results

* `Outbox`, `outbox_act` — what an action does to a client's outbox;
  `OutboxStep.keeps`, `OutboxStep.sent`, `OutboxStep.small` — what follows.
* `ZeroGaps`, `zeroGaps_input` — the gaps of a client's mutual queue are zero
  messages, so that even a heartbeat's trail over a gap carries something
  known.
* `peerTick_heartbeat` — the heartbeat of a client, with the trail that its
  generator picks.
* `SlotKept`, `SlotsKept` — what a slot of a host keeps: its ids, and all
  messages it holds.
* `HasOrigin`, `SessionInv.origins` — an actor id of the mutual queue is the
  host's, or that of a slot that is bound.
-/

namespace PeerProtocol

open Lib

-- ---------------------------------------------------------------------------
-- The client's end
-- ---------------------------------------------------------------------------

/-- What a client has queued for its host, under its id, and how much of it it
has sent. -/
structure Outbox where
  id : Int
  data : List (List UInt8)
  sent : Nat

/-- The outbox of a slot: what is sent from it. -/
def PeerSlot.outbox (slot : PeerSlot) : Outbox where
  id := slot.localEnd.id
  data := slot.queue.map (·.data)
  sent := slot.outIndex

/-- The outbox of a client is that of its first slot. -/
def Peer.outbox (client : Peer) : Option Outbox := (client.slots[0]?).map (·.outbox)

/-- A client that has a slot has an outbox. -/
theorem outbox_of_slot {client : Peer} {own : PeerSlot} (hOwn : client.slots[0]? = some own) :
    client.outbox = some own.outbox := by
  rw [Peer.outbox, hOwn, Option.map_some]

/-- What an action does to an outbox: nothing, or it is opened, or sent from, or
added to. The last two name the action that does it. -/
inductive OutboxStep (a : PeerAction) : Option Outbox → Option Outbox → Prop where
  | same (box : Option Outbox) : OutboxStep a box box
  | opened (id : Int) : OutboxStep a none (some { id, data := [], sent := 0 })
  | ticked {e : Int} {box : Outbox} (sent : Nat) (hTick : a = .tick e) :
      OutboxStep a (some box) (some { box with sent })
  | queued {box : Outbox} {data : List UInt8} (hQueue : a = .queue (some data)) :
      OutboxStep a (some box) (some { box with data := box.data ++ [data] })

/-- A slot was replaced by one with the same outbox. -/
theorem outbox_set {client : Peer} {j : Nat} {slot slot' : PeerSlot}
    (hSlot : client.slots[j]? = some slot) (hSame : slot'.outbox = slot.outbox) :
    ((client.slots.set j slot')[0]?).map (·.outbox) = client.outbox := by
  rcases Nat.eq_zero_or_pos j with rfl | hj
  · rw [Peer.outbox, List.getElem?_set_self (List.getElem?_eq_some_iff.mp hSlot).1, hSlot]
    simp [hSame]
  · rw [Peer.outbox, List.getElem?_set_ne (by omega)]

theorem outbox_modify (client : Peer) (j : Nat) {f : PeerSlot → PeerSlot}
    (hSame : ∀ slot, (f slot).outbox = slot.outbox) :
    ((client.slots.modify j f)[0]?).map (·.outbox) = client.outbox := by
  rw [Peer.outbox, List.getElem?_modify]
  cases client.slots[0]? with
  | none => rfl
  | some slot =>
    by_cases hj : j = 0
    · simp [hj, hSame]
    · simp [hj]

/-- An input leaves the outbox: a session response only relabels what is there, so
the data that the client has queued and the count of what it has sent stay. -/
theorem outbox_input {client client' : Peer} {packets : List PeerPacket} {s : Status}
    (hMode : client.mode = .client) (hInput : peerInput client packets = .ok (s, client')) :
    client'.outbox = client.outbox := by
  have hBoth : client'.mode = .client ∧ client'.outbox = client.outbox := by
    refine peerInput_invariant (I := fun p => p.mode = .client ∧ p.outbox = client.outbox) ?_ ?_ ?_
      hInput ⟨hMode, rfl⟩
    · intro p packet s cs al _ hp _
      exact hp
    · rintro start p p' packet j s cs al chunk _ _ _ _ ⟨hClient, hp⟩ _ hStep
      -- Only a session response touches the slot, and it relabels the queue.
      cases hStep with
      | hostSkip => exact ⟨hClient, hp⟩
      | hostStore hHost => exact absurd hHost (by rw [hClient]; decide)
      | clientSkip => exact ⟨hClient, hp⟩
      | clientRespond _ hSlot =>
        refine ⟨hClient, (outbox_set hSlot ?_).trans hp⟩
        simp [PeerSlot.outbox, PeerSlot.respond, Function.comp_def]
      | clientLearn => exact ⟨hClient, hp⟩
    · rintro p packet _ ⟨hClient, hp⟩ _ _
      rw [assignSlot, if_pos (Or.inl (by rw [hClient]; decide))]
      exact ⟨hClient, hp⟩
  exact hBoth.2

theorem outbox_tick {client client' : Peer} {e : Int} {s : Status} {ps : List PeerPacket}
    (hTick : peerTick client e = .ok (s, ps, client')) :
    OutboxStep (.tick e) client.outbox client'.outbox := by
  have hSlots := (peerTick_frame hTick).slots
  unfold Peer.outbox
  cases hOwn : client.slots[0]? with
  | none =>
    rw [List.getElem?_eq_none_iff] at hOwn
    rw [List.getElem?_eq_none (by rw [← hSlots.length_eq]; exact hOwn)]
    exact .same _
  | some slot =>
    obtain ⟨slot', hOwn', hTicked⟩ := getElem?_of_forall₂ hSlots hOwn
    have hSame : slot'.outbox = { slot.outbox with sent := slot'.outIndex } := by
      simp only [PeerSlot.outbox, hTicked.localEnd, hTicked.queue]
    rw [hOwn', Option.map_some, Option.map_some, hSame]
    exact .ticked _ rfl

/-- The first slot that is opened gives the client its outbox. -/
theorem outbox_open {client : Peer} (hAlloc : client.alloc = .reliable) (a : PeerAction)
    (ids : Option (List Int)) : OutboxStep a client.outbox (peerOpen client ids).2.outbox := by
  rw [peerOpen_reliable hAlloc]
  unfold Peer.outbox
  cases hSlots : client.slots with
  | nil =>
    cases ids.getD [] with
    | nil => exact .same _
    | cons id ids =>
      have hFirst : ((id :: ids).mapIdx (openSlot client.mode))[0]? =
          some (openSlot client.mode 0 id) := by simp
      simp only [List.nil_append, hFirst]
      exact .opened id
  | cons slot slots => exact .same _

/-- **What an action does to an outbox**, without allocation failures: a queued
message is appended, a tick may move the count of what was sent, opening the first
slot creates it, and everything else leaves it alone. -/
theorem outbox_act {client client' : Peer} {a : PeerAction} {s : Status} {ps : List PeerPacket}
    (hMode : client.mode = .client) (hAlloc : client.alloc = .reliable)
    (hAct : client.act a = .ok (s, ps, client')) : OutboxStep a client.outbox client'.outbox := by
  have hCase := Peer.act_cases hAct
  -- an action that leaves the outbox
  have hKeep (hSame : client'.outbox = client.outbox) :
      OutboxStep a client.outbox client'.outbox := hSame ▸ .same _
  cases a with
  | openSlots ids =>
    obtain ⟨_, rfl⟩ := hCase
    exact outbox_open hAlloc _ ids
  | connect serverId =>
    obtain ⟨_, rfl⟩ := hCase
    refine hKeep ?_
    obtain ⟨i, hConnect⟩ := peerConnect_modifies client serverId
    rw [hConnect]
    exact outbox_modify client _ fun _ => rfl
  | queue messageData =>
    obtain ⟨_, rfl⟩ := hCase
    cases messageData with
    | none => exact .same _
    | some data =>
      -- without a slot the client refuses the message
      cases hSlots : client.slots with
      | nil =>
        refine hKeep ?_
        simp only [peerQueue, hMode, hSlots]
      | cons slot slots =>
        have hOld : client.outbox = some slot.outbox := by simp [Peer.outbox, hSlots]
        have hNew : (peerQueue client (some data)).2.outbox =
            some { slot.outbox with data := slot.outbox.data ++ [data] } := by
          rw [peerQueue_client hMode hAlloc hSlots]
          simp [Peer.outbox, PeerSlot.outbox, Entry.message]
        rw [hOld, hNew]
        exact .queued rfl
  | input packets => exact hKeep (outbox_input hMode hCase.2)
  | tick e => exact outbox_tick hCase
  | setAddress j size data =>
    obtain ⟨_, rfl⟩ := hCase
    exact hKeep (outbox_modify client _ fun _ => rfl)
  | resolve j id =>
    obtain ⟨_, rfl⟩ := hCase
    exact hKeep (outbox_modify client _ fun _ => rfl)

/-- What has been queued stays, in order and under the same id. -/
theorem OutboxStep.keeps {a : PeerAction} {box box' : Option Outbox} (h : OutboxStep a box box')
    {old : Outbox} (hOld : box = some old) :
    ∃ new, box' = some new ∧ new.id = old.id ∧ old.data <+: new.data := by
  cases h with
  | same => exact ⟨old, hOld, rfl, List.prefix_rfl⟩
  | opened => cases hOld
  | ticked =>
    obtain rfl := Option.some.inj hOld
    exact ⟨_, rfl, rfl, List.prefix_rfl⟩
  | queued =>
    obtain rfl := Option.some.inj hOld
    exact ⟨_, rfl, rfl, List.prefix_append _ _⟩

/-- What is not a tick sends nothing. -/
theorem OutboxStep.sent {a : PeerAction} {box box' : Option Outbox} (h : OutboxStep a box box')
    (hNoTick : ∀ e, a ≠ .tick e) {old : Outbox} (hOld : box = some old) :
    ∃ new, box' = some new ∧ new.id = old.id ∧ new.sent = old.sent := by
  cases h with
  | same => exact ⟨old, hOld, rfl, rfl⟩
  | opened => cases hOld
  | ticked _ hTick => exact absurd hTick (hNoTick _)
  | queued =>
    obtain rfl := Option.some.inj hOld
    exact ⟨_, rfl, rfl, rfl⟩

/-- Everything in the outbox fits a packet. -/
def SmallOutbox (box : Option Outbox) : Prop :=
  ∀ out, box = some out → ∀ data ∈ out.data, data.length ≤ peerMaxMessageSize

/-- It stays so if what is queued fits: no other action adds a message, and none
changes the data of those that are there. -/
theorem OutboxStep.small {a : PeerAction} {box box' : Option Outbox} (h : OutboxStep a box box')
    (hQueues : a.QueuesSmall) (hSmall : SmallOutbox box) : SmallOutbox box' := by
  cases h with
  | same => exact hSmall
  | opened =>
    rintro _ ⟨⟩ data hData
    cases hData
  | @ticked _ box =>
    rintro _ ⟨⟩
    exact hSmall box rfl
  | queued hQueue =>
    subst hQueue
    rintro _ ⟨⟩ data hData
    rcases List.mem_append.mp hData with hOld | hNew
    · exact hSmall _ rfl data hOld
    · rw [List.mem_singleton.mp hNew]
      exact hQueues

-- ---------------------------------------------------------------------------
-- The gaps of the mutual queue
-- ---------------------------------------------------------------------------

/-- What is not ready is a zero message, with actor id 0 and without data. -/
def ZeroGaps (q : PeerQueue) : Prop := ∀ m ∈ q, m.isReady = true ∨ m = PeerMessage.zero

/-- An insertion only makes such gaps. -/
theorem zeroGaps_queueInsert {q q' : PeerQueue} {index time actor : Int} {data : List UInt8}
    {al al' : Allocator} {s : Status} (h : ZeroGaps q)
    (hInsert : queueInsert q index time actor data al = .ok (s, q', al')) : ZeroGaps q' := by
  intro m hm
  rcases (queueInsert_cases hInsert).2 with rfl | ⟨i, _, _, rfl | rfl⟩
  · exact h m hm
  · exact (mem_grown hm).elim (h m) Or.inr
  · rcases mem_stored hm with hOld | hZero | rfl
    · exact h m hOld
    · exact Or.inr hZero
    · exact Or.inl rfl

theorem zeroGaps_input {client client' : Peer} {packets : List PeerPacket} {s : Status}
    (h : ZeroGaps client.queue) (hInput : peerInput client packets = .ok (s, client')) :
    ZeroGaps client'.queue := by
  refine peerInput_invariant (I := fun p => ZeroGaps p.queue) ?_ ?_ ?_ hInput h
  · intro p packet s cs al _ hp _
    exact hp
  · intro start p p' packet j s cs al chunk _ _ _ _ hp _ hStep
    -- Only an insertion touches the mutual queue.
    cases hStep with
    | hostSkip => exact hp
    | hostStore => exact hp
    | clientSkip => exact hp
    | clientRespond => exact hp
    | clientLearn _ _ _ _ hInsert => exact zeroGaps_queueInsert hp hInsert
  · intro p packet _ hp _ _
    rcases assignSlot_cases p packet with hSame | ⟨_, _, _, _, _, _, _, _, _, _, hSet⟩
    · rw [hSame]
      exact hp
    · rw [hSet]
      exact hp

-- ---------------------------------------------------------------------------
-- The heartbeat
-- ---------------------------------------------------------------------------

/-- The heartbeat of a client, with the trail that its generator picks. The trail
comes from the mutual queue at the positions below the slot's cursor, which counts
messages of another queue. -/
theorem peerTick_heartbeat {client client' : Peer} {own : PeerSlot} {slots : List PeerSlot} {e : Int}
    {s : Status} {ps : List PeerPacket} (hMode : client.mode = .client)
    (hSlots : client.slots = own :: slots) (hAlloc : client.alloc = .reliable)
    (hValid : ValidElapsed client e) (hMutual : ∀ m ∈ client.queue, m.Small)
    (hNone : own.queue.length ≤ own.outIndex) (hClock : (own.tickClock e).clockHeartbeat ≤ 0)
    (hTick : peerTick client e = .ok (s, ps, client')) :
    Carried own.localEnd.id own.remoteEnd.id ps
      (heartbeatChunk 0 client.actor ::
        chunksAt client.queue (trailIndices client.mt64 own.outIndex).1) := by
  have hInside : own.outIndex ≤ client.queue.length := by
    have hTrail := trailInside_of_peerTick hMode hSlots hAlloc hValid hTick
    unfold TrailInside at hTrail
    rw [tickClock_queue, tickClock_outIndex] at hTrail
    exact hTrail hNone hClock
  obtain ⟨packets, hSend, hCarried⟩ := sendHeartbeat_carried hInside hMutual 0 client.actor
    own.localEnd.id own.remoteEnd.id
    { status := kitOk, packets := [], mt64 := client.mt64, alloc := client.alloc } hAlloc
  have hClocks : (client.tickClock e).slots = own.tickClock e :: slots.map (·.tickClock e) := by
    rw [tickClock_slots, hSlots, List.map_cons]
  rw [peerTick_client_eq hValid hMode, clientSend, hClocks] at hTick
  dsimp only at hTick
  rw [if_neg (by rw [tickClock_queue, tickClock_outIndex]; omega), if_pos hClock, tickClock_outIndex,
    tickClock_localEnd, tickClock_remoteEnd, show (client.tickClock e).queue = client.queue from rfl,
    show (client.tickClock e).actor = client.actor from rfl,
    show (client.tickClock e).mt64 = client.mt64 from rfl,
    show (client.tickClock e).alloc = client.alloc from rfl, hSend, ok_bind] at hTick
  -- nothing was in the list of packets before
  obtain rfl : packets = ps := by simpa using (Prod.mk.inj (Prod.mk.inj (Except.ok.inj hTick)).2).1
  exact hCarried

-- ---------------------------------------------------------------------------
-- The host's end
-- ---------------------------------------------------------------------------

/-- The messages that are ready stay, at their indices. -/
def KeepsReady (q q' : PeerQueue) : Prop :=
  ∀ (i : Nat) (m : PeerMessage), q[i]? = some m → m.isReady = true → q'[i]? = some m

theorem keepsReady_refl (q : PeerQueue) : KeepsReady q q := fun _ _ hm _ => hm

theorem KeepsReady.trans {q r t : PeerQueue} (h : KeepsReady q r) (h' : KeepsReady r t) :
    KeepsReady q t := fun i m hm hReady => h' i m (h i m hm hReady) hReady

/-- A longer queue has the old entries. -/
theorem getElem?_grown {q : PeerQueue} {i k : Nat} {m : PeerMessage} (hm : q[k]? = some m) :
    (grown q i)[k]? = some m := by
  unfold grown
  split
  · exact hm
  · rw [queueGrow, List.getElem?_append_left (List.getElem?_eq_some_iff.mp hm).1, hm]

/-- An insertion keeps what is ready, with whatever status it ends. -/
theorem keepsReady_queueInsert {q q' : PeerQueue} {index time actor : Int} {data : List UInt8}
    {al al' : Allocator} {s : Status}
    (hInsert : queueInsert q index time actor data al = .ok (s, q', al')) : KeepsReady q q' := by
  intro k m hm hReady
  rcases (queueInsert_cases hInsert).2 with rfl | ⟨i, _, hFree, rfl | rfl⟩
  · exact hm
  · exact getElem?_grown hm
  · -- a message that is ready is not where one is stored
    have hNe : i ≠ k := by
      rintro rfl
      rw [hm, Option.any_some, hReady] at hFree
      cases hFree
    rw [stored, List.getElem?_set_ne hNe]
    exact getElem?_grown hm

/-- A message that is ready after an insertion was there before, or was inserted: at
the index of the insertion, where nothing was ready. So nothing becomes ready by the
growing of the queue alone. -/
theorem ready_of_queueInsert {q q' : PeerQueue} {index time actor : Int} {data : List UInt8}
    {al al' : Allocator} {s : Status}
    (hInsert : queueInsert q index time actor data al = .ok (s, q', al'))
    {k : Nat} {m : PeerMessage} (hm : q'[k]? = some m) (hReady : m.isReady = true) :
    q[k]? = some m ∨ (index = k ∧ (q[k]?).any (·.isReady) = false ∧ m.data = data) := by
  -- What the queue grows by is not ready, so it is not this message.
  have hGrown {i : Nat} (hOld : (grown q i)[k]? = some m) : q[k]? = some m := by
    unfold grown at hOld
    split at hOld
    · exact hOld
    · rw [queueGrow, List.getElem?_append] at hOld
      split at hOld
      · exact hOld
      · obtain ⟨_, rfl⟩ := List.getElem?_eq_some_iff.mp hOld
        rw [List.getElem_replicate] at hReady
        cases hReady
  rcases (queueInsert_cases hInsert).2 with rfl | ⟨i, rfl, hFree, rfl | rfl⟩
  · exact Or.inl hm
  · exact Or.inl (hGrown hm)
  · rcases getElem?_set_cases hm with ⟨rfl, rfl⟩ | ⟨_, hOld⟩
    · exact Or.inr ⟨rfl, hFree, rfl⟩
    · exact Or.inl (hGrown hOld)

/-- What a slot of a host keeps: its ids, as `SlotMoved` says, and the messages it
holds. -/
structure SlotKept (slot slot' : PeerSlot) : Prop extends SlotMoved slot slot' where
  ready : KeepsReady slot.queue slot'.queue

/-- Every slot of a host is still there, with what it keeps. -/
def SlotsKept (host host' : Peer) : Prop :=
  ∀ (j : Nat) (slot : PeerSlot), host.slots[j]? = some slot →
    ∃ slot', host'.slots[j]? = some slot' ∧ SlotKept slot slot'

theorem slotsKept_refl (host : Peer) : SlotsKept host host :=
  fun _ slot hSlot => ⟨slot, hSlot, slotMoved_refl slot, keepsReady_refl _⟩

/-- Every slot of a host is still there, and what is ready in its queue. -/
def SlotsReady (host host' : Peer) : Prop :=
  ∀ (j : Nat) (slot : PeerSlot), host.slots[j]? = some slot →
    ∃ slot', host'.slots[j]? = some slot' ∧ KeepsReady slot.queue slot'.queue

theorem SlotsReady.set {start host : Peer} (h : SlotsReady start host) {j : Nat}
    {slot slot' : PeerSlot} (hSlot : host.slots[j]? = some slot)
    (hReady : KeepsReady slot.queue slot'.queue) :
    SlotsReady start { host with slots := host.slots.set j slot' } := by
  intro i first hFirst
  obtain ⟨old, hOld, hKeeps⟩ := h i first hFirst
  by_cases hij : j = i
  · subst hij
    rw [hSlot, Option.some.injEq] at hOld
    subst hOld
    exact ⟨slot', List.getElem?_set_self (List.getElem?_eq_some_iff.mp hSlot).1, hKeeps.trans hReady⟩
  · exact ⟨old, (List.getElem?_set_ne hij).trans hOld, hKeeps⟩

theorem SlotsReady.chunk {start host host' : Peer} {j : Nat} {c : Chunk} (h : SlotsReady start host)
    (hMode : host.mode = .host) (hStep : ChunkStep j c host host') : SlotsReady start host' := by
  cases hStep.onHost hMode with
  | skip => exact h
  | store hSlot _ _ _ _ _ hInsert =>
    exact h.set hSlot (keepsReady_queueInsert hInsert)

theorem SlotsReady.assign {start host : Peer} (h : SlotsReady start host) (packet : PeerPacket) :
    SlotsReady start (assignSlot host packet).2 := by
  rcases assignSlot_cases host packet with hSame | ⟨j, _, slot, _, _, _, _, _, hSlot, _, hSet⟩
  · rw [hSame]
    exact h
  · rw [hSet]
    exact h.set hSlot (keepsReady_refl _)

/-- With what the ids do, that is all a slot keeps. -/
theorem SlotsReady.kept {host host' : Peer} (h : SlotsReady host host')
    (hMoved : SlotsMoved host host') : SlotsKept host host' := by
  intro j slot hSlot
  obtain ⟨slot', hSlot', hSlotMoved⟩ := hMoved j slot hSlot
  obtain ⟨again, hAgain, hReady⟩ := h j slot hSlot
  rw [hSlot', Option.some.injEq] at hAgain
  subst hAgain
  exact ⟨slot', hSlot', hSlotMoved, hReady⟩

/-- A call of the host's application changes the queue of no slot: a slot has
the queue and the remote id that it had, or it is new and has no queue. -/
theorem slot_of_hostCall {host host' : Peer} {a : PeerAction} {s : Status} {ps : List PeerPacket}
    (hMode : host.mode = .host) (hAlloc : host.alloc = .reliable) (hCall : a.isHostCall = true)
    (hAct : host.act a = .ok (s, ps, host')) {j : Nat} {slot' : PeerSlot}
    (hSlot' : host'.slots[j]? = some slot') :
    (host.slots[j]? = none ∧ slot'.queue = []) ∨ ∃ slot, host.slots[j]? = some slot ∧
      slot'.queue = slot.queue ∧ slot'.remoteEnd.id = slot.remoteEnd.id := by
  have hCase := Peer.act_cases hAct
  cases a with
  | openSlots ids =>
    obtain ⟨_, rfl⟩ := hCase
    rw [peerOpen_reliable hAlloc] at hSlot'
    rw [List.getElem?_append] at hSlot'
    split at hSlot'
    · exact Or.inr ⟨slot', hSlot', rfl, rfl⟩
    -- behind the old slots there was none, and the new one is empty
    · next hPast =>
      obtain ⟨i, _, rfl⟩ := List.mem_mapIdx.mp (List.mem_of_getElem? hSlot')
      exact Or.inl ⟨List.getElem?_eq_none (by omega), rfl⟩
  | queue messageData =>
    obtain ⟨_, rfl⟩ := hCase
    refine Or.inr ⟨slot', ?_, rfl, rfl⟩
    cases messageData with
    | none => exact hSlot'
    | some data =>
      rw [peerQueue_host hMode hAlloc] at hSlot'
      exact hSlot'
  | tick e =>
    obtain ⟨slot, hSlot, hTicked⟩ := getElem?_of_forall₂_right (peerTick_frame hCase).slots hSlot'
    exact Or.inr ⟨slot, hSlot, hTicked.queue, congrArg PeerEndpoint.id hTicked.remoteEnd⟩
  | setAddress j size data =>
    obtain ⟨_, rfl⟩ := hCase
    obtain ⟨slot, hSlot, rfl | rfl⟩ := exists_of_getElem?_modify hSlot'
    · exact Or.inr ⟨slot', hSlot, rfl, rfl⟩
    · exact Or.inr ⟨slot, hSlot, rfl, rfl⟩
  | connect serverId => cases hCall
  | input packets => cases hCall
  | resolve j id => cases hCall

/-- A call of the host's application is one of its steps. -/
theorem isHostStep_of_isHostCall {a : PeerAction} (hCall : a.isHostCall = true) : a.IsHostStep := by
  cases a with
  | input packets => cases hCall
  | _ => exact hCall

/-- No call of the application takes a message from a slot. -/
theorem SessionInv.kept_call {host host' : Peer} {a : PeerAction} {s : Status} {ps : List PeerPacket}
    (h : SessionInv host) (hCall : a.isHostCall = true) (hAct : host.act a = .ok (s, ps, host')) :
    SlotsKept host host' := by
  have hMoved := (h.act (isHostStep_of_isHostCall hCall) hAct).2
  refine SlotsReady.kept (fun j slot hSlot => ?_) hMoved
  obtain ⟨slot', hSlot', _⟩ := hMoved j slot hSlot
  refine ⟨slot', hSlot', ?_⟩
  rcases slot_of_hostCall h.mode h.alloc hCall hAct hSlot' with ⟨hNone, _⟩ | ⟨old, hOld, hQueue, _⟩
  · rw [hSlot] at hNone
    cases hNone
  · rw [hSlot, Option.some.injEq] at hOld
    rw [hQueue, hOld]
    exact keepsReady_refl _

-- ---------------------------------------------------------------------------
-- Where an actor id comes from
-- ---------------------------------------------------------------------------

/-- The actor id is the host's own, or that of a slot that is bound. -/
def HasOrigin (host : Peer) (actor : Int) : Prop :=
  actor = 0 ∨ ∃ (a : Nat) (slot : PeerSlot), actor = a ∧ host.slots[a]? = some slot ∧
    slot.remoteEnd.id ≠ peerUndefined

/-- An origin stays one: a slot is never unbound. -/
theorem HasOrigin.moved {host host' : Peer} {actor : Int} (h : HasOrigin host actor)
    (hMoved : SlotsMoved host host') : HasOrigin host' actor := by
  rcases h with hZero | ⟨a, slot, hActor, hSlot, hBound⟩
  · exact Or.inl hZero
  · obtain ⟨slot', hSlot', hSlotMoved⟩ := hMoved a slot hSlot
    refine Or.inr ⟨a, slot', hActor, hSlot', ?_⟩
    rw [hSlotMoved.remoteId hBound]
    exact hBound

/-- **The actor ids of the mutual queue**: an action of the host adds its own,
or those of bound slots. -/
theorem SessionInv.origins {host host' : Peer} {a : PeerAction} {s : Status} {ps : List PeerPacket}
    (h : SessionInv host) (hMay : a.IsHostStep) (hOrigins : ∀ m ∈ host.queue, HasOrigin host m.actor)
    (hAct : host.act a = .ok (s, ps, host')) : ∀ m ∈ host'.queue, HasOrigin host' m.actor := by
  have hMoved := (h.act hMay hAct).2
  have hCase := Peer.act_cases hAct
  -- a message that was there
  have hOld : ∀ m ∈ host.queue, HasOrigin host' m.actor := fun m hm => (hOrigins m hm).moved hMoved
  cases a with
  | openSlots ids =>
    obtain ⟨_, rfl⟩ := hCase
    intro m hm
    refine hOld m ?_
    rw [peerOpen_reliable h.alloc] at hm
    exact hm
  | queue messageData =>
    obtain ⟨_, rfl⟩ := hCase
    cases messageData with
    | none => exact hOld
    | some data =>
      intro m hm
      rw [peerQueue_host h.mode h.alloc] at hm
      rcases List.mem_append.mp hm with hBefore | hNew
      · exact hOld m hBefore
      · rw [List.mem_singleton.mp hNew]
        exact Or.inl h.actor
  | input packets =>
    intro m hm
    rw [(peerInput_host_queue h.mode hCase.2).1] at hm
    exact hOld m hm
  | tick e =>
    by_cases hValid : ValidElapsed host e
    · intro m' hm'
      rw [(h.ticked hValid hCase).queue] at hm'
      rcases mem_merged_queue hm' with ⟨m, hm, rfl | rfl⟩ | ⟨slot, hSlot, m, hm, _, rfl⟩
      · exact hOld _ hm
      · have hSame := hOld m hm
        exact hSame
      · -- merged from a slot that is bound, since it has a message
        obtain ⟨i, hi⟩ := List.mem_iff_getElem?.mp hSlot
        rw [List.getElem?_tail] at hi
        have hActor := (h.actor_of_mem hi hm).2
        have hBound : slot.remoteEnd.id ≠ peerUndefined := by
          intro hNone
          rw [(h.slots (i + 1) slot hi).unbound hNone] at hm
          cases hm
        exact HasOrigin.moved (Or.inr ⟨i + 1, slot, hActor, hi, hBound⟩) hMoved
    · obtain ⟨_, _, rfl⟩ := eq_of_peerTick_invalid hValid hCase
      exact hOld
  | setAddress j size data =>
    obtain ⟨_, rfl⟩ := hCase
    exact hOld
  | connect serverId => cases hMay
  | resolve j id => cases hMay

end PeerProtocol
