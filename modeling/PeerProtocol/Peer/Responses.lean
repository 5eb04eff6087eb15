import PeerProtocol.Model.World
import PeerProtocol.Peer.Delivery
import PeerProtocol.Peer.HostSession

/-!
# peer — one session response a session

A run of a host with everything that it has emitted: the session responses
among its packets are those of the slots that are ready, one each. No client
is answered twice, none is ready without an answer, and no answer names
another slot than the client's own.

The statement needs to find the responses among all packets, so it defines
them as a receiver does: a packet from one of whose chunks the service id of a
session response is read (`isSessionResponse`). Messages of applications
cannot be mistaken for one, whatever their bytes and sizes, because their mode
is another (`serviceOf_chunk`); nor can heartbeats.

## Plan

A tick is taken slot by slot (`SlotPosts`): a slot with a session request is
sent packets of which exactly one is a response, any other slot none. So the
responses of a tick are, in order, those of the slots that had a request
(`responses_of_posts`), and these are the slots that become ready
(`SessionInv.readyAt_tick`). An action that is no tick emits nothing and makes
no slot ready. `SessionsAnswered` is the sum of that over a run; it is kept by
any action, because slots keep their ids once bound.

## Results

* `HostSessions` — what a host's slots satisfy in every state of a run: their
  states, their actor ids, their cursors, and what they hold.
* `SessionsAnswered` — the responses among the packets, and the slots that are
  ready.
* `BoundForever`, `SlotsMoved` — what never changes again.
* `host_sessions` — the run lemma, with all of these.
-/

namespace PeerProtocol

open Lib

-- ---------------------------------------------------------------------------
-- Session responses
-- ---------------------------------------------------------------------------

/-- The service id that a receiver reads from a chunk, if it reads one. -/
def serviceOf (c : Chunk) : Option UInt8 :=
  match readHeader c with
  | .error _ => none
  | .ok header =>
    match readServiceId c header with
    | .error _ => none
    | .ok id => id

/-- One of the chunks of the packet is a session response. -/
def isSessionResponse (packet : PeerPacket) : Bool :=
  (packetChunks packet).any fun c => serviceOf c == some peerMSessionResponse

/-- The service id from the readers. -/
theorem serviceOf_eq {c : Chunk} {header : MessageHeader} {id : Option UInt8}
    (hHeader : readHeader c = .ok header) (hId : readServiceId c header = .ok id) :
    serviceOf c = id := by
  rw [serviceOf, hHeader]
  dsimp only
  rw [hId]

/-- A queued message is no service message, whatever its size: its chunk is written
with the application mode, and so no data that an application queues can pass for a
session response. -/
theorem serviceOf_chunk (m : PeerMessage) (k : Nat) : serviceOf (m.chunk k) = none := by
  cases hHeader : readHeader (m.chunk k) with
  | error _ => rw [serviceOf, hHeader]
  | ok header =>
    refine serviceOf_eq hHeader ?_
    obtain ⟨_, _, hHeader⟩ := bind_eq_ok.mp hHeader
    obtain ⟨mode, hMode, hHeader⟩ := bind_eq_ok.mp hHeader
    obtain ⟨_, _, hHeader⟩ := bind_eq_ok.mp hHeader
    obtain ⟨_, _, hHeader⟩ := bind_eq_ok.mp hHeader
    obtain ⟨_, _, hHeader⟩ := bind_eq_ok.mp hHeader
    rw [PeerMessage.chunk, peerReadMessageMode_encode (by decide), Except.ok.injEq] at hMode
    have hApplication : header.mode = peerMessageModeApplication := by
      rw [← Except.ok.inj hHeader, hMode]
    rw [readServiceId, if_neg]
    rintro ⟨hService, _⟩
    rw [hApplication] at hService
    cases hService

/-- The service id of a service message with at most `PEER_MAX_MESSAGE_SIZE` bytes. -/
theorem serviceOf_service {time actor : Int} (hTime : IsInt64 time) {id : UInt8} {data : List UInt8}
    (hData : (id :: data).length ≤ 993) :
    serviceOf (encode peerMessageModeService peerUndefined time actor (id :: data)) = some id := by
  refine serviceOf_eq
    (readHeader_encode (by decide) ⟨by decide, by decide⟩ hTime hData) ?_
  rw [readServiceId_encode, if_pos]
  refine ⟨rfl, ?_⟩
  dsimp only
  rw [List.length_cons]
  omega

/-- A session response is one for its receiver: its address is small enough for a
packet. -/
theorem serviceOf_sessionResponse {time : Int} (hTime : IsInt64 time) {slot : PeerSlot}
    (hAddress : slot.localEnd.AddressFits) :
    serviceOf (sessionResponseChunk time slot) = some peerMSessionResponse := by
  refine serviceOf_service hTime ?_
  have hLen := hAddress.length_address
  have hHi := hAddress.2
  rw [peerAddressSize] at hHi
  rw [List.length_cons]
  omega

/-- Chunks among which there is no session response. -/
def NoResponse (cs : List Chunk) : Prop := ∀ c ∈ cs, serviceOf c ≠ some peerMSessionResponse

/-- Messages of a queue are such. -/
theorem noResponse_chunksAt (q : PeerQueue) (ks : List Nat) : NoResponse (chunksAt q ks) := by
  intro c hc
  obtain ⟨k, m, _, _, rfl⟩ := mem_chunksAt.mp hc
  rw [serviceOf_chunk]
  nofun

/-- Packets that yield such chunks are no responses. -/
theorem filter_yields {ps : List PeerPacket} {css : List (List Chunk)}
    (h : List.Forall₂ Yields ps css) (hNone : NoResponse css.flatten) :
    ps.filter isSessionResponse = [] := by
  refine List.filter_eq_nil_iff.mpr fun p hp hResponse => ?_
  obtain ⟨cs, hcs, hYields⟩ := exists_of_forall₂_right h.flip hp
  obtain ⟨c, hc, hService⟩ := List.any_eq_true.mp hResponse
  rw [show packetChunks p = cs from Yields.packetChunks_eq hYields] at hc
  exact hNone c (List.mem_flatten.mpr ⟨cs, hcs, hc⟩) (beq_iff_eq.mp hService)

/-- The same for packets that yield a first part of them. -/
theorem filter_posted {src dst : Int} {ps : List PeerPacket} {cs : List Chunk}
    (h : Posted src dst ps cs) (hNone : NoResponse cs) : ps.filter isSessionResponse = [] := by
  obtain ⟨_, css, hYields, hPrefix⟩ := h
  exact filter_yields hYields fun c hc => hNone c (hPrefix.subset hc)

/-- The packet is the session response for the slot, from the listening id. -/
structure Answers (listenId time : Int) (slot : PeerSlot) (p : PeerPacket) : Prop where
  sourceId : p.sourceId = listenId
  destinationId : p.destinationId = slot.remoteEnd.id
  chunks : packetChunks p = [sessionResponseChunk time slot]

/-- One chunk is in one packet, and the others are empty: so one packet is a
response. How the chunk was packed does not matter, as a packet without chunks is no
response. -/
theorem filter_carried {listenId time : Int} {slot : PeerSlot} {ps : List PeerPacket}
    (h : Carried listenId slot.remoteEnd.id ps [sessionResponseChunk time slot])
    (hService : serviceOf (sessionResponseChunk time slot) = some peerMSessionResponse) :
    ∃ p, ps.filter isSessionResponse = [p] ∧ Answers listenId time slot p := by
  obtain ⟨css, hSealed, hFlatten⟩ := h
  induction hSealed with
  | nil => cases hFlatten
  | @cons p cs ps css hHead hTail ih =>
    rw [List.flatten_cons, List.append_eq_singleton_iff] at hFlatten
    have hChunks := hHead.yields.packetChunks_eq
    -- The chunk is in a later packet, and this one is empty; or it is in this one.
    rcases hFlatten with ⟨rfl, hRest⟩ | ⟨rfl, hRest⟩
    · obtain ⟨q, hFilter, hAnswers⟩ := ih hRest
      refine ⟨q, ?_, hAnswers⟩
      rw [List.filter_cons_of_neg (by rw [isSessionResponse, hChunks]; nofun), hFilter]
    · refine ⟨p, ?_, hHead.sourceId, hHead.destinationId, hChunks⟩
      have hNone : ps.filter isSessionResponse = [] := by
        refine filter_yields (yields_of_sealed hTail) ?_
        rw [hRest]
        nofun
      rw [List.filter_cons_of_pos, hNone]
      rw [isSessionResponse, hChunks, List.any_cons, hService]
      rfl

-- ---------------------------------------------------------------------------
-- The responses of one tick
-- ---------------------------------------------------------------------------

/-- A slot with a request is sent one, any other none: neither the messages of a
queue nor a heartbeat are read as a session response, whatever the mutual queue
holds. -/
theorem SlotPosts.responses {listenId time actor : Int} (hTime : IsInt64 time) {queue : PeerQueue}
    {slot slot' : PeerSlot} {ps : List PeerPacket}
    (h : SlotPosts listenId time actor queue slot slot' ps) :
    List.Forall₂ (Answers listenId time) ([slot].filter (·.state == .sessionRequest))
      (ps.filter isSessionResponse) := by
  have hOther (hState : slot.state ≠ .sessionRequest) (hNone : ps.filter isSessionResponse = []) :
      List.Forall₂ (Answers listenId time) ([slot].filter (·.state == .sessionRequest))
        (ps.filter isSessionResponse) := by
    rw [hNone, List.filter_cons_of_neg (by simpa using hState)]
    exact .nil
  -- what is sent to a slot in another state holds no response
  cases h with
  | idle hIdle =>
    refine hOther ?_ rfl
    rcases hIdle with hState | ⟨hState, _⟩ <;> rw [hState] <;> decide
  | response hState hAddress hCarried =>
    obtain ⟨p, hFilter, hAnswers⟩ := filter_carried hCarried (serviceOf_sessionResponse hTime hAddress)
    rw [hFilter, List.filter_cons_of_pos (by rw [hState]; rfl)]
    exact .cons hAnswers .nil
  | messages rng hState _ hPosted =>
    exact hOther (by rw [hState]; decide) (filter_posted hPosted (noResponse_chunksAt _ _))
  | heartbeat rng hState _ _ hPosted =>
    refine hOther (by rw [hState]; decide) (filter_posted hPosted fun c hc => ?_)
    rcases List.mem_cons.mp hc with rfl | hTrail
    · rw [heartbeatChunk, serviceOf_service hTime (by decide)]
      decide
    · exact noResponse_chunksAt _ _ c hTrail

/-- **The responses of a tick** are for the slots that had a session request, in order. -/
theorem responses_of_posts {listenId time actor : Int} (hTime : IsInt64 time) {queue : PeerQueue}
    {slots : List PeerSlot} {sent : List (PeerSlot × List PeerPacket)}
    (h : List.Forall₂ (fun slot r => SlotPosts listenId time actor queue slot r.1 r.2) slots sent) :
    List.Forall₂ (Answers listenId time) (slots.filter (·.state == .sessionRequest))
      ((sent.map Prod.snd).flatten.filter isSessionResponse) := by
  induction h with
  | nil => exact .nil
  | @cons slot r slots sent hHead _ ih =>
    rw [List.map_cons, List.flatten_cons, List.filter_append, ← List.singleton_append,
      List.filter_append]
    exact List.rel_append (hHead.responses hTime) ih

-- ---------------------------------------------------------------------------
-- Runs of a host
-- ---------------------------------------------------------------------------

/-- A move of the host alone: a call of its application, or the input of
packets from sources with an id. -/
def WorldAction.IsHostRun : WorldAction → Prop
  | .host a => a.IsHostStep
  | _ => False

instance : (a : WorldAction) → Decidable a.IsHostRun
  | .host a => inferInstanceAs (Decidable a.IsHostStep)
  | .client _ _ | .toHost _ | .toClient _ _ => .isFalse nofun

/-- A host and everything that it has emitted, before the first call. -/
def hostStart (rng : Mt64) : World := World.start (peerInit .host .reliable rng) []

/-- The packet is the session response of slot `j`: from the id that the host
listens at, to the slot's client, with the slot's position as actor id. -/
def AnswersSlot (host : Peer) (j : Nat) (p : PeerPacket) : Prop :=
  ∃ slot time address, host.slots[j]? = some slot ∧ slot.state = .ready ∧
    p.sourceId = host.listenId ∧ p.destinationId = slot.remoteEnd.id ∧
    packetChunks p =
      [encode peerMessageModeService peerUndefined time j (peerMSessionResponse :: address)]

/-- The slot at position `j` is ready. -/
def ReadyAt (host : Peer) (j : Nat) : Prop :=
  ∃ slot, host.slots[j]? = some slot ∧ slot.state = .ready

/-- The session responses among the packets are those of the slots that are ready,
one each: there is a list of the ready slots, without repetition, in which the
responses were sent. -/
def SessionsAnswered (host : Peer) (sent : List PeerPacket) : Prop :=
  ∃ owners : List Nat, owners.Nodup ∧ (∀ j, j ∈ owners ↔ ReadyAt host j) ∧
    List.Forall₂ (AnswersSlot host) owners (sent.filter isSessionResponse)

/-- The listening slot keeps its id. -/
theorem SlotsMoved.listenId {peer peer' : Peer} (h : SlotsMoved peer peer') (hSome : peer.slots ≠ []) :
    peer'.listenId = peer.listenId := by
  obtain ⟨first, hFirst⟩ : ∃ first, peer.slots[0]? = some first :=
    ⟨_, List.getElem?_eq_getElem (List.length_pos_iff.mpr hSome)⟩
  obtain ⟨first', hFirst', hMoved⟩ := h 0 first hFirst
  rw [Peer.listenId, Peer.listenId, List.head?_eq_getElem?, List.head?_eq_getElem?, hFirst, hFirst',
    Option.map_some, Option.map_some, hMoved.localId]

/-- A slot that is ready stays so. -/
theorem SlotMoved.ready {slot slot' : PeerSlot} (h : SlotMoved slot slot')
    (hReady : slot.state = .ready) : slot'.state = .ready := by
  rcases h.state with hSame | ⟨hEmpty, _⟩ | ⟨hRequest, _⟩
  · exact hSame.trans hReady
  · rw [hReady] at hEmpty
    cases hEmpty
  · rw [hReady] at hRequest
    cases hRequest

/-- A session response stays the one of its slot, which keeps its ids. -/
theorem AnswersSlot.moved {peer peer' : Peer} {j : Nat} {p : PeerPacket} (h : AnswersSlot peer j p)
    (hInv : SessionInv peer) (hMoved : SlotsMoved peer peer') : AnswersSlot peer' j p := by
  obtain ⟨slot, time, address, hSlot, hReady, hSource, hDestination, hChunks⟩ := h
  obtain ⟨slot', hSlot', hSlotMoved⟩ := hMoved j slot hSlot
  have hBound : slot.remoteEnd.id ≠ peerUndefined := by
    intro hNone
    have hEmpty := (hInv.session j slot hSlot).empty_iff.mpr hNone
    rw [hReady] at hEmpty
    cases hEmpty
  refine ⟨slot', time, address, hSlot', hSlotMoved.ready hReady, ?_, ?_, hChunks⟩
  · rw [hMoved.listenId (List.ne_nil_of_mem (List.mem_of_getElem? hSlot))]
    exact hSource
  · rw [hSlotMoved.remoteId hBound]
    exact hDestination

/-- Nothing was emitted, and no slot became ready. -/
theorem SessionsAnswered.silent {peer peer' : Peer} {sent : List PeerPacket}
    (h : SessionsAnswered peer sent) (hInv : SessionInv peer) (hMoved : SlotsMoved peer peer')
    (hReady : ∀ j, ReadyAt peer' j → ReadyAt peer j) : SessionsAnswered peer' sent := by
  obtain ⟨owners, hNodup, hMem, hAnswers⟩ := h
  refine ⟨owners, hNodup, fun j => (hMem j).trans ⟨?_, hReady j⟩,
    hAnswers.imp fun j p hj => hj.moved hInv hMoved⟩
  rintro ⟨slot, hSlot, hState⟩
  obtain ⟨slot', hSlot', hSlotMoved⟩ := hMoved j slot hSlot
  exact ⟨slot', hSlot', hSlotMoved.ready hState⟩

/-- The positions of the slots that have a session request, in order. -/
def Peer.requests (peer : Peer) : List Nat :=
  peer.slots.tail.findIdxs (·.state == .sessionRequest) 1

/-- They lie above the listening slot. -/
theorem mem_requests {peer : Peer} {j : Nat} :
    j ∈ peer.requests ↔
      1 ≤ j ∧ ∃ slot, peer.slots[j]? = some slot ∧ slot.state = .sessionRequest := by
  rw [Peer.requests, List.mem_findIdxs_iff_getElem_sub_pos]
  refine and_congr_right fun hj => ?_
  constructor
  · rintro ⟨hLt, hState⟩
    refine ⟨peer.slots.tail[j - 1], ?_, beq_iff_eq.mp hState⟩
    rw [← List.getElem?_eq_getElem hLt, List.getElem?_tail, Nat.sub_add_cancel hj]
  · rintro ⟨slot, hSlot, hState⟩
    rw [← Nat.sub_add_cancel hj, ← List.getElem?_tail] at hSlot
    obtain ⟨hLt, hGet⟩ := List.getElem?_eq_some_iff.mp hSlot
    exact ⟨hLt, by rw [hGet, hState]; rfl⟩

section Tick

variable {peer peer' : Peer} {e : Int} {s : Status} {ps : List PeerPacket}

/-- A slot is ready after a tick if it was, or had a session request. In particular
no slot becomes ready without having been asked for, and none stops being ready. -/
theorem SessionInv.readyAt_tick (h : SessionInv peer) (hValid : ValidElapsed peer e)
    (hTick : peerTick peer e = .ok (s, ps, peer')) (j : Nat) :
    ReadyAt peer' j ↔ ReadyAt peer j ∨ j ∈ peer.requests := by
  have hTicked := h.ticked hValid hTick
  obtain ⟨posted, hSlots, _, hAll⟩ := peerTick_host_posts h.mode h.alloc hValid
    (fun slot hSlot => (h.slot slot hSlot).cursor) hTick
  -- above the listening slot, what sending does to the state
  have hState {slot : PeerSlot} (hj : 1 ≤ j) (hSlot : peer.slots[j]? = some slot) :
      ∃ slot', peer'.slots[j]? = some slot' ∧
        ((slot.state = .sessionRequest ∧ slot'.state = .ready) ∨
          (slot.state ≠ .sessionRequest ∧ slot'.state = slot.state)) := by
    obtain ⟨slot', _, hSlot', hPosts⟩ := slot_of_posts hSlots hAll hj hSlot
    have hMoved := hPosts.state
    rw [merged_state, tickClock_state] at hMoved
    exact ⟨slot', hSlot', hMoved⟩
  rw [mem_requests]
  constructor
  · rintro ⟨slot', hSlot', hReady⟩
    -- the listening slot is never ready
    have hj : 1 ≤ j := by
      by_contra hZero
      obtain rfl : j = 0 := by omega
      have hEmpty := (h.tick hTick).1.listening slot' hSlot'
      rw [hReady] at hEmpty
      cases hEmpty
    obtain ⟨slot, hSlot⟩ := exists_getElem?_of_length_eq hTicked.length hSlot'
    obtain ⟨slot'', hSlot'', hMoved⟩ := hState hj hSlot
    rw [hSlot', Option.some.injEq] at hSlot''
    subst hSlot''
    rcases hMoved with ⟨hRequest, _⟩ | ⟨_, hSame⟩
    · exact Or.inr ⟨hj, _, hSlot, hRequest⟩
    · exact Or.inl ⟨_, hSlot, hSame.symm.trans hReady⟩
  · rintro (⟨slot, hSlot, hReady⟩ | ⟨hj, slot, hSlot, hRequest⟩)
    · obtain ⟨slot', hSlot', hSlotMoved⟩ := (h.tick hTick).2 j slot hSlot
      exact ⟨slot', hSlot', hSlotMoved.ready hReady⟩
    · obtain ⟨slot', hSlot', ⟨_, hReady⟩ | ⟨hNot, _⟩⟩ := hState hj hSlot
      · exact ⟨slot', hSlot', hReady⟩
      · exact absurd hRequest hNot

/-- The session responses of a tick are those of the slots that had a request, one
for each of them and in the order of the slots; the other packets of the tick are
none. -/
theorem SessionInv.answers_tick (h : SessionInv peer) (hValid : ValidElapsed peer e)
    (hTick : peerTick peer e = .ok (s, ps, peer')) :
    List.Forall₂ (AnswersSlot peer') peer.requests (ps.filter isSessionResponse) := by
  have hTicked := h.ticked hValid hTick
  obtain ⟨posted, hSlots, rfl, hAll⟩ := peerTick_host_posts h.mode h.alloc hValid
    (fun slot hSlot => (h.slot slot hSlot).cursor) hTick
  have hTime := h.toHostInv.isInt64_time hValid hTick
  have hAnswers := responses_of_posts hTime hAll
  rw [List.filter_map, List.forall₂_map_left_iff] at hAnswers
  -- clock and merge leave the states, so the requests are those before the tick
  have hSame : ((fun slot : PeerSlot => slot.state == .sessionRequest) ∘
      fun slot : PeerSlot => (slot.tickClock e).merged) =
        fun slot : PeerSlot => slot.state == .sessionRequest := by
    funext slot
    simp
  rw [hSame] at hAnswers
  refine (forall₂_trans (forall₂_findIdxs _ peer.slots.tail 1) hAnswers).imp fun j p hj => ?_
  obtain ⟨slot, ⟨hPos, hSlot, hRequest⟩, hAnswer⟩ := hj
  rw [List.getElem?_tail, Nat.sub_add_cancel hPos] at hSlot
  rw [beq_iff_eq] at hRequest
  have hBound : slot.remoteEnd.id ≠ peerUndefined := by
    intro hNone
    have hEmpty := (h.session j slot hSlot).empty_iff.mpr hNone
    rw [hRequest] at hEmpty
    cases hEmpty
  obtain ⟨slot', _, hSlot', hPosts⟩ := slot_of_posts hSlots hAll hPos hSlot
  have hReady : slot'.state = .ready := by
    rcases hPosts.state with ⟨_, hReady⟩ | ⟨hNot, _⟩
    · exact hReady
    · exact absurd (by rw [merged_state, tickClock_state]; exact hRequest) hNot
  -- from the listening id, to the client, with its actor id and the address of the slot
  refine ⟨slot', peer'.time, slot.localEnd.address, hSlot', hReady, ?_, ?_, ?_⟩
  · rw [(h.tick hTick).2.listenId (List.ne_nil_of_mem (List.mem_of_getElem? hSlot))]
    exact hAnswer.sourceId
  · rw [(hTicked.slot j slot slot' hPos hSlot hSlot').1.remoteEnd]
    exact hAnswer.destinationId
  · rw [hAnswer.chunks, sessionResponseChunk, merged_actor, tickClock_actor, merged_localEnd,
      tickClock_localEnd, ((h.session j slot hSlot).bound hBound).2]

/-- **One tick**: the slots that had a session request are answered, and are ready
then. The slots that were ready before have had their response in an earlier tick,
and get no other. -/
theorem SessionsAnswered.tick {sent : List PeerPacket} (h : SessionsAnswered peer sent)
    (hInv : SessionInv peer) (hTick : peerTick peer e = .ok (s, ps, peer')) :
    SessionsAnswered peer' (sent ++ ps) := by
  by_cases hValid : ValidElapsed peer e
  swap
  · obtain ⟨_, rfl, rfl⟩ := eq_of_peerTick_invalid hValid hTick
    rw [List.append_nil]
    exact h
  obtain ⟨owners, hNodup, hMem, hAnswers⟩ := h
  refine ⟨owners ++ peer.requests, ?_, ?_, ?_⟩
  · -- no slot both is ready and has a request
    refine List.nodup_append.mpr ⟨hNodup, List.nodup_findIdxs, ?_⟩
    rintro j hOld k hNew rfl
    obtain ⟨slot, hSlot, hReady⟩ := (hMem j).mp hOld
    obtain ⟨_, slot', hSlot', hRequest⟩ := mem_requests.mp hNew
    rw [hSlot, Option.some.injEq] at hSlot'
    rw [← hSlot', hReady] at hRequest
    cases hRequest
  · intro j
    rw [List.mem_append, hMem, hInv.readyAt_tick hValid hTick]
  · rw [List.filter_append]
    exact List.rel_append (hAnswers.imp fun j p hj => hj.moved hInv (hInv.tick hTick).2)
      (hInv.answers_tick hValid hTick)

end Tick

/-- An action other than a tick answers nobody: it emits no packets at all, and the
state of a slot goes from empty to requested there, but never to ready. -/
theorem SessionInv.readyAt_act {peer peer' : Peer} {a : PeerAction} {s : Status}
    {ps : List PeerPacket} (h : SessionInv peer) (hMay : a.IsHostStep)
    (hNoTick : ∀ e, a ≠ .tick e) (hAct : peer.act a = .ok (s, ps, peer')) :
    ps = [] ∧ ∀ j, ReadyAt peer' j → ReadyAt peer j := by
  have hCase := Peer.act_cases hAct
  cases a with
  | openSlots ids =>
    obtain ⟨hNone, rfl⟩ := hCase
    refine ⟨hNone, ?_⟩
    rw [peerOpen_reliable h.alloc]
    rintro j ⟨slot, hSlot, hReady⟩
    have hAll : ∀ k t, peer.slots[k]? = some t → t.state = .ready → ReadyAt peer k :=
      fun k t hk hState => ⟨t, hk, hState⟩
    exact slots_open hAll (fun _ _ _ _ _ hState => by cases hState) j slot hSlot hReady
  | queue messageData =>
    obtain ⟨hNone, rfl⟩ := hCase
    refine ⟨hNone, ?_⟩
    cases messageData with
    | none => exact fun j hj => hj
    | some data =>
      rw [peerQueue_host h.mode h.alloc]
      exact fun j hj => hj
  | input packets =>
    obtain ⟨hNone, hInput⟩ := hCase
    refine ⟨hNone, ?_⟩
    rintro j ⟨slot', hSlot', hReady⟩
    obtain ⟨slot, hSlot⟩ := exists_getElem?_of_length_eq (peerInput_host_queue h.mode hInput).2.2 hSlot'
    obtain ⟨slot'', hSlot'', hTaken⟩ := (h.input hMay hInput).2 j _ hSlot
    rw [hSlot', Option.some.injEq] at hSlot''
    subst hSlot''
    -- a slot that is bound now waits for its response, so it is not ready yet
    rcases hTaken.bind with ⟨hSame, _⟩ | ⟨_, hRequest⟩
    · exact ⟨_, hSlot, hSame.symm.trans hReady⟩
    · rw [hReady] at hRequest
      cases hRequest
  | tick e => exact absurd rfl (hNoTick e)
  | setAddress k size data =>
    obtain ⟨hNone, rfl⟩ := hCase
    refine ⟨hNone, ?_⟩
    rintro j ⟨slot', hSlot', hReady⟩
    obtain ⟨slot, hSlot, rfl | rfl⟩ := exists_of_getElem?_modify hSlot'
    · exact ⟨slot', hSlot, hReady⟩
    · exact ⟨slot, hSlot, hReady⟩
  | connect serverId => cases hMay
  | resolve k id => cases hMay

/-- **Step lemma of the responses**: a tick answers the slots with a session
request, and no other action sends anything or makes a slot ready. -/
theorem SessionsAnswered.act {peer peer' : Peer} {sent : List PeerPacket}
    (h : SessionsAnswered peer sent) (hInv : SessionInv peer) {a : PeerAction} {s : Status}
    {ps : List PeerPacket} (hMay : a.IsHostStep) (hAct : peer.act a = .ok (s, ps, peer')) :
    SessionsAnswered peer' (sent ++ ps) := by
  by_cases hTick : ∃ e, a = .tick e
  · obtain ⟨e, rfl⟩ := hTick
    exact h.tick hInv hAct
  · obtain ⟨rfl, hReady⟩ := hInv.readyAt_act hMay (fun e hEq => hTick ⟨e, hEq⟩) hAct
    rw [List.append_nil]
    exact h.silent hInv (hInv.act hMay hAct).2 hReady

-- ---------------------------------------------------------------------------
-- What a host keeps
-- The invariant once more, in the terms of the data model alone.
-- ---------------------------------------------------------------------------

/-- The slot at a position above the listening slot: what its state says about its
client, its actor id, what it holds and its cursors. -/
structure SlotSession (host : Peer) (j : Nat) (slot : PeerSlot) : Prop where
  empty_iff : slot.state = .empty ↔ slot.remoteEnd.id = peerUndefined
  unbound : slot.state = .empty → slot.queue = [] ∧ slot.inIndex = 0 ∧ slot.outIndex = 0
  actor : slot.state ≠ .empty → slot.actor = j
  -- what the assertion in the merge asks for
  entry : ∀ m ∈ slot.queue, m.isReady = true → m.actor = j ∧ m.actor = slot.actor ∧ m.time = 0
  inIndex : slot.inIndex ≤ slot.queue.length
  taken : ∀ m ∈ slot.queue.take slot.inIndex, m.isReady = true
  outIndex : slot.outIndex ≤ host.queueIndex

/-- All slots of a host are such, the listening slot has no client, and the mutual
queue is ready throughout. It is the invariant of the modules above in the terms of
the source, with no reference to what they were proved for. -/
structure HostSessions (host : Peer) : Prop where
  listening : ∀ slot, host.slots[0]? = some slot →
    slot.state = .empty ∧ slot.remoteEnd.id = peerUndefined
  slot : ∀ j slot, 1 ≤ j → host.slots[j]? = some slot → SlotSession host j slot
  queueIndex : host.queueIndex ≤ host.queue.length
  ready : ∀ m ∈ host.queue, m.isReady = true

theorem SessionInv.sessions {host : Peer} (h : SessionInv host) : HostSessions host where
  listening := fun slot hSlot =>
    have hEmpty := h.listening slot hSlot
    ⟨hEmpty, (h.session 0 slot hSlot).empty_iff.mp hEmpty⟩
  slot := by
    intro j slot hj hSlot
    have hInv := h.session j slot hSlot
    refine ⟨hInv.empty_iff, fun hEmpty => ?_, fun hSome => ?_, fun m hm hReady => ?_, hInv.inIndex,
      hInv.taken, hInv.outIndex⟩
    · have hNone := hInv.empty_iff.mp hEmpty
      have hIn := hInv.inIndex
      rw [hInv.unbound hNone, List.length_nil] at hIn
      exact ⟨hInv.unbound hNone, Nat.le_zero.mp hIn, hInv.fresh hNone⟩
    · exact (hInv.bound fun hNone => hSome (hInv.empty_iff.mpr hNone)).2
    · obtain ⟨hActor, hTime⟩ := hInv.entry m hm hReady
      exact ⟨hActor, hActor.trans (h.actor_of_mem hSlot hm).2.symm, hTime⟩
  queueIndex := h.queueIndex
  ready := fun m hm => (h.entry m hm).ready

-- ---------------------------------------------------------------------------
-- Runs
-- ---------------------------------------------------------------------------

/-- A run of a host: its application's calls, and any packets whose sources have
ids. -/
abbrev HostReaches : World → World → Prop := Reaches World.step (fun _ a _ => a.IsHostRun)

/-- A step of a run is an action of the host. -/
theorem exists_act_of_step {w w' : World} {a : WorldAction} (hRun : a.IsHostRun)
    (hStep : w.step a = .ok w') : ∃ b s ps, b.IsHostStep ∧ w.host.act b = .ok (s, ps, w'.host) ∧
      w'.hostSent = w.hostSent ++ ps := by
  cases worldStep_of_step hStep with
  | host hAct => exact ⟨_, _, _, hRun, hAct, rfl⟩
  | client => cases hRun
  | toHost => cases hRun
  | toClient => cases hRun

/-- The remote id of a slot never changes again, once it has one. -/
def BoundForever (host host' : Peer) : Prop :=
  ∀ (j : Nat) (slot : PeerSlot), host.slots[j]? = some slot → slot.remoteEnd.id ≠ peerUndefined →
    ∃ slot', host'.slots[j]? = some slot' ∧ slot'.remoteEnd.id = slot.remoteEnd.id

/-- That is so from any state of a run on. -/
theorem boundForever_of_reaches {w w' : World} (h : HostReaches w w') (hInv : SessionInv w.host) :
    BoundForever w.host w'.host := by
  have hBoth : SessionInv w'.host ∧ BoundForever w.host w'.host := by
    refine h.invariant (I := fun t => SessionInv t.host ∧ BoundForever w.host t.host) ?_
      ⟨hInv, fun j slot hSlot _ => ⟨slot, hSlot, rfl⟩⟩
    rintro t a t' ⟨ht, hForever⟩ hStep hRun
    obtain ⟨b, s, ps, hMay, hAct, _⟩ := exists_act_of_step hRun hStep
    obtain ⟨ht', hMoved⟩ := ht.act hMay hAct
    refine ⟨ht', fun j slot hSlot hBound => ?_⟩
    obtain ⟨slot1, hSlot1, hSame⟩ := hForever j slot hSlot hBound
    obtain ⟨slot2, hSlot2, hSlotMoved⟩ := hMoved j slot1 hSlot1
    exact ⟨slot2, hSlot2, (hSlotMoved.remoteId (hSame ▸ hBound)).trans hSame⟩
  exact hBoth.2

/-- **The sessions of a host**: in every state of every run, its slots, cursors
and queues are as they should be, the session responses among its packets are
those of the slots that are ready, every step moves every slot forward, and a
bound slot stays bound to its client. -/
theorem host_sessions {rng : Mt64} {w : World} (h : HostReaches (hostStart rng) w) :
    HostSessions w.host ∧ SessionsAnswered w.host w.hostSent ∧
      (∀ a w', a.IsHostRun → w.step a = .ok w' → SlotsMoved w.host w'.host) ∧
      ∀ w', HostReaches w w' → BoundForever w.host w'.host := by
  have hBoth : SessionInv w.host ∧ SessionsAnswered w.host w.hostSent := by
    refine h.invariant (I := fun t => SessionInv t.host ∧ SessionsAnswered t.host t.hostSent) ?_
      ⟨sessionInv_peerInit rng, [], List.nodup_nil, fun j => ?_, .nil⟩
    · rintro t a t' ⟨ht, hAnswered⟩ hStep hRun
      obtain ⟨b, s, ps, hMay, hAct, hSent⟩ := exists_act_of_step hRun hStep
      rw [hSent]
      exact ⟨(ht.act hMay hAct).1, hAnswered.act ht hMay hAct⟩
    · simp [ReadyAt, hostStart, World.start, peerInit]
  obtain ⟨hInv, hAnswered⟩ := hBoth
  refine ⟨hInv.sessions, hAnswered, fun a w' hRun hStep => ?_,
    fun w' hReach => boundForever_of_reaches hReach hInv⟩
  obtain ⟨b, s, ps, hMay, hAct, _⟩ := exists_act_of_step hRun hStep
  exact (hInv.act hMay hAct).2

/-- A host that is asked for a session, and answers. -/
def answeringRun : List WorldAction :=
  [.host (.openSlots (some [1, 2])),
   .host (.setAddress 1 oneByte (byteAddress 2)),
   .host (.input [PeerPacket.blank 3 1]), .host (.tick 0)]

/-- Its slot is ready, and the response is sent. -/
theorem host_sessions_answered :
    ∃ w, HostReaches (hostStart ⟨fun _ => 0⟩) w ∧ ReadyAt w.host 1 ∧ w.hostSent.length = 1 ∧
      HostSessions w.host ∧ SessionsAnswered w.host w.hostSent := by
  obtain ⟨w, hReach, hTest⟩ : ∃ w, HostReaches (hostStart ⟨fun _ => 0⟩) w ∧
      decide (w.host.slots.map (·.state) = [.empty, .ready] ∧ w.hostSent.length = 1) = true :=
    exists_reaches_of_runGuarded (fun _ a _ => decide a.IsHostRun) (fun _ _ _ h => of_decide_eq_true h)
      answeringRun _
      (fun w : World => decide (w.host.slots.map (·.state) = [.empty, .ready] ∧
        w.hostSent.length = 1)) (by decide +kernel)
  obtain ⟨hStates, hSent⟩ := of_decide_eq_true hTest
  have hReady : (w.host.slots.map (·.state))[1]? = some .ready := by rw [hStates]; rfl
  rw [List.getElem?_map, Option.map_eq_some_iff] at hReady
  obtain ⟨hSessions, hAnswered, _⟩ := host_sessions hReach
  exact ⟨w, hReach, hReady, hSent, hSessions, hAnswered⟩

end PeerProtocol
