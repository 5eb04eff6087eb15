import PeerProtocol.Peer.OneSlot
import PeerProtocol.World.Authentic

/-!
# peer — what can go wrong

In a model of the code that stops where the code would read or write outside
an array, or overflow, a run says nothing about the moves that it could not
take. An invariant of all runs could hold because the interesting ones stop
early.

So here it is said of every state that a run of a host and its clients reaches
which moves stop. There is one: the tick of a client whose heartbeat asks for
a trail behind the end of its mutual queue. That happens to a client that has
sent more messages than it has entries, since the cursor that the trail is
asked for with is one of its own queue (`Peer/Cursor.lean`). All other moves
go through, and this one does where the trail is inside.

* `World.overrun` — the fault of that move, with the index and the size;
* `exists_peerInput` — a host takes any packets whose chunks have room for a
  header and whose indices are below the last one;
  `AuthenticPacket.insertable` says that what clients send are such packets;
* `UplinkClient.fault_tick` and `Authentic.input_ok` — the moves one by one;
* `progress_of_reaches` — all moves in all states, as one equation: the fault
  of a move is its overrun.

The runs are those of `World/Authentic.lean`: no request for memory is
refused, messages fit a packet, each client has one slot and an id of its own,
and the host is given packets of its clients. Without these there are other
faults, which `Peer/Faults.lean` lists.
-/

namespace PeerProtocol

open Lib

-- ---------------------------------------------------------------------------
-- The input of a host
-- ---------------------------------------------------------------------------

/-- A host takes packets whose chunks can be inserted, by induction on the packets:
whichever slot a packet comes to, or binds, its chunks neither are too short nor
carry the largest index. -/
theorem exists_peerInput (packets : List PeerPacket)
    (hInsertable : ∀ p ∈ packets, ∀ c ∈ packetChunks p, InsertableChunk c) {host : Peer}
    (hMode : host.mode = .host) (hAlloc : host.alloc = .reliable) :
    ∃ s host', peerInput host packets = .ok (s, host') := by
  induction packets generalizing host with
  | nil => exact ⟨kitOk, host, rfl⟩
  | cons p packets ih =>
    -- the packet goes to the slot that it matches, or to none
    obtain ⟨s1, host1, hFirst, hMode1, hAlloc1⟩ : ∃ s1 host1, inputPacket host p = .ok (s1, host1) ∧
        host1.mode = .host ∧ host1.alloc = .reliable := by
      by_cases hHas : HasSlot host p
      · obtain ⟨s1, host1, hInput, hReceived⟩ := inputPacket_received hMode hAlloc hHas
          (hInsertable p (List.mem_cons_self ..))
        refine ⟨s1, host1, hInput, ?_, ?_⟩ <;> rw [hReceived.rest]
        · exact hMode
        · exact hAlloc
      · have hNone : host.slots.findIdx? (·.matchesPacket p) = none := by
          rwa [HasSlot, slotOf, Option.not_isSome_iff_eq_none] at hHas
        unfold inputPacket
        rw [hNone]
        split
        · refine ⟨(assignSlot host p).1, (assignSlot host p).2, rfl, ?_⟩
          rcases assignSlot_cases host p with hSame | ⟨_, _, _, _, _, _, _, _, _, _, hSet⟩
          · rw [hSame]
            exact ⟨hMode, hAlloc⟩
          · rw [hSet]
            exact ⟨hMode, hAlloc⟩
        · exact ⟨_, _, rfl, hMode, hAlloc⟩
    obtain ⟨s2, host2, hRest⟩ := ih (fun q hq => hInsertable q (List.mem_cons_of_mem _ hq)) hMode1 hAlloc1
    exact ⟨s1 ||| s2, host2, peerInput_of_cons hFirst hRest⟩

/-- What a client sends can be inserted: its chunks have headers, and an index below
the last one. -/
theorem AuthenticChunk.insertable {clients : List Peer} {host : Peer} {src : Int} {c : Chunk}
    (h : AuthenticChunk clients host src c) : InsertableChunk c := by
  cases h with
  | heartbeat actor =>
    refine ⟨by simp [heartbeatChunk], fun header hHeader => ?_⟩
    rw [heartbeatChunk, readHeader_encode (by decide) isInt64_peerUndefined isInt64_zero (by simp),
      Except.ok.injEq] at hHeader
    rw [← hHeader]
    show peerUndefined < int64Max
    decide
  | @message k m hIndex hTime hSmall =>
    refine ⟨by simp [PeerMessage.chunk], fun header hHeader => ?_⟩
    rw [readHeader_message ⟨by omega, by omega⟩ hTime hSmall, Except.ok.injEq] at hHeader
    rw [← hHeader]
    exact hIndex

/-- So can the chunks of its packets. -/
theorem AuthenticPacket.insertable {clients : List Peer} {host : Peer} {p : PeerPacket}
    (h : AuthenticPacket clients host p) : ∀ c ∈ packetChunks p, InsertableChunk c := by
  obtain ⟨src, dst, cs, _, hSealed, hChunks⟩ := h
  rw [hSealed.yields.packetChunks_eq]
  exact fun c hc => (hChunks c hc).insertable

-- ---------------------------------------------------------------------------
-- The moves
-- ---------------------------------------------------------------------------

/-- The fault of a client's tick: its heartbeat asks for a trail behind the end of
the mutual queue. It is read off the state before the tick, with the clock as the
tick leaves it. -/
def Peer.overrun (client : Peer) (e : Int) : Option Fault :=
  (client.slots[0]?).bind fun own =>
    if ValidElapsed client e ∧ ¬ TrailInside client (own.tickClock e) then
      some (.trail own.outIndex client.queue.length)
    else none

/-- The fault of a move: only that of a client's tick is not `none`. -/
def World.overrun (w : World) : WorldAction → Option Fault
  | .client c (.tick e) => (w.clients[c]?).bind (·.overrun e)
  | _ => none

/-- The party that moves exists. -/
def WorldAction.HasParty (w : World) : WorldAction → Prop
  | .client c _ => c < w.clients.length
  | .toClient c _ => c < w.clients.length
  | _ => True

instance (w : World) : (a : WorldAction) → Decidable (a.HasParty w)
  | .client c _ => inferInstanceAs (Decidable (c < w.clients.length))
  | .toClient c _ => inferInstanceAs (Decidable (c < w.clients.length))
  | .host _ | .toHost _ => .isTrue trivial

/-- A call other than a tick or an input goes through in any state. -/
theorem act_ok {peer : Peer} {a : PeerAction} (hNoTick : ∀ e, a ≠ .tick e)
    (hNoInput : ∀ packets, a ≠ .input packets) : ∃ r, peer.act a = .ok r := by
  cases a with
  | input packets => exact absurd rfl (hNoInput packets)
  | tick e => exact absurd rfl (hNoTick e)
  | _ => exact ⟨_, rfl⟩

/-- **A tick of the host** goes through: the trail of its heartbeat is asked for at
the slot's cursor of the queue that it is taken from. -/
theorem Agreement.hostTick_ok {w : World} (h : Agreement w) (e : Int) :
    ∃ r, peerTick w.host e = .ok r := by
  by_cases hValid : ValidElapsed w.host e
  · obtain ⟨packets, host', hTick, _⟩ := h.host.toHostSendInv.exists_sends h.host.small hValid
    exact ⟨_, hTick⟩
  · obtain ⟨s, _, hInvalid⟩ := peerTick_invalid hValid
    exact ⟨_, hInvalid⟩

/-- **A tick of a client** goes through, but for the overrun: its own messages fit
packets, so sending them does not fault, and what it has received fits as well. -/
theorem UplinkClient.fault_tick {client : Peer} (h : UplinkClient client) (e : Int) :
    faultOf (peerTick client e) = client.overrun e := by
  unfold Peer.overrun
  by_cases hValid : ValidElapsed client e
  swap
  -- A refused time is an error of the call and not a fault.
  · obtain ⟨s, _, hInvalid⟩ := peerTick_invalid hValid
    rw [hInvalid]
    cases client.slots[0]? with
    | none => rfl
    | some own =>
      rw [Option.bind_some, if_neg (fun hBoth => hValid hBoth.1)]
      rfl
  cases hSlots : client.slots with
  | nil =>
    rw [peerTick_client_eq hValid h.mode, clientSend, tickClock_slots, hSlots]
    rfl
  | cons own slots =>
    have hOwn : client.slots[0]? = some own := by
      rw [hSlots]
      rfl
    rw [List.getElem?_cons_zero, Option.bind_some]
    -- The trail of a heartbeat is the only place left where the tick can fault.
    by_cases hTrail : TrailInside client (own.tickClock e)
    · obtain ⟨own', ps, rng, hTick, _⟩ := peerTick_client h.mode hSlots h.alloc hValid (h.ownSmall hOwn)
        h.received hTrail
      rw [hTick, if_neg (fun hBoth => hBoth.2 hTrail)]
      rfl
    · have hSlots' : (client.tickClock e).slots = own.tickClock e :: slots.map (·.tickClock e) := by
        rw [tickClock_slots, hSlots, List.map_cons]
      have hGranted : (client.tickClock e).alloc.outcomes 0 = true := by
        show client.alloc.outcomes 0 = true
        rw [h.alloc]
        rfl
      rw [peerTick_client_eq hValid h.mode, clientSend_trail hSlots' hGranted hTrail, error_bind,
        if_pos ⟨hValid, hTrail⟩, tickClock_outIndex]
      rfl

/-- **Any delivery** goes through, to either side. -/
theorem Authentic.input_ok {w : World} (h : Authentic w) (positions : List Nat) :
    (∃ r, peerInput w.host (delivered w.clientSent positions) = .ok r) ∧
      ∀ client ∈ w.clients, ∃ r, peerInput client (delivered w.hostSent positions) = .ok r := by
  constructor
  · obtain ⟨s, host', hInput⟩ := exists_peerInput (delivered w.clientSent positions)
      (fun p hp => (h.inFlight p (mem_of_mem_delivered hp)).insertable) h.session.mode h.session.alloc
    exact ⟨_, hInput⟩
  · intro client hClient
    have hSent : ∀ p ∈ delivered w.hostSent positions, HostPacket w.host.log p :=
      fun p hp => h.sent p (mem_of_mem_delivered hp)
    obtain ⟨client', hInput, _⟩ := (h.clients client hClient).input h.host.wire hSent
    exact ⟨_, hInput⟩

/-- **Every move** goes through, but for the overrun. The party must exist; a move
of a client that is not there has no meaning in the code. -/
theorem Authentic.faultOf_step {w : World} (h : Authentic w) {a : WorldAction} (hMove : a.isMove = true)
    (hParty : a.HasParty w) : faultOf (w.step a) = w.overrun a := by
  cases a with
  | host a =>
    obtain ⟨r, hAct⟩ : ∃ r, w.host.act a = .ok r := by
      -- Of the host's calls only a tick does more than write a state, and a host's tick goes
      -- through.
      cases a with
      | tick e => exact h.toAgreement.hostTick_ok e
      | input packets => cases hMove
      | _ => exact act_ok (by nofun) (by nofun)
    rw [World.step, hAct]
    rfl
  | client c a =>
    have hClient : w.clients[c]? = some w.clients[c] := List.getElem?_eq_getElem hParty
    have hInv := h.client w.clients[c] (List.getElem_mem hParty)
    rw [World.step, show readAt w.clients c = .ok w.clients[c] from readAt_eq_ok.mpr hClient, ok_bind]
    cases a with
    | tick e =>
      -- The fault of a client's tick is the condition itself.
      have hFault := hInv.fault_tick e
      rw [World.overrun, hClient, Option.bind_some, ← hFault]
      show faultOf ((peerTick w.clients[c] e) >>= _) = _
      cases peerTick w.clients[c] e <;> rfl
    | input packets => cases hMove
    | _ => rfl
  | toHost positions =>
    obtain ⟨r, hInput⟩ := (h.input_ok positions).1
    rw [World.step, hInput]
    rfl
  | toClient c positions =>
    have hClient : w.clients[c]? = some w.clients[c] := List.getElem?_eq_getElem hParty
    obtain ⟨r, hInput⟩ := (h.input_ok positions).2 w.clients[c] (List.getElem_mem hParty)
    rw [World.step, show readAt w.clients c = .ok w.clients[c] from readAt_eq_ok.mpr hClient, ok_bind,
      hInput]
    rfl

-- ---------------------------------------------------------------------------
-- Runs
-- ---------------------------------------------------------------------------

/-- **Nothing but the overrun.** In every state of every run of a host and its
clients, over a network that loses, repeats and reorders packets, each move goes
through, or is a tick of a client whose heartbeat asks for a trail behind the end
of its mutual queue: no other move reads or writes outside an array, or
overflows. -/
theorem progress_of_reaches {w w' : World} (hStart : ReliablyInitialized w)
    (hReach : Reaches World.step UplinkMove w w') {a : WorldAction} (hMove : a.isMove = true)
    (hParty : a.HasParty w') : faultOf (w'.step a) = w'.overrun a := by
  have h : Authentic w' := hReach.invariant (fun _ _ _ hInv hOk hGuard => hInv.step hOk hGuard)
    (authentic_of_initialized hStart)
  exact h.faultOf_step hMove hParty

/-- The heartbeat of the first client asks for three messages of two. -/
def heartbeatOverruns (w : World) : Bool :=
  decide (1 ≤ w.clients.length ∧
    w.overrun (.client 0 (.tick peerTimeoutHeartbeat)) = some (.trail 3 2))

/-- The client has sent three messages and holds two entries: the host's tick
goes through, and its own stops once its next heartbeat is due. -/
theorem progress_of_reaches_session : ∃ w,
    Reaches World.step UplinkMove pairStart w ∧
      faultOf (w.step (.host (.tick 0))) = none ∧
      faultOf (w.step (.client 0 (.tick peerTimeoutHeartbeat))) = some (.trail 3 2) := by
  obtain ⟨w, hReach, hTest⟩ : ∃ w, Reaches World.step UplinkMove pairStart w ∧
      heartbeatOverruns w = true :=
    exists_reaches_of_runGuarded (fun w a w' => decide (UplinkMove w a w'))
      (fun _ _ _ h => of_decide_eq_true h)
      (sessionRun ++ [.client 0 (.queue (some [99])), .client 0 (.tick 0)]) _ heartbeatOverruns
      (by decide +kernel)
  obtain ⟨hClient, hOverrun⟩ := of_decide_eq_true hTest
  refine ⟨w, hReach, ?_, ?_⟩
  · exact progress_of_reaches reliablyInitialized_pairStart hReach (a := .host (.tick 0)) rfl trivial
  · rw [← hOverrun]
    exact progress_of_reaches reliablyInitialized_pairStart hReach rfl hClient

end PeerProtocol
