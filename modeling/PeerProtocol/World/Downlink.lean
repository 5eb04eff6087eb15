import PeerProtocol.Peer.Posted
import PeerProtocol.World.Uplink

/-!
# peer — what a client knows

Agreement says that whatever a client has is right. This module says what it
has, in terms of the packets it was given, and so what the protocol needs of
the network for a client to be up to date.

Beside the world we keep which packets each client has heard: those that it
was given while they were addressed to one of its slots. Nothing else that
happens to a client matters for its mutual queue.

* `Downlink` extends `Agreement` by two facts. A client holds exactly the
  entries that some packet which it has heard conveys (`Conveys`, of
  `Peer/Posted.lean`), and the host has sent, between the ids of each slot,
  all entries behind the slot's cursor;
* `downlink_of_reaches` follows: a client holds an entry if and only if it has
  heard a packet that conveys it, and if it has heard all that was sent to it,
  then it has the mutual queue up to the cursor of its slot, which after a
  tick is all of it.

The second half is about time. The host repeats entries in the trail of each
heartbeat: all of them as long as there are fewer than 105, and later only
some of the last hundred (`Repeatable`, of `Peer/Posted.lean`). `Beyond`
follows a run on from a state in which the cursor of a slot is farther ahead
of an entry than that, and `horizon_of_reaches` is what it gives: a slot that
is the only one with its id never sends the entry again, and a client that has
heard none of the packets with it by then never holds it. Losses are repaired
within this horizon only.

The host is given any packets whose source is an id, its application queues
messages that fit, and no request for memory is refused.
-/

namespace PeerProtocol

open Lib

-- ---------------------------------------------------------------------------
-- Hearing
-- ---------------------------------------------------------------------------

/-- The packet is for one of the slots, and would be taken by it. -/
def Peer.takes (peer : Peer) (p : PeerPacket) : Bool := peer.slots.any (·.matchesPacket p)

/-- The slot that `peer_input` would find. -/
theorem takes_iff {peer : Peer} {p : PeerPacket} : peer.takes p = true ↔ ∃ j, Matches peer j p := by
  rw [Peer.takes, List.any_eq_true]
  constructor
  · rintro ⟨slot, hSlot, hMatch⟩
    obtain ⟨j, hj⟩ := List.mem_iff_getElem?.mp hSlot
    exact ⟨j, slot, hj, hMatch⟩
  · rintro ⟨j, slot, hSlot, hMatch⟩
    exact ⟨slot, List.mem_of_getElem? hSlot, hMatch⟩

/-- The packets that a move gives to client `c`, and that one of its slots takes. A
packet for somebody else may be delivered as well, and teaches nothing. -/
def World.hears (w : World) (c : Nat) : WorldAction → List PeerPacket
  | .toClient d positions =>
    if d = c then
      (delivered w.hostSent positions).filter fun p => (w.clients[c]?).any (·.takes p)
    else []
  | .host _ => []
  | .client _ _ => []
  | .toHost _ => []

/-- One move of a world, with the packets that each client has heard. -/
def World.heardStep (r : World × (Nat → List PeerPacket)) (a : WorldAction) :
    Except Fault (World × (Nat → List PeerPacket)) := do
  let w ← r.1.step a
  return (w, fun c => r.2 c ++ r.1.hears c a)

/-- A move, with the record brought up to date. -/
theorem heardStep_eq_ok {w w' : World} {heard heard' : Nat → List PeerPacket} {a : WorldAction}
    (h : World.heardStep (w, heard) a = .ok (w', heard')) :
    w.step a = .ok w' ∧ ∀ c, heard' c = heard c ++ w.hears c a := by
  obtain ⟨w1, hStep, hEq⟩ := bind_eq_ok.mp h
  obtain ⟨rfl, rfl⟩ := Prod.mk.inj (Except.ok.inj hEq)
  exact ⟨hStep, fun _ => rfl⟩

-- ---------------------------------------------------------------------------
-- What an input teaches a client
-- ---------------------------------------------------------------------------

/-- **Whatever a client is given**, it learns an entry only from a packet that one
of its slots takes. The packets need not be the host's here: any bytes will do. -/
theorem filled_of_peerInput {client client' : Peer} {packets : List PeerPacket} {s : Status}
    (hAlloc : client.alloc = .reliable) (hMode : client.mode = .client)
    (hInput : peerInput client packets = .ok (s, client')) {k : Nat}
    (hFilled : GapLog.Filled (entries client'.queue) k) :
    GapLog.Filled (entries client.queue) k ∨ ∃ p ∈ packets, client.takes p = true ∧ Conveys p k := by
  have hAll : client'.alloc = .reliable ∧ client'.mode = .client ∧
      (∀ j q, Matches client' j q ↔ Matches client j q) ∧
      (GapLog.Filled (entries client'.queue) k → GapLog.Filled (entries client.queue) k ∨
        ∃ p ∈ packets, client.takes p = true ∧ Conveys p k) := by
    refine peerInput_invariant (I := fun peer => peer.alloc = .reliable ∧ peer.mode = .client ∧
      (∀ j q, Matches peer j q ↔ Matches client j q) ∧
      (GapLog.Filled (entries peer.queue) k → GapLog.Filled (entries client.queue) k ∨
        ∃ p ∈ packets, client.takes p = true ∧ Conveys p k)) ?_ ?_ ?_ hInput
      ⟨hAlloc, hMode, fun _ _ => Iff.rfl, Or.inl⟩
    · rintro peer packet s cs al _ ⟨hPeer, hRest⟩ hCs
      exact ⟨(unpackPacket_keeps hCs).2 hPeer, hRest⟩
    · rintro start peer peer' packet j s cs al chunk hPacket ⟨hStart, _⟩ hCs hMem
        ⟨hPeer, hClient, hMatches, hKnown⟩ hMatch hStep
      have hMatches' : ∀ i q, Matches peer' i q ↔ Matches client i q :=
        fun i q => hStep.matches_iff.trans (hMatches i q)
      cases hStep with
      | hostSkip hHost =>
        rw [hClient] at hHost
        cases hHost
      | hostStore hHost =>
        rw [hClient] at hHost
        cases hHost
      | clientSkip => exact ⟨hPeer, hClient, hMatches', hKnown⟩
      | clientRespond => exact ⟨hPeer, hClient, hMatches', hKnown⟩
      | clientLearn _ hHeader hApplication _ hInsert =>
        refine ⟨(queueInsert_cases hInsert).1 hPeer, hClient, hMatches', fun hNew => ?_⟩
        dsimp only at hNew
        obtain ⟨e, hHolds⟩ := hNew
        rcases ready_of_queueInsert hInsert (holds_entries_iff.mp hHolds) rfl with hOld | ⟨hIndex, _⟩
        · exact hKnown ⟨e, holds_entries_iff.mpr hOld⟩
        -- the chunk is one of the packet, and the slot that took it is the client's
        · have hChunks : packetChunks packet = cs := by
            rw [hStart] at hCs
            rw [packetChunks, hCs]
          exact Or.inr ⟨packet, hPacket, takes_iff.mpr ⟨j, (hMatches j packet).mp hMatch⟩, chunk,
            by rw [hChunks]; exact hMem, _, hHeader, hApplication, hIndex⟩
    · rintro peer packet _ ⟨hPeer, hClient, hRest⟩ _ _
      have hSame : (assignSlot peer packet).2 = peer := by
        rw [assignSlot, if_pos (Or.inl (by rw [hClient]; decide))]
      rw [hSame]
      exact ⟨hPeer, hClient, hRest⟩
  exact hAll.2.2.2 hFilled

/-- **What a client knows** after packets of the host: what it knew, and what
was in those for its slots. -/
theorem Follows.filled_input_iff {log : List Entry} (hLog : WireLog log) {client client' : Peer}
    (h : Follows log client) {packets : List PeerPacket} {s : Status}
    (hPackets : ∀ p ∈ packets, HostPacket log p)
    (hInput : peerInput client packets = .ok (s, client')) {k : Nat} :
    GapLog.Filled (entries client'.queue) k ↔ GapLog.Filled (entries client.queue) k ∨
      ∃ p ∈ packets, client.takes p = true ∧ Conveys p k := by
  refine ⟨filled_of_peerInput h.alloc h.mode hInput, ?_⟩
  obtain ⟨client1, hOk, _, hLearns, hTaken⟩ := h.input hLog hPackets
  rw [hOk, Except.ok.injEq, Prod.mk.injEq] at hInput
  obtain ⟨_, rfl⟩ := hInput
  rintro (hOld | ⟨p, hp, hTakes, hConveys⟩)
  · exact hLearns.filled k hOld
  · obtain ⟨j, hMatch⟩ := takes_iff.mp hTakes
    obtain ⟨_, _, cs, hSealed, _⟩ := hPackets p hp
    obtain ⟨c, hc, header, hHeader, hMode, hIndex⟩ := hConveys.mem hSealed
    exact hTaken p hp j cs hMatch hSealed.yields c hc header k hHeader hMode hIndex

-- ---------------------------------------------------------------------------
-- The invariant
-- ---------------------------------------------------------------------------

/-- The host is given any packets whose sources have an id, and messages that
fit; the clients are given packets that the host sent. -/
def DownlinkMove (w : World) (a : WorldAction) (w' : World) : Prop :=
  (w'.host.queue.length : Int) ≤ int64Max ∧
    match a with
    | .host a => a.IsHostStep ∧ a.QueuesSmall
    | .client _ a => a.isClientCall = true
    | .toHost positions => ∀ p ∈ delivered w.clientSent positions, p.sourceId ≠ peerUndefined
    | .toClient _ _ => True

instance (w : World) (a : WorldAction) (w' : World) : Decidable (DownlinkMove w a w') :=
  match a with
  | .host a => inferInstanceAs (Decidable ((w'.host.queue.length : Int) ≤ int64Max ∧
      a.IsHostStep ∧ a.QueuesSmall))
  | .client _ a => inferInstanceAs (Decidable ((w'.host.queue.length : Int) ≤ int64Max ∧
      a.isClientCall = true))
  | .toHost positions => inferInstanceAs (Decidable ((w'.host.queue.length : Int) ≤ int64Max ∧
      ∀ p ∈ delivered w.clientSent positions, p.sourceId ≠ peerUndefined))
  | .toClient _ _ => inferInstanceAs (Decidable ((w'.host.queue.length : Int) ≤ int64Max ∧ True))

/-- These moves are among those that agreement allows. -/
theorem DownlinkMove.agreementMove {w w' : World} {a : WorldAction} (h : DownlinkMove w a w') :
    AgreementMove w a w' := by
  obtain ⟨hSize, hMove⟩ := h
  cases a with
  | host a => exact ⟨hMove.2, hSize, Or.inl hMove.1⟩
  | client c a => exact hMove
  | toHost positions => exact ⟨trivial, hSize, Or.inl hMove⟩
  | toClient c positions => trivial

/-- A client holds exactly the entries that it has heard, and the host has sent what
is behind its cursors. Together the two say how far a client can be behind: no
farther than what it has not heard. -/
structure Downlink (w : World) (heard : Nat → List PeerPacket) : Prop extends Agreement w where
  session : SessionInv w.host
  posted : ∀ (j : Nat) (slot : PeerSlot), w.host.slots[j]? = some slot → PostedSlot w.hostSent slot
  given : ∀ c, ∀ p ∈ heard c, p ∈ w.hostSent
  knows : ∀ (c : Nat) (client : Peer), w.clients[c]? = some client → ∀ k,
    GapLog.Filled (entries client.queue) k ↔ ∃ p ∈ heard c, Conveys p k

/-- At the beginning nobody has heard or holds anything, and the cursors are at
zero. -/
theorem downlink_of_initialized {w : World} (h : ReliablyInitialized w) :
    Downlink w fun _ => [] := by
  refine ⟨agreement_of_initialized h, ?_, ?_, ?_, ?_⟩ <;> obtain ⟨rng, clients, rfl, hClients⟩ := h
  · exact sessionInv_peerInit rng
  · intro j slot hSlot
    simp [World.start, peerInit] at hSlot
  · simp
  · intro c client hClient k
    obtain ⟨r, rfl⟩ := hClients client (List.mem_of_getElem? hClient)
    simp [GapLog.Filled, GapLog.Holds, peerInit, entries]

/-- An action of the host: what it sends brings its slots up to their new cursors. -/
theorem Downlink.hostAct {w : World} {heard : Nat → List PeerPacket} (h : Downlink w heard)
    {a : PeerAction} {s : Status} {ps : List PeerPacket} {host : Peer} (hMay : a.IsHostStep)
    (hAct : w.host.act a = .ok (s, ps, host))
    (hAgreement : Agreement { w with host := host, hostSent := w.hostSent ++ ps }) :
    Downlink { w with host := host, hostSent := w.hostSent ++ ps } heard where
  toAgreement := hAgreement
  session := (h.session.act hMay hAct).1
  posted := postedSlots_act h.host hAgreement.host (h.session.act hMay hAct).1 hMay h.posted hAct
  given := fun c p hp => List.mem_append_left _ (h.given c p hp)
  knows := h.knows

/-- An action of a client, which leaves it with what it has heard. That the other
clients have heard what they had is a hypothesis, so that the lemma serves for calls
and for deliveries. -/
theorem Downlink.setClient {w : World} {heard heard' : Nat → List PeerPacket} (h : Downlink w heard)
    {c : Nat} {client' : Peer} {sent : List PeerPacket}
    (hAgreement : Agreement { w with clients := w.clients.set c client', clientSent := sent })
    (hGiven : ∀ p ∈ heard' c, p ∈ w.hostSent) (hOther : ∀ d, d ≠ c → heard' d = heard d)
    (hKnows : ∀ k, GapLog.Filled (entries client'.queue) k ↔ ∃ p ∈ heard' c, Conveys p k) :
    Downlink { w with clients := w.clients.set c client', clientSent := sent } heard' where
  toAgreement := hAgreement
  session := h.session
  posted := h.posted
  given := by
    intro d p hp
    -- Only the client that was given packets has heard more than before.
    by_cases hd : d = c
    · subst hd
      exact hGiven p hp
    · rw [hOther d hd] at hp
      exact h.given d p hp
  knows := by
    intro d client hClient
    dsimp only at hClient
    rcases getElem?_set_cases hClient with ⟨rfl, rfl⟩ | ⟨hd, hOld⟩
    · exact hKnows
    · rw [hOther d (Ne.symm hd)]
      exact h.knows d client hOld

/-- **Step lemma**: the only move that teaches is a delivery to a client, and the
only one that moves a cursor is a tick of the host, which sends what it moves over. -/
theorem Downlink.step {w w' : World} {heard heard' : Nat → List PeerPacket} {a : WorldAction}
    (h : Downlink w heard) (hStep : World.heardStep (w, heard) a = .ok (w', heard'))
    (hMove : DownlinkMove w a w') : Downlink w' heard' := by
  obtain ⟨hWorld, hHeard⟩ := heardStep_eq_ok hStep
  have hAgreement := h.toAgreement.step hWorld hMove.agreementMove
  -- Only a delivery to a client is heard; every other move leaves the histories as they are.
  have hQuiet (hNone : ∀ c, w.hears c a = []) : heard' = heard := by
    funext c
    rw [hHeard, hNone, List.append_nil]
  cases worldStep_of_step hWorld with
  | host hAct =>
    rw [hQuiet fun _ => rfl]
    exact h.hostAct hMove.2.1 hAct hAgreement
  | @client c a client client' s ps hClient hAct =>
    rw [hQuiet fun _ => rfl]
    -- A call of the client itself fills and empties nothing in its mutual queue.
    refine h.setClient hAgreement (h.given c) (fun _ _ => rfl) fun k => ?_
    rw [(clientCall_keeps (h.clients client (List.mem_of_getElem? hClient)) hMove.2 hAct).2]
    exact h.knows c client hClient k
  | toHost hInput =>
    rw [hQuiet fun _ => rfl]
    have hNew := h.hostAct (a := .input _) hMove.2 (Peer.act_input hInput)
      (by rw [List.append_nil]; exact hAgreement)
    rw [List.append_nil] at hNew
    exact hNew
  | @toClient c positions client client' s hClient hInput =>
    -- The client hears the delivered packets it takes, and no other client hears anything.
    have hHere : heard' c = heard c ++ (delivered w.hostSent positions).filter (client.takes ·) := by
      rw [hHeard, World.hears, if_pos rfl, hClient]
      rfl
    refine h.setClient hAgreement ?_ ?_ fun k => ?_
    · intro p hp
      rw [hHere] at hp
      rcases List.mem_append.mp hp with hOld | hNew
      · exact h.given c p hOld
      · exact mem_of_mem_delivered (List.mem_filter.mp hNew).1
    · intro d hd
      rw [hHeard, World.hears, if_neg (Ne.symm hd), List.append_nil]
    · have hOld := h.clients client (List.mem_of_getElem? hClient)
      rw [hOld.filled_input_iff h.host.wire (fun p hp => h.sent p (mem_of_mem_delivered hp)) hInput,
        h.knows c client hClient k, hHere]
      simp only [List.mem_append, List.mem_filter, or_and_right, exists_or, and_assoc]

-- ---------------------------------------------------------------------------
-- What was sent is known
-- ---------------------------------------------------------------------------

/-- What is behind the cursor of a slot is held by a client that has heard all
that was sent between the ids of the slot. -/
theorem Downlink.known {w : World} {heard : Nat → List PeerPacket} (h : Downlink w heard) {c j : Nat}
    {client : Peer} {slot : PeerSlot} (hClient : w.clients[c]? = some client)
    (hSlot : w.host.slots[j]? = some slot)
    (hAll : ∀ p ∈ w.hostSent, p.sourceId = slot.localEnd.id → p.destinationId = slot.remoteEnd.id →
      p ∈ heard c) {i : Nat} (hi : i < slot.outIndex) : client.queue[i]? = w.host.queue[i]? := by
  obtain ⟨p, hp, hSource, hDestination, hConveys⟩ := (h.posted j slot hSlot).posted i hi
  obtain ⟨e, hHolds⟩ := (h.knows c client hClient i).mpr ⟨p, hAll p hp hSource hDestination, hConveys⟩
  have hm := holds_entries_iff.mp hHolds
  rw [hm, (h.clients client (List.mem_of_getElem? hClient)).getElem?_host h.host.toHostInv hm rfl]

/-- **What was sent is known.** In every state of every run a client holds the
entries that it has heard and no others; and if it has heard all that the host
has sent between the ids of a slot, it has the host's mutual queue up to the
cursor of the slot, which is all of it once the cursor is at the end. -/
theorem downlink_of_reaches {w w' : World} {heard : Nat → List PeerPacket}
    (hStart : ReliablyInitialized w)
    (hReach : Reaches World.heardStep (fun r a r' => DownlinkMove r.1 a r'.1) (w, fun _ => [])
      (w', heard)) {c : Nat} {client : Peer} (hClient : w'.clients[c]? = some client) :
    (∀ k, (client.queue[k]?).any (·.isReady) = true ↔ ∃ p ∈ heard c, Conveys p k) ∧
    ∀ (j : Nat) (slot : PeerSlot), w'.host.slots[j]? = some slot →
      (∀ p ∈ w'.hostSent, p.sourceId = slot.localEnd.id → p.destinationId = slot.remoteEnd.id →
        p ∈ heard c) →
      (∀ i, i < slot.outIndex → client.queue[i]? = w'.host.queue[i]?) ∧
        (slot.outIndex = w'.host.queue.length → client.queue = w'.host.queue) := by
  have h : Downlink w' heard := hReach.invariant (I := fun r => Downlink r.1 r.2)
    (fun _ _ _ hInv hOk hMove => hInv.step hOk hMove) (downlink_of_initialized hStart)
  refine ⟨fun k => ?_, fun j slot hSlot hAll => ⟨fun i => h.known hClient hSlot hAll, fun hEnd => ?_⟩⟩
  · rw [← filled_entries_iff]
    exact h.knows c client hClient k
  -- the client's queue is no longer than the host's
  have hLen := (h.clients client (List.mem_of_getElem? hClient)).agrees.length_le
  rw [length_entries, h.host.toHostInv.length_log] at hLen
  have hIndex := h.host.queueIndex
  refine List.ext_getElem? fun i => ?_
  rcases Nat.lt_or_ge i slot.outIndex with hi | hi
  · exact h.known hClient hSlot hAll hi
  · rw [List.getElem?_eq_none (by omega), List.getElem?_eq_none (by omega)]

/-- A run of recorded moves that a test passes. -/
theorem exists_of_heardRun (actions : List WorldAction) {r : World × (Nat → List PeerPacket)}
    (test : World × (Nat → List PeerPacket) → Bool)
    (h : (runGuarded World.heardStep (fun r a r' => decide (DownlinkMove r.1 a r'.1)) r actions).any
      test = true) :
    ∃ r', Reaches World.heardStep (fun r a r' => DownlinkMove r.1 a r'.1) r r' ∧ test r' = true :=
  exists_reaches_of_runGuarded _ (fun _ _ _ h => of_decide_eq_true h) actions r test h

/-- The client has heard all that the host has sent, and nothing is left to send: a
test for the state in which the theorem says that the queues are equal. -/
def hasHeardAll (r : World × (Nat → List PeerPacket)) : Bool :=
  r.1.clients[0]?.isSome && decide (r.1.host.slots.map (·.outIndex) = [0, 2] ∧
    r.1.host.queue.length = 2 ∧ ∀ p ∈ r.1.hostSent, p ∈ r.2 0)

/-- A session with a message of each side: both are in the host's mutual queue, and
the client, which has heard a packet with each of them, holds the same two. -/
theorem downlink_of_reaches_session : ∃ (r : World × (Nat → List PeerPacket)) (client : Peer),
    r.1.clients[0]? = some client ∧ r.1.host.queue.length = 2 ∧ client.queue = r.1.host.queue ∧
      ∀ k, (client.queue[k]?).any (·.isReady) = true ↔ ∃ p ∈ r.2 0, Conveys p k := by
  obtain ⟨⟨w, heard⟩, hReach, hTest⟩ :=
    exists_of_heardRun (sessionRun.take 15) (r := (pairStart, fun _ => [])) hasHeardAll
      (by decide +kernel)
  obtain ⟨hSome, hRest⟩ := Bool.and_eq_true_iff.mp hTest
  obtain ⟨hCursors, hLen, hHeard⟩ := of_decide_eq_true hRest
  obtain ⟨client, hClient⟩ := Option.isSome_iff_exists.mp hSome
  obtain ⟨slot, hSlot, hOut⟩ : ∃ slot, w.host.slots[1]? = some slot ∧ slot.outIndex = 2 := by
    have hAt : (w.host.slots.map (·.outIndex))[1]? = some 2 := by rw [hCursors]; rfl
    rw [List.getElem?_map] at hAt
    exact Option.map_eq_some_iff.mp hAt
  have hKnown := downlink_of_reaches reliablyInitialized_pairStart hReach hClient
  refine ⟨(w, heard), client, hClient, hLen, ?_, hKnown.1⟩
  exact (hKnown.2 1 slot hSlot fun p hp _ _ => hHeard p hp).2 (hOut.trans hLen.symm)

-- ---------------------------------------------------------------------------
-- What is never sent again
-- ---------------------------------------------------------------------------

/-- A run past a state in which the host had sent `past` and slot `j` had its
cursor far ahead of entry `k`: what was sent since does not carry the entry,
unless another slot has the same local id. -/
structure Beyond (j : Nat) (localId : Int) (outIndex k : Nat) (past : List PeerPacket) (w : World)
    (heard : Nat → List PeerPacket) : Prop extends Downlink w heard where
  cursor : ∃ slot, w.host.slots[j]? = some slot ∧ slot.localEnd.id = localId ∧
    outIndex ≤ slot.outIndex
  later : ∃ later, w.hostSent = past ++ later ∧ ∀ p ∈ later, p.sourceId = localId → Conveys p k →
    ∃ (i : Nat) (other : PeerSlot), i ≠ j ∧ w.host.slots[i]? = some other ∧
      other.localEnd.id = localId

/-- An action of the host: the slot sends entries at its cursor or later, and in the
trail of a heartbeat those within the horizon. -/
theorem Beyond.hostAct {j outIndex k : Nat} {localId : Int} {past : List PeerPacket} {w w' : World}
    {heard : Nat → List PeerPacket} (h : Beyond j localId outIndex k past w heard)
    (hFar : ¬ Repeatable outIndex k) {a : PeerAction} {s : Status} {ps : List PeerPacket} {host : Peer}
    (hMay : a.IsHostStep) (hAct : w.host.act a = .ok (s, ps, host)) (hHost : w'.host = host)
    (hSent : w'.hostSent = w.hostSent ++ ps) (hDownlink : Downlink w' heard) :
    Beyond j localId outIndex k past w' heard := by
  subst hHost
  obtain ⟨slot, hSlot, hLocal, hCursor⟩ := h.cursor
  obtain ⟨slot', hSlot', hLocal', hCursor'⟩ := cursor_act h.host h.session hMay hAct hSlot
  refine ⟨hDownlink, ⟨slot', hSlot', hLocal'.trans hLocal, Nat.le_trans hCursor hCursor'⟩, ?_⟩
  obtain ⟨later, hLater, hOld⟩ := h.later
  have hMoved := (h.session.act hMay hAct).2
  refine ⟨later ++ ps, by rw [hSent, hLater, List.append_assoc], fun p hp hSource hConveys => ?_⟩
  obtain ⟨i, other, hij, hOther, hSame⟩ : ∃ (i : Nat) (other : PeerSlot), i ≠ j ∧
      w.host.slots[i]? = some other ∧ other.localEnd.id = localId := by
    rcases List.mem_append.mp hp with hBefore | hNew
    · exact hOld p hBefore hSource hConveys
    -- it goes out of a slot whose cursor is not so far
    · obtain ⟨i, other, hOther, hFrom, hRepeatable⟩ :=
        repeatable_act h.host hDownlink.host hAct hNew hConveys
      refine ⟨i, other, ?_, hOther, hFrom.symm.trans hSource⟩
      rintro rfl
      rw [hSlot, Option.some.injEq] at hOther
      subst hOther
      exact hFar (hRepeatable.mono hCursor)
  obtain ⟨other', hOther', hKept⟩ := hMoved i other hOther
  exact ⟨i, other', hij, hOther', hKept.localId.trans hSame⟩

/-- **Step lemma**: only the host sends, and only that slot from its id. Its cursor
never goes back, so the entry stays as far behind it as it was. -/
theorem Beyond.step {j outIndex k : Nat} {localId : Int} {past : List PeerPacket} {w w' : World}
    {heard heard' : Nat → List PeerPacket} {a : WorldAction}
    (h : Beyond j localId outIndex k past w heard) (hFar : ¬ Repeatable outIndex k)
    (hStep : World.heardStep (w, heard) a = .ok (w', heard')) (hMove : DownlinkMove w a w') :
    Beyond j localId outIndex k past w' heard' := by
  have hDownlink := h.toDownlink.step hStep hMove
  obtain ⟨hWorld, hHeard⟩ := heardStep_eq_ok hStep
  -- A move that delivers nothing to a client leaves what all of them have heard.
  have hQuiet (hNone : ∀ c, w.hears c a = []) : heard' = heard := by
    funext c
    rw [hHeard, hNone, List.append_nil]
  cases worldStep_of_step hWorld with
  | host hAct =>
    rw [hQuiet fun _ => rfl] at hDownlink ⊢
    exact h.hostAct hFar hMove.2.1 hAct rfl rfl hDownlink
  | client => exact ⟨hDownlink, h.cursor, h.later⟩
  | toHost hInput =>
    rw [hQuiet fun _ => rfl] at hDownlink ⊢
    exact h.hostAct hFar (a := .input _) hMove.2 (Peer.act_input hInput) rfl
      (List.append_nil _).symm hDownlink
  | toClient => exact ⟨hDownlink, h.cursor, h.later⟩

/-- **The horizon.** Once the cursor of a slot is far ahead of an entry, the
host never sends the entry from that slot again; and a client that is sent
entries by that slot only, and that has heard none of the packets with the
entry that had gone out by then, never holds it. -/
theorem horizon_of_reaches {w w₁ w₂ : World} {heard₁ heard₂ : Nat → List PeerPacket}
    (hStart : ReliablyInitialized w)
    (hReach : Reaches World.heardStep (fun r a r' => DownlinkMove r.1 a r'.1) (w, fun _ => [])
      (w₁, heard₁))
    (hOnward : Reaches World.heardStep (fun r a r' => DownlinkMove r.1 a r'.1) (w₁, heard₁)
      (w₂, heard₂)) {j k : Nat} {slot : PeerSlot} (hSlot : w₁.host.slots[j]? = some slot)
    (hFar : ¬ Repeatable slot.outIndex k)
    (hOnly : ∀ (i : Nat) (other : PeerSlot), w₂.host.slots[i]? = some other →
      other.localEnd.id = slot.localEnd.id → i = j) :
    (∃ later, w₂.hostSent = w₁.hostSent ++ later ∧
      ∀ p ∈ later, p.sourceId = slot.localEnd.id → ¬ Conveys p k) ∧
    ∀ (c : Nat) (client : Peer), w₂.clients[c]? = some client →
      (∀ p ∈ heard₂ c, Conveys p k → p.sourceId = slot.localEnd.id) →
      (∀ p ∈ heard₂ c, p ∈ w₁.hostSent → ¬ Conveys p k) →
        (client.queue[k]?).any (·.isReady) = false := by
  have h₁ : Downlink w₁ heard₁ := hReach.invariant (I := fun r => Downlink r.1 r.2)
    (fun _ _ _ hInv hOk hMove => hInv.step hOk hMove) (downlink_of_initialized hStart)
  have hBeyond : Beyond j slot.localEnd.id slot.outIndex k w₁.hostSent w₁ heard₁ :=
    ⟨h₁, ⟨slot, hSlot, rfl, Nat.le_refl _⟩, [], (List.append_nil _).symm, by simp⟩
  -- From the first state on the slot's cursor only moves further away from the index.
  have h₂ : Beyond j slot.localEnd.id slot.outIndex k w₁.hostSent w₂ heard₂ :=
    hOnward.invariant (I := fun r => Beyond j slot.localEnd.id slot.outIndex k w₁.hostSent r.1 r.2)
      (fun _ _ _ hInv hOk hMove => hInv.step hFar hOk hMove) hBeyond
  obtain ⟨later, hLater, hNone⟩ := h₂.later
  have hNever : ∀ p ∈ later, p.sourceId = slot.localEnd.id → ¬ Conveys p k := by
    intro p hp hSource hConveys
    -- Such a packet would come from another slot of the same id, and there is none.
    obtain ⟨i, other, hij, hOther, hSame⟩ := hNone p hp hSource hConveys
    exact hij (hOnly i other hOther hSame)
  refine ⟨⟨later, hLater, hNever⟩, fun c client hClient hFrom hMissed => ?_⟩
  rw [Bool.eq_false_iff, ne_eq, ← filled_entries_iff, h₂.knows c client hClient k]
  rintro ⟨p, hp, hConveys⟩
  have hSent := h₂.given c p hp
  rw [hLater] at hSent
  -- What fills the entry was sent before the first state, or since.
  rcases List.mem_append.mp hSent with hBefore | hSince
  · exact hMissed p hp hBefore hConveys
  · exact hNever p hSince (hFrom p hp hConveys) hConveys

/-- A session, and many messages of the host that it sends in one tick: enough for
the first ones to be beyond the horizon once the cursor has passed them all. -/
def manyMessages : List WorldAction :=
  sessionRun.take 9 ++ List.replicate 106 (.host (.queue (some []))) ++ [.host (.tick 0)]

/-- The cursor of the slot of the session is where the run takes it. -/
def isAhead (r : World × (Nat → List PeerPacket)) : Bool :=
  (r.1.host.slots[1]?).any fun slot => decide (slot.outIndex = 106 ∧ slot.localEnd.id = 2)

/-- The client holds later entries, and has heard no packet with entry 5 that
was sent before. -/
def isMissed (sent : List PeerPacket) (r : World × (Nat → List PeerPacket)) : Bool :=
  (r.1.clients[0]?).any fun client => decide (client.queue.length = 106 ∧
    r.1.host.slots.map (·.localEnd.id) = [1, 2] ∧
    ∀ p ∈ r.2 0, Conveys p 5 → p.sourceId = 2 ∧ p ∉ sent)

/-- Every packet with the messages is lost, the client hears a heartbeat, and entry
5 is beyond its trail. The client has all 106 places then, and the one of entry 5 is
a gap that stays. -/
theorem horizon_of_reaches_heartbeat :
    ∃ (r r' : World × (Nat → List PeerPacket)) (client : Peer),
      (∃ later, r'.1.hostSent = r.1.hostSent ++ later ∧ ∀ p ∈ later, p.sourceId = 2 → ¬ Conveys p 5) ∧
        r'.1.clients[0]? = some client ∧ client.queue.length = 106 ∧
          (client.queue[5]?).any (·.isReady) = false := by
  -- One computation of the whole run: far enough first, then a heartbeat that arrives.
  obtain ⟨⟨w, heard⟩, hReach, hTest⟩ :=
    exists_of_heardRun manyMessages (r := (pairStart, fun _ => []))
      (fun r => isAhead r && (runGuarded World.heardStep
        (fun r a r' => decide (DownlinkMove r.1 a r'.1)) r
          [.host (.tick peerTimeoutHeartbeat), .toClient 0 [10]]).any (isMissed r.1.hostSent))
      (by decide +kernel)
  obtain ⟨hAhead, hOnward⟩ := Bool.and_eq_true_iff.mp hTest
  obtain ⟨⟨w', heard'⟩, hLater, hMissed⟩ := exists_of_heardRun _ _ hOnward
  obtain ⟨slot, hSlot, hCursor⟩ := (Option.any_eq_true _ _).mp hAhead
  obtain ⟨hOut, hLocal⟩ := of_decide_eq_true hCursor
  obtain ⟨client, hClient, hHeard⟩ := (Option.any_eq_true _ _).mp hMissed
  obtain ⟨hLen, hIds, hHeard⟩ := of_decide_eq_true hHeard
  have hFar : ¬ Repeatable slot.outIndex 5 := by
    rw [hOut, Repeatable]
    decide
  -- The host's ids are read off the run's last state, and only the second of them is 2.
  have hOnly : ∀ (i : Nat) (other : PeerSlot), w'.host.slots[i]? = some other →
      other.localEnd.id = slot.localEnd.id → i = 1 := by
    intro i other hOther hSame
    have hAt : ([1, 2] : List Int)[i]? = some 2 := by
      rw [← hIds, List.getElem?_map, hOther, Option.map_some, hSame, hLocal]
    match i, hAt with
    | 1, _ => rfl
  have hHorizon := horizon_of_reaches reliablyInitialized_pairStart hReach hLater hSlot hFar hOnly
  rw [hLocal] at hHorizon
  exact ⟨(w, heard), (w', heard'), client, hHorizon.1, hClient, hLen,
    hHorizon.2 0 client hClient (fun p hp hConveys => (hHeard p hp hConveys).1)
      fun p hp hSent hConveys => (hHeard p hp hConveys).2 hSent⟩

end PeerProtocol
