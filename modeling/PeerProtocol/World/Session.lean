import PeerProtocol.Peer.Cursor

/-!
# peer — one session per client

A host gives a client a slot when a packet of the client matches none of its
slots, that is, when no slot has both the packet's destination for its local
id and the packet's source for its remote id. Nothing tells the host that the
client has a slot already. Once the session response has arrived the client
sends to that slot; but a packet that it sent to the listening slot before may
be repeated on the way or come late, and then the host binds the next free
slot to the client as well.

* `DistinctRemotes` — the bound sources above the listening slot are distinct;
* `SecondSession` — the packets that bind a source a second time, written as a
  condition on the packet and the host's slots;
* `distinctRemotes_inputPacket_iff` — one packet keeps the bound sources
  distinct exactly if it is none of those. Everything else that a host does
  binds nothing;
* `OneSessionEach` — no packet of an input is one of those, each in the state
  that the packets before it have left;
* `distinctRemotes_of_reaches` — every run without such packets keeps the
  sources distinct, over a network that loses, repeats and reorders, and
  whatever the allocators do.

Runs at the end show both sides: two clients that get a slot each, and one
client whose request is delivered twice and that gets two.

This is the first module about a world, and the start states `pairStart` and
`twoStart` of later runs are defined here.
-/

namespace PeerProtocol

open Lib

-- ---------------------------------------------------------------------------
-- Bound sources
-- ---------------------------------------------------------------------------

/-- No two slots above the listening slot are bound to the same source. Slots that
are not bound all have the same id, −1, and do not count. -/
def DistinctRemotes (peer : Peer) : Prop :=
  ∀ (j k : Nat) (s t : PeerSlot), 1 ≤ j → 1 ≤ k → peer.slots[j]? = some s →
    peer.slots[k]? = some t → s.remoteEnd.id = t.remoteEnd.id →
    s.remoteEnd.id ≠ peerUndefined → j = k

/-- Slots may become unbound, or be added unbound. -/
theorem DistinctRemotes.of_remotes {peer peer' : Peer} (h : DistinctRemotes peer)
    (hSlots : ∀ (j : Nat) (s' : PeerSlot), peer'.slots[j]? = some s' →
      s'.remoteEnd.id = peerUndefined ∨
      ∃ s, peer.slots[j]? = some s ∧ s'.remoteEnd.id = s.remoteEnd.id) : DistinctRemotes peer' := by
  intro j k s' t' hj hk hs ht hEq hBound
  rcases hSlots j s' hs with hNone | ⟨s, hOldS, hIdS⟩
  · exact absurd hNone hBound
  rcases hSlots k t' ht with hNone | ⟨t, hOldT, hIdT⟩
  · rw [hEq] at hBound
    exact absurd hNone hBound
  · exact h j k s t hj hk hOldS hOldT (by rw [← hIdS, ← hIdT, hEq]) (by rw [← hIdS]; exact hBound)

/-- A slot may change, if it keeps its source. -/
theorem DistinctRemotes.set {peer peer' : Peer} (h : DistinctRemotes peer) {i : Nat}
    {slot slot' : PeerSlot} (hSlot : peer.slots[i]? = some slot)
    (hSlots : peer'.slots = peer.slots.set i slot') (hId : slot'.remoteEnd.id = slot.remoteEnd.id) :
    DistinctRemotes peer' := by
  refine h.of_remotes fun j s' hs' => Or.inr ?_
  rw [hSlots] at hs'
  rcases getElem?_set_cases hs' with ⟨rfl, rfl⟩ | ⟨_, hOld⟩
  · exact ⟨slot, hSlot, hId⟩
  · exact ⟨s', hOld, rfl⟩

/-- The same for an update in place. -/
theorem DistinctRemotes.modify {peer : Peer} (h : DistinctRemotes peer) (i : Nat)
    {f : PeerSlot → PeerSlot} (hId : ∀ slot, (f slot).remoteEnd.id = slot.remoteEnd.id) :
    DistinctRemotes { peer with slots := peer.slots.modify i f } := by
  refine h.of_remotes fun j s' hs' => Or.inr ?_
  obtain ⟨slot, hSlot, rfl | rfl⟩ := exists_of_getElem?_modify hs'
  · exact ⟨s', hSlot, rfl⟩
  · exact ⟨slot, hSlot, hId slot⟩

-- ---------------------------------------------------------------------------
-- One packet
-- ---------------------------------------------------------------------------

/-- The packet makes the host assign a slot to its source: it is addressed to a
slot, matches none, the first slot listens, and there is a free one. -/
def StartsSession (peer : Peer) (packet : PeerPacket) : Prop :=
  Addressed peer packet ∧ (∀ j, ¬ Matches peer j packet) ∧ peer.mode = .host ∧
    (peer.slots.head?).any (fun slot => slot.remoteEnd.id == peerUndefined) = true ∧
    ∃ j, freeSlot peer.slots = some j

/-- The packet makes the host assign a slot to a source that has one: it starts a
session, and the source is that of a slot already. -/
def SecondSession (peer : Peer) (packet : PeerPacket) : Prop :=
  StartsSession peer packet ∧ packet.sourceId ≠ peerUndefined ∧
    ∃ k slot, 1 ≤ k ∧ peer.slots[k]? = some slot ∧ slot.remoteEnd.id = packet.sourceId

/-- It assigns the first free one. -/
theorem assignSlot_of_startsSession {peer : Peer} {packet : PeerPacket}
    (h : StartsSession peer packet) :
    ∃ j slot, 1 ≤ j ∧ peer.slots[j]? = some slot ∧ slot.remoteEnd.id = peerUndefined ∧
      (assignSlot peer packet).2.slots = peer.slots.set j (slot.assign j packet.sourceId) := by
  obtain ⟨_, _, hMode, hFirst, j, hFree⟩ := h
  obtain ⟨slot, hj, hSlot, hIsFree⟩ := freeSlot_eq_some hFree
  refine ⟨j, slot, hj, hSlot, ?_, ?_⟩
  · simp only [PeerSlot.isFree, Bool.and_eq_true, beq_iff_eq] at hIsFree
    exact hIsFree.1
  · rw [assignSlot, if_neg (by simp [hMode, hFirst]), hFree]
    exact modify_eq_set_of_getElem? hSlot _

/-- No chunk of a packet binds anything. -/
theorem distinctRemotes_chunk {peer peer' : Peer} {j : Nat} {chunk : Chunk}
    (h : DistinctRemotes peer) (hStep : ChunkStep j chunk peer peer') : DistinctRemotes peer' := by
  cases hStep with
  | hostSkip => exact h
  | hostStore _ hSlot => exact h.set hSlot rfl rfl
  | clientSkip => exact h
  | clientRespond _ hSlot => exact h.set hSlot rfl rfl
  | clientLearn => exact h

/-- **One packet** keeps the bound sources distinct exactly if it does not give its
source a second slot. In the other direction, the slot that the packet is given and
the one that the source has already are the two that are equal. -/
theorem distinctRemotes_inputPacket_iff {peer peer' : Peer} {packet : PeerPacket} {s : Status}
    (h : DistinctRemotes peer) (hInput : inputPacket peer packet = .ok (s, peer')) :
    DistinctRemotes peer' ↔ ¬ SecondSession peer packet := by
  rcases inputPacket_cases hInput with ⟨hOther, rfl⟩ | ⟨j, s1, s2, cs, al, hMatch, _, hChunks⟩ |
    ⟨hAddressed, hNone, rfl⟩
  · exact ⟨fun _ hSecond => hOther hSecond.1.1, fun _ => h⟩
  · refine ⟨fun _ hSecond => hSecond.1.2.1 j hMatch, fun _ => ?_⟩
    exact inputChunks_invariant (fun p p' chunk _ hp hStep => distinctRemotes_chunk hp hStep)
      hChunks h
  · constructor
    · -- the source would be bound at its old slot and at the one assigned
      rintro hDistinct ⟨hStarts, hDefined, k, old, hk, hOld, hId⟩
      obtain ⟨j, slot, hj, hSlot, hFree, hSet⟩ := assignSlot_of_startsSession hStarts
      have hLt := (List.getElem?_eq_some_iff.mp hSlot).1
      have hNe : j ≠ k := by
        rintro rfl
        rw [hSlot, Option.some.injEq] at hOld
        rw [← hOld, hFree] at hId
        exact hDefined hId.symm
      refine hNe (hDistinct j k (slot.assign j packet.sourceId) old hj hk ?_ ?_ hId.symm hDefined)
      · rw [hSet, List.getElem?_set_self hLt]
      · rw [hSet, List.getElem?_set_ne hNe, hOld]
    · intro hFirst
      rcases assignSlot_cases peer packet with
        hSame | ⟨j, first, slot, hMode, hZero, hListen, hj, hFree, hSlot, hIsFree, hSet⟩
      · rw [hSame]
        exact h
      have hLt := (List.getElem?_eq_some_iff.mp hSlot).1
      have hStarts : StartsSession peer packet := by
        refine ⟨hAddressed, hNone, hMode, ?_, j, hFree⟩
        rw [List.head?_eq_getElem?, hZero]
        simp [hListen]
      -- another slot bound to the source would have been the first of two
      have hFresh : packet.sourceId ≠ peerUndefined → ∀ k t, 1 ≤ k → k ≠ j →
          peer.slots[k]? = some t → t.remoteEnd.id ≠ packet.sourceId := by
        intro hDefined k t hk _ ht hId
        exact hFirst ⟨hStarts, hDefined, k, t, hk, ht, hId⟩
      rw [hSet]
      intro a b s t ha hb hs ht hEq hBound
      by_cases haj : a = j
      · by_cases hbj : b = j
        · rw [haj, hbj]
        · subst haj
          rw [List.getElem?_set_self hLt, Option.some.injEq] at hs
          rw [List.getElem?_set_ne (Ne.symm hbj)] at ht
          subst hs
          exact absurd hEq.symm (hFresh hBound b t hb hbj ht)
      · rw [List.getElem?_set_ne (Ne.symm haj)] at hs
        by_cases hbj : b = j
        · subst hbj
          rw [List.getElem?_set_self hLt, Option.some.injEq] at ht
          subst ht
          rw [hEq] at hBound
          exact absurd hEq (hFresh hBound a s ha haj hs)
        · rw [List.getElem?_set_ne (Ne.symm hbj)] at ht
          exact h a b s t ha hb hs ht hEq hBound

-- ---------------------------------------------------------------------------
-- Runs
-- ---------------------------------------------------------------------------

/-- No packet of an input gives its source a second slot, each packet taken in
the state that the ones before it leave. -/
def OneSessionEach (peer : Peer) (packets : List PeerPacket) : Prop :=
  ∀ before packet after s p, packets = before ++ packet :: after →
    peerInput peer before = .ok (s, p) → ¬ SecondSession p packet

/-- The packets of an input, one after another. -/
theorem distinctRemotes_peerInput {packets : List PeerPacket} {peer peer' : Peer} {s : Status}
    (hOne : OneSessionEach peer packets) (h : DistinctRemotes peer)
    (hInput : peerInput peer packets = .ok (s, peer')) : DistinctRemotes peer' := by
  induction packets generalizing peer s with
  | nil =>
    obtain ⟨_, rfl⟩ : _ ∧ peer = peer' := by simpa [peerInput] using hInput
    exact h
  | cons packet packets ih =>
    obtain ⟨s1, s2, p1, hFirst, hRest⟩ := peerInput_cons hInput
    have hHere := hOne [] packet packets kitOk peer rfl rfl
    refine ih ?_ ((distinctRemotes_inputPacket_iff h hFirst).mpr hHere) hRest
    intro before q after s3 p hSplit hBefore
    refine hOne (packet :: before) q after (s1 ||| s3) p (by rw [hSplit]; rfl) ?_
    exact peerInput_of_cons hFirst hBefore

/-- A call of the host's application binds nothing: new slots are unbound, and a
tick writes states, clocks and cursors, none of which the statement reads. -/
theorem distinctRemotes_call {peer peer' : Peer} {a : PeerAction} {s : Status}
    {ps : List PeerPacket} (hCall : a.isHostCall = true) (h : DistinctRemotes peer)
    (hAct : peer.act a = .ok (s, ps, peer')) : DistinctRemotes peer' := by
  have hCase := Peer.act_cases hAct
  cases a with
  | openSlots ids =>
    obtain ⟨_, rfl⟩ := hCase
    obtain ⟨opened, al, hOpen⟩ := peerOpen_opens peer ids
    rw [hOpen]
    -- a new slot is not bound
    refine h.of_remotes fun j s' hs' => ?_
    by_cases hj : j < peer.slots.length
    · rw [List.getElem?_append_left hj] at hs'
      exact Or.inr ⟨s', hs', rfl⟩
    · rw [List.getElem?_append_right (by omega)] at hs'
      obtain ⟨i, id, _, rfl⟩ := List.mem_mapIdx.mp (List.mem_of_getElem? hs')
      exact Or.inl rfl
  | queue messageData =>
    obtain ⟨_, rfl⟩ := hCase
    obtain ⟨data, hQueued⟩ := peerQueue_queued peer messageData
    generalize (peerQueue peer messageData).2 = peer' at hQueued
    cases hQueued with
    | refused => exact h
    | host => exact h
    | client _ hSlot => exact h.set hSlot rfl rfl
  | tick e =>
    -- a tick leaves the remote ends
    refine h.of_remotes fun j s' hs' => Or.inr ?_
    obtain ⟨slot, hSlot, hTicked⟩ := getElem?_of_forall₂_right (peerTick_frame hCase).slots hs'
    exact ⟨slot, hSlot, congrArg PeerEndpoint.id hTicked.remoteEnd⟩
  | setAddress j size data =>
    obtain ⟨_, rfl⟩ := hCase
    exact h.modify _ (fun _ => rfl)
  | connect _ => cases hCall
  | input _ => cases hCall
  | resolve _ _ => cases hCall

/-- A move that gives no source a second slot. Only an input of the host can do so,
and it is looked at packet by packet. -/
def SingleSessionMove (w : World) (a : WorldAction) (_ : World) : Prop :=
  a.isMove = true ∧
    ∀ positions, a = .toHost positions → OneSessionEach w.host (delivered w.clientSent positions)

/-- **Step lemma.** Apart from an input of the host, no move binds a slot at all. -/
theorem distinctRemotes_step {w w' : World} {a : WorldAction} (h : DistinctRemotes w.host)
    (hStep : w.step a = .ok w') (hMove : SingleSessionMove w a w') : DistinctRemotes w'.host := by
  obtain ⟨hCall, hOne⟩ := hMove
  cases worldStep_of_step hStep with
  | host hAct => exact distinctRemotes_call hCall h hAct
  | client => exact h
  | toHost hInput => exact distinctRemotes_peerInput (hOne _ rfl) h hInput
  | toClient => exact h

/-- A host and clients, just initialized, with any allocators: nothing about
sessions depends on whether a request for memory is granted. -/
def Initialized (w : World) : Prop :=
  ∃ alloc rng clients, w = World.start (peerInit .host alloc rng) clients ∧
    ∀ client ∈ clients, ∃ al r, client = peerInit .client al r

/-- **One session per client**, in every run in which no packet gives its
source a second slot: no two slots are bound to the same source. -/
theorem distinctRemotes_of_reaches {w w' : World} (hStart : Initialized w)
    (hReach : Reaches World.step SingleSessionMove w w') : DistinctRemotes w'.host := by
  obtain ⟨alloc, rng, clients, rfl, _⟩ := hStart
  refine hReach.invariant (I := fun w => DistinctRemotes w.host)
    (fun _ _ _ hInv hOk hMove => distinctRemotes_step hInv hOk hMove) ?_
  intro j k s t _ _ hs
  simp [World.start, peerInit] at hs

/-- A host and one client, whose ids are the same in every example. -/
def pairStart : World :=
  World.start (peerInit .host .reliable ⟨fun _ => 0⟩) [peerInit .client .reliable ⟨fun _ => 0⟩]

/-- Such a start is one that runs begin with. -/
theorem initialized_pairStart : Initialized pairStart :=
  ⟨_, _, _, rfl, fun _ h => ⟨_, _, List.mem_singleton.mp h⟩⟩

/-- A host and two clients. -/
def twoStart : World :=
  World.start (peerInit .host .reliable ⟨fun _ => 0⟩)
    [peerInit .client .reliable ⟨fun _ => 0⟩, peerInit .client .reliable ⟨fun _ => 0⟩]

theorem initialized_twoStart : Initialized twoStart := by
  refine ⟨_, _, _, rfl, fun client hClient => ?_⟩
  rcases List.mem_cons.mp hClient with rfl | hSecond
  · exact ⟨_, _, rfl⟩
  · exact ⟨_, _, List.mem_singleton.mp hSecond⟩

/-- Both clients ask the listening slot for a session, the second one's request
arrives first, and both are given the packets of both answers. -/
def twoSessions : List WorldAction :=
  [.host (.openSlots (some [1, 2, 3])),
   .host (.setAddress 1 oneByte (byteAddress 2)), .host (.setAddress 2 oneByte (byteAddress 3)),
   .client 0 (.openSlots (some [4])), .client 0 (.connect 1), .client 0 (.tick 0),
   .client 1 (.openSlots (some [5])), .client 1 (.connect 1), .client 1 (.tick 0),
   .toHost [1, 0], .host (.tick 0), .toClient 0 [0, 1], .toClient 1 [0, 1]]

/-- `OneSessionEach` as a walk over the packets: each one matches a slot, or no
slot above the listening one is bound to its source. -/
def walksOneSession (peer : Peer) : List PeerPacket → Bool
  | [] => true
  | packet :: packets =>
    (peer.slots.any (·.matchesPacket packet) ||
      peer.slots.tail.all (·.remoteEnd.id != packet.sourceId)) &&
    match inputPacket peer packet with
    | .ok (_, peer) => walksOneSession peer packets
    | .error _ => true

/-- The walk over the packets tests what `OneSessionEach` says of every split of
them: at each packet the state is that behind the packets before it, which is the
one that the split speaks of. -/
theorem oneSessionEach_of_walk {peer : Peer} {packets : List PeerPacket}
    (h : walksOneSession peer packets = true) : OneSessionEach peer packets := by
  intro before packet after s p hSplit hBefore
  -- on the packets in front, each of which the walk has taken before
  induction before generalizing peer packets s with
  | nil =>
    obtain ⟨_, rfl⟩ : _ ∧ peer = p := by simpa [peerInput] using hBefore
    rw [hSplit, List.nil_append, walksOneSession, Bool.and_eq_true, Bool.or_eq_true] at h
    rintro ⟨⟨_, hNone, _⟩, _, k, slot, hk, hSlot, hId⟩
    rcases h.1 with hMatch | hFresh
    · obtain ⟨slot, hMem, hMatches⟩ := List.any_eq_true.mp hMatch
      obtain ⟨j, hj⟩ := List.mem_iff_getElem?.mp hMem
      exact hNone j ⟨slot, hj, hMatches⟩
    · obtain ⟨i, rfl⟩ : ∃ i, k = i + 1 := ⟨k - 1, by omega⟩
      have hTail : slot ∈ peer.slots.tail := List.mem_of_getElem? (by rwa [List.getElem?_tail])
      have hOther := List.all_eq_true.mp hFresh slot hTail
      rw [bne_iff_ne] at hOther
      exact hOther hId
  | cons first before ih =>
    obtain ⟨s1, s2, p1, hFirst, hRest⟩ := peerInput_cons hBefore
    rw [hSplit, List.cons_append, walksOneSession, hFirst, Bool.and_eq_true] at h
    exact ih h.2 s2 rfl hRest

/-- A move after which every client has one slot at most, as far as it can be
seen in the packets that are delivered. -/
def isSingleSession (w : World) (a : WorldAction) (_ : World) : Bool :=
  a.isMove && match a with
    | .toHost positions => walksOneSession w.host (delivered w.clientSent positions)
    | .host _ | .client _ _ | .toClient _ _ => true

/-- The test accepts only such moves. -/
theorem singleSessionMove_of_isSingleSession (w : World) (a : WorldAction) (w' : World)
    (h : isSingleSession w a w' = true) : SingleSessionMove w a w' := by
  obtain ⟨hMove, hWalk⟩ := Bool.and_eq_true_iff.mp h
  refine ⟨hMove, ?_⟩
  rintro positions rfl
  exact oneSessionEach_of_walk hWalk

/-- Two sessions, and then each client's first message, which goes to its own
slot: every packet that has no slot comes from a source that has none. -/
theorem distinctRemotes_of_reaches_two : ∃ w : World,
    w.host.slots.map (·.remoteEnd.id) = [-1, 5, 4] ∧
      w.host.slots.map (fun slot => slot.queue.map (·.data)) = [[], [[98]], [[97]]] ∧
      DistinctRemotes w.host := by
  obtain ⟨w, hReach, hBound, hQueues⟩ :=
    exists_reaches_where World.step SingleSessionMove isSingleSession
      singleSessionMove_of_isSingleSession
      (twoSessions ++ [.client 0 (.resolve 0 3), .client 1 (.resolve 0 2),
        .client 0 (.queue (some [97])), .client 1 (.queue (some [98])),
        .client 0 (.tick 0), .client 1 (.tick 0), .toHost [3, 2, 3]]) twoStart
      (fun w => w.host.slots.map (·.remoteEnd.id) = [-1, 5, 4] ∧
        w.host.slots.map (fun slot => slot.queue.map (·.data)) = [[], [[98]], [[97]]])
      (by decide +kernel)
  exact ⟨w, hBound, hQueues, distinctRemotes_of_reaches initialized_twoStart hReach⟩

/-- The host opens a listening slot and two more; the client connects to it and
sends a heartbeat, which the network delivers twice. -/
def duplicateRequest : List WorldAction :=
  [.host (.openSlots (some [1, 2, 4])),
   .host (.setAddress 1 oneByte (byteAddress 2)),
   .host (.setAddress 2 oneByte (byteAddress 4)),
   .client 0 (.openSlots (some [3])), .client 0 (.connect 1), .client 0 (.tick 0), .toHost [0, 0]]

/-- The request is delivered twice, and both slots are bound to the client: the
first packet comes to the listening slot's id, as does its copy, so neither matches
a bound slot and each binds one. -/
theorem not_distinctRemotes :
    ¬ ∀ w w' : World, Initialized w → Reaches World.step (fun _ a _ => a.isMove = true) w w' →
      DistinctRemotes w'.host := by
  intro hAll
  obtain ⟨w, hReach, hTest⟩ : ∃ w,
      Reaches World.step (fun _ a _ => a.isMove = true) pairStart w ∧
        decide (w.host.slots.map (·.remoteEnd.id) = [-1, 3, 3]) = true :=
    exists_reaches_of_runGuarded (fun _ a _ => a.isMove) (fun _ _ _ h => h) duplicateRequest _
      (fun w : World => decide (w.host.slots.map (·.remoteEnd.id) = [-1, 3, 3])) (by decide +kernel)
  have hIds := of_decide_eq_true hTest
  obtain ⟨s0, rest, hs0, _, hRest⟩ := List.map_eq_cons_iff.mp hIds
  obtain ⟨s1, rest, hs1, h1, hRest⟩ := List.map_eq_cons_iff.mp hRest
  obtain ⟨s2, rest, hs2, h2, _⟩ := List.map_eq_cons_iff.mp hRest
  subst hs2 hs1
  have := hAll _ _ initialized_pairStart hReach 1 2 s1 s2 (by decide) (by decide)
    (by rw [hs0]; rfl) (by rw [hs0]; rfl) (by rw [h1, h2]) (by rw [h1]; decide)
  omega

end PeerProtocol
