import PeerProtocol.World.Uplink

/-!
# peer — a lossless network

A protocol that repairs losses should lose nothing where nothing is lost. This
module looks at a host and one client over a network in which every packet is
input by the other end, once and in order, before anybody ticks again, and
asks whether all that the client has sent is in its slot.

It is not always. The host takes the first packet of a client for a request
and drops what is in it, since it has no slot for it yet; and the client
counts those messages as sent. Whether they come back depends on the first
tick that the client makes in the session. If it sends new messages, then its
trail repeats all earlier ones while they are fewer than 105. If it is a
heartbeat, then the trail is one of the mutual queue and repeats none of them.

* `Link` — a world, how many packets each end has input, and the slot in
  session with which the client last ticked;
* `LosslessMove` — the moves of such a network, by the positions of what is
  delivered;
* `CoveringTick` — a condition on the first tick in a session that leaves
  nothing behind: it sends new messages under the slot's actor id with fewer
  than 105 before them, or nothing was sent before;
* `Covered` — what the client has sent is ready in the slot, or in a packet
  that the host has not input yet. This is the invariant (`Lossless`), and
  `Lossless.step` the step lemma;
* `nothing_lost_of_reaches` — nothing is lost in any run with such ticks.

At the end there is a run with a heartbeat for its first tick, in which a
message is lost.
-/

namespace PeerProtocol

open Lib

-- ---------------------------------------------------------------------------
-- A link
-- ---------------------------------------------------------------------------

/-- A world, how many packets the host and the client have input, and the slot
of the session in which the client has ticked last. -/
structure Link where
  world : World
  hostTook : Nat
  clientTook : Nat
  ticked : Option Nat

/-- Nothing has been sent or input, and the client has not ticked in any session. -/
def Link.start (w : World) : Link where
  world := w
  hostTook := 0
  clientTook := 0
  ticked := none

/-- The slot that a client is in session with: it is bound to the client, and
the client's remote id is its local id. -/
def sessionOf (host client : Peer) : Option Nat :=
  (client.slots[0]?).bind fun own => host.slots.findIdx? fun slot =>
    slot.remoteEnd.id == own.localEnd.id && slot.localEnd.id == own.remoteEnd.id

/-- The session of the last tick of the client that did not fail, if it was in one.
The session is looked up in the state before the tick, as the tick's packets are for
its slot. -/
def tickedAfter (l : Link) : WorldAction → Option Nat
  | .client c (.tick e) =>
    match l.world.clients[c]? with
    | none => l.ticked
    | some client =>
      match peerTick client e with
      | .ok (s, _, _) => if s = kitOk then sessionOf l.world.host client else l.ticked
      | .error _ => l.ticked
  | _ => l.ticked

/-- How many packets a move gives the host. -/
def hostTakes : WorldAction → Nat
  | .toHost positions => positions.length
  | _ => 0

/-- How many packets it gives the client. -/
def clientTakes : WorldAction → Nat
  | .toClient _ positions => positions.length
  | _ => 0

/-- One move, with the record brought up to date. -/
def Link.step (l : Link) (a : WorldAction) : Except Fault Link := do
  let w ← l.world.step a
  return {
    world := w
    hostTook := l.hostTook + hostTakes a
    clientTook := l.clientTook + clientTakes a
    ticked := tickedAfter l a }

/-- The moves that send. -/
def WorldAction.isTick : WorldAction → Bool
  | .host (.tick _) => true
  | .client _ (.tick _) => true
  | _ => false

/-- A move over a network that delivers everything in order: the positions of what
is given to an end continue where the last delivery has stopped, and nobody ticks
before both ends have input all that was sent. -/
structure LosslessMove (l : Link) (a : WorldAction) (l' : Link) : Prop where
  move : UplinkMove l.world a l'.world
  -- the slots of the host have ids of their own
  ids : (l'.world.host.slots.map (·.localEnd.id)).Nodup
  settled : a.isTick = true → l.hostTook = l.world.clientSent.length ∧
    l.clientTook = l.world.hostSent.length
  toHost : ∀ positions, a = .toHost positions →
    positions = List.range' l.hostTook positions.length ∧ l'.hostTook ≤ l.world.clientSent.length
  toClient : ∀ c positions, a = .toClient c positions →
    positions = List.range' l.clientTook positions.length ∧
      l'.clientTook ≤ l.world.hostSent.length

/-- If the move is a tick of the client in session with a slot: it has ticked
in that session before, or it sends new messages, and its trail takes all that
was sent before, or nothing was sent before. New messages are labelled as the
slot's. A tick whose elapsed time is refused leaves everything as it is. -/
def CoveringTick (l : Link) (a : WorldAction) : Prop :=
  ∀ c e client own j, a = .client c (.tick e) → l.world.clients[c]? = some client →
    ValidElapsed client e → client.slots[0]? = some own → sessionOf l.world.host client = some j →
      if own.outIndex < own.queue.length then
        client.actor = j ∧ (l.ticked = some j ∨ own.outIndex < 105)
      else
        l.ticked = some j ∨ own.outIndex = 0

-- ---------------------------------------------------------------------------
-- The session of a client
-- ---------------------------------------------------------------------------

/-- What it says of the slot that was found. -/
theorem sessionOf_eq_some {host client : Peer} {own : PeerSlot} {j : Nat}
    (hOwn : client.slots[0]? = some own) (h : sessionOf host client = some j) :
    ∃ slot, host.slots[j]? = some slot ∧ slot.remoteEnd.id = own.localEnd.id ∧
      slot.localEnd.id = own.remoteEnd.id := by
  rw [sessionOf, hOwn, Option.bind_some] at h
  obtain ⟨hj, hIds, _⟩ := List.findIdx?_eq_some_iff_getElem.mp h
  simp only [Bool.and_eq_true, beq_iff_eq] at hIds
  exact ⟨_, List.getElem?_eq_getElem hj, hIds.1, hIds.2⟩

/-- Where the slots of a host have ids of their own, an id names one slot. -/
theorem onlySlot_of_nodup {host : Peer} (h : (host.slots.map (·.localEnd.id)).Nodup) {j : Nat}
    {slot : PeerSlot} (hSlot : host.slots[j]? = some slot) : OnlySlot host j slot.localEnd.id := by
  intro i other hOther hId
  have hAt (k : Nat) (s : PeerSlot) (hk : host.slots[k]? = some s) :
      (host.slots.map (·.localEnd.id))[k]? = some s.localEnd.id := by
    rw [List.getElem?_map, hk]
    rfl
  have hi := hAt i other hOther
  rw [hId, ← hAt j slot hSlot] at hi
  refine (List.getElem?_inj ?_ h).mp hi
  rw [List.length_map]
  exact (List.getElem?_eq_some_iff.mp hOther).1

/-- The slots of a host have different ids, so it is the session with that slot. -/
theorem sessionOf_of_slot {host client : Peer} (hIds : (host.slots.map (·.localEnd.id)).Nodup)
    {own slot : PeerSlot} {j : Nat} (hOwn : client.slots[0]? = some own)
    (hSlot : host.slots[j]? = some slot) (hRemote : slot.remoteEnd.id = own.localEnd.id)
    (hLocal : slot.localEnd.id = own.remoteEnd.id) : sessionOf host client = some j := by
  cases hSession : sessionOf host client with
  | none =>
    rw [sessionOf, hOwn, Option.bind_some, List.findIdx?_eq_none_iff] at hSession
    have hNone := hSession slot (List.mem_of_getElem? hSlot)
    rw [hRemote, hLocal] at hNone
    simp at hNone
  | some i =>
    obtain ⟨other, hOther, _, hId⟩ := sessionOf_eq_some hOwn hSession
    rw [onlySlot_of_nodup hIds hSlot i other hOther (hId.trans hLocal.symm)]

-- ---------------------------------------------------------------------------
-- What is on its way
-- ---------------------------------------------------------------------------

/-- What the client has sent is ready in the slot, or in a packet that the host
has not input yet. -/
def Covered (w : World) (took j : Nat) : Prop :=
  ∃ slot client box, w.host.slots[j]? = some slot ∧ w.clients[0]? = some client ∧
    client.outbox = some box ∧ slot.remoteEnd.id = box.id ∧
    ∀ k < box.sent, (slot.queue[k]?).any (·.isReady) = true ∨
      ∃ i p, took ≤ i ∧ w.clientSent[i]? = some p ∧ Addresses slot j k p

/-- A packet for a slot that is bound is for it later, too. -/
theorem Addresses.kept {slot slot' : PeerSlot} {j k : Nat} {p : PeerPacket}
    (h : Addresses slot j k p) (hKept : SlotKept slot slot')
    (hBound : slot.remoteEnd.id ≠ peerUndefined) : Addresses slot' j k p := by
  obtain ⟨cs, m, hSealed, hFits, hc⟩ := h
  refine ⟨cs, m, ?_, hFits, hc⟩
  rw [hKept.remoteId hBound, hKept.localId]
  exact hSealed

/-- A move that neither ticks the client nor delivers to the host: the packets on
their way are the same, and what the slot was missing is still in one of them. -/
theorem Covered.mono {w w' : World} {took j : Nat} (h : Covered w took j)
    (hDefined : peerUndefined ∉ w.clientIds) (hHost : SlotsKept w.host w'.host)
    (hSent : w.clientSent <+: w'.clientSent)
    (hBox : ∀ client box, w.clients[0]? = some client → client.outbox = some box →
      ∃ client' box', w'.clients[0]? = some client' ∧ client'.outbox = some box' ∧
        box'.id = box.id ∧ box'.sent = box.sent) : Covered w' took j := by
  obtain ⟨slot, client, box, hSlot, hClient, hOutbox, hRemote, hAll⟩ := h
  have hBound : slot.remoteEnd.id ≠ peerUndefined := fun hNone =>
    hDefined (hNone ▸ hRemote ▸ mem_clientIds (List.mem_of_getElem? hClient) hOutbox)
  obtain ⟨slot', hSlot', hKept⟩ := hHost j slot hSlot
  obtain ⟨client', box', hClient', hOutbox', hId, hCount⟩ := hBox client box hClient hOutbox
  refine ⟨slot', client', box', hSlot', hClient', hOutbox', ?_, fun k hk => ?_⟩
  · rw [hKept.remoteId hBound, hRemote, hId]
  · rcases hAll k (hCount ▸ hk) with hReady | ⟨i, p, hi, hp, hAddresses⟩
    · exact Or.inl (any_isReady_of_keeps hKept.ready hReady)
    · exact Or.inr ⟨i, p, hi, getElem?_of_isPrefix hSent hp, hAddresses.kept hKept hBound⟩

/-- The host has input the next packets: what was in them is ready now. Of what is
missing in the slot the rest is in the packets behind them, which are still to come. -/
theorem Covered.input {w : World} {took j n : Nat} (h : Covered w took j) (hInv : Uplink w)
    (hIds : (w.host.slots.map (·.localEnd.id)).Nodup) {s : Status} {host : Peer}
    (hInput : peerInput w.host (delivered w.clientSent (List.range' took n)) = .ok (s, host)) :
    Covered { w with host := host } (took + n) j := by
  obtain ⟨slot, client, box, hSlot, hClient, hOutbox, hRemote, hAll⟩ := h
  have hBound : slot.remoteEnd.id ≠ peerUndefined := fun hNone =>
    hInv.setting.defined (hNone ▸ hRemote ▸ mem_clientIds (List.mem_of_getElem? hClient) hOutbox)
  have hKept := (hInv.holds.input hInv.session
    (fun p hp => hInv.inFlight p (mem_of_mem_delivered hp)) hInput).2
  obtain ⟨slot', hSlot', hSlotKept⟩ := hKept j slot hSlot
  refine ⟨slot', client, box, hSlot', hClient, hOutbox, (hSlotKept.remoteId hBound).trans hRemote,
    fun k hk => ?_⟩
  rcases hAll k hk with hReady | ⟨i, p, hi, hp, hAddresses⟩
  · exact Or.inl (any_isReady_of_keeps hSlotKept.ready hReady)
  · by_cases hTaken : i < took + n
    · -- one of the packets that were input
      have hMem : p ∈ delivered w.clientSent (List.range' took n) :=
        List.mem_filterMap.mpr ⟨i, List.mem_range'_1.mpr ⟨hi, hTaken⟩, hp⟩
      obtain ⟨again, hAgain, hReady⟩ := peerInput_arrives hInv.session (hInv.source _) hSlot
        (onlySlot_of_nodup hIds hSlot) hMem hAddresses hInput
      rw [hSlot', Option.some.injEq] at hAgain
      subst hAgain
      exact Or.inl hReady
    · exact Or.inr ⟨i, p, Nat.not_lt.mp hTaken, hp, hAddresses.kept hSlotKept hBound⟩

/-- What has been sent is there, once everything was input. -/
theorem Covered.ready {w : World} {took j : Nat} (h : Covered w took j)
    (hSettled : took = w.clientSent.length) {client : Peer} {own slot : PeerSlot}
    (hClient : w.clients[0]? = some client) (hOwn : client.slots[0]? = some own)
    (hSlot : w.host.slots[j]? = some slot) {k : Nat} (hk : k < own.outIndex) :
    (slot.queue[k]?).any (·.isReady) = true := by
  obtain ⟨slot', client', box, hSlot', hClient', hOutbox, _, hAll⟩ := h
  rw [hSlot, Option.some.injEq] at hSlot'
  rw [hClient, Option.some.injEq] at hClient'
  subst hSlot' hClient'
  rw [Peer.outbox, hOwn, Option.map_some, Option.some.injEq] at hOutbox
  subst hOutbox
  rcases hAll k hk with hReady | ⟨i, p, hi, hp, _⟩
  · exact hReady
  · have := (List.getElem?_eq_some_iff.mp hp).1
    omega

-- ---------------------------------------------------------------------------
-- The invariant
-- ---------------------------------------------------------------------------

/-- A link on which what the client has sent, in the session that it ticked in,
is with the host or on its way. -/
structure Lossless (l : Link) : Prop extends Uplink l.world where
  one : l.world.clients.length = 1
  hostIds : (l.world.host.slots.map (·.localEnd.id)).Nodup
  actor : ∀ client ∈ l.world.clients, client.actor < 0x100000000
  covered : ∀ j, l.ticked = some j → Covered l.world l.hostTook j

/-- At the beginning nothing was sent. -/
theorem lossless_of_initialized {w : World} (h : ReliablyInitialized w) (hOne : w.clients.length = 1) :
    Lossless (Link.start w) := by
  have hUplink := uplink_of_initialized h
  obtain ⟨rng, clients, rfl, hClients⟩ := h
  refine ⟨hUplink, hOne, by simp [Link.start, World.start, peerInit], fun client hClient => ?_, nofun⟩
  obtain ⟨r, rfl⟩ := hClients client hClient
  exact show (-1 : Int) < 0x100000000 by decide

theorem Lossless.eq_zero {l : Link} (h : Lossless l) {c : Nat} {client : Peer}
    (hClient : l.world.clients[c]? = some client) : c = 0 := by
  have hLt := (List.getElem?_eq_some_iff.mp hClient).1
  rw [h.one] at hLt
  omega

section ClientTick

variable {l : Link} {client client' : Peer} {own : PeerSlot} {e : Int} {s : Status}
  {ps : List PeerPacket}

/-- Such a tick repeats nothing that the slot does not hold, so `World/Uplink.lean`
applies. -/
theorem Lossless.ownHeartbeat (h : Lossless l) {a : WorldAction} (hCovering : CoveringTick l a)
    (hSettled : a.isTick = true → l.hostTook = l.world.clientSent.length) :
    OwnHeartbeat l.world a := by
  rintro c e client rfl hClient hValid own hOwn hNone _ k hk m _ _ j slot hSlot _ hRemote hLocal
  have hSession := sessionOf_of_slot h.hostIds hOwn hSlot hRemote hLocal
  have hTick := hCovering c e client own j rfl hClient hValid hOwn hSession
  rw [if_neg (by omega)] at hTick
  have hk := (mem_trailIndices hk).1
  rcases hTick with hTicked | hZero
  · obtain rfl : c = 0 := by
      have := (List.getElem?_eq_some_iff.mp hClient).1
      have := h.one
      omega
    exact Or.inl ((h.covered j hTicked).ready (hSettled rfl) hClient hOwn hSlot hk)
  · omega

/-- A packet with a message of the client's slot is one for the slot of its session,
where the client's actor id is the slot's: a message with another one would be
refused. -/
theorem Lossless.addresses (h : Lossless l) (hClient : l.world.clients[0]? = some client)
    (hOwn : client.slots[0]? = some own) {j k : Nat} (hActor : client.actor = j) {slot : PeerSlot}
    {p : PeerPacket} {cs : List Chunk} (hSealed : Sealed slot.remoteEnd.id slot.localEnd.id p cs)
    {m : PeerMessage} (hm : own.queue[k]? = some m) (hc : m.chunk k ∈ cs) : Addresses slot j k p := by
  have hMem := List.mem_of_getElem? hClient
  have hOwnMem : own ∈ client.slots := List.mem_of_getElem? hOwn
  have hmMem := List.mem_of_getElem? hm
  have hEntry := (h.client client hMem).own.entry (h.setting.single client hMem) own hOwnMem m hmMem
  refine ⟨cs, m, hSealed, ⟨?_, (h.client client hMem).ownSmall hOwn m hmMem, hEntry.time, ?_⟩, hc⟩
  · -- an index of the queue fits its field
    have hLt := (List.getElem?_eq_some_iff.mp hm).1
    have := h.setting.clientSize client hMem own hOwnMem
    omega
  · -- and so does the client's actor id, which is the position of the slot
    have hFits := h.actor client hMem
    rw [hEntry.actor, hActor, toU32]
    omega

/-- **A tick in session** leaves nothing behind: what the client has sent before is
covered since its last tick in the session, or all of it is in the trail, or there
is none; and its new messages go out now. -/
theorem Lossless.covered_tick (h : Lossless l) (hClient : l.world.clients[0]? = some client)
    (hOwn : client.slots[0]? = some own) (hValid : ValidElapsed client e)
    (hTick : peerTick client e = .ok (s, ps, client')) {j : Nat}
    (hSettled : l.hostTook = l.world.clientSent.length)
    (hSession : sessionOf l.world.host client = some j)
    (hCovering : if own.outIndex < own.queue.length then
        client.actor = j ∧ (l.ticked = some j ∨ own.outIndex < 105)
      else l.ticked = some j ∨ own.outIndex = 0) :
    Covered { l.world with
      clients := l.world.clients.set 0 client', clientSent := l.world.clientSent ++ ps } l.hostTook j := by
  obtain ⟨slot, hSlot, hRemote, hLocal⟩ := sessionOf_eq_some hOwn hSession
  have hInv := h.client client (List.mem_of_getElem? hClient)
  obtain ⟨_, own', hOwn', hSends⟩ := hInv.tick hOwn hValid hTick
  have hCursor := hSends.caughtUp (by
    rw [tickClock_outIndex, tickClock_queue]
    exact (hInv.slot own (List.mem_of_getElem? hOwn)).1)
  rw [hSends.queue_eq, tickClock_queue] at hCursor
  -- what had been sent before is there, if the client had ticked in this session
  have hBefore (hTicked : l.ticked = some j) {k : Nat} (hk : k < own.outIndex) :
      (slot.queue[k]?).any (·.isReady) = true :=
    (h.covered j hTicked).ready hSettled hClient hOwn hSlot hk
  have hBox' := outbox_of_slot hOwn'
  obtain ⟨box, hBox, hId, _⟩ := (outbox_tick hTick).keeps (outbox_of_slot hOwn)
  rw [hBox', Option.some.injEq] at hBox
  subst hBox
  have hLt := (List.getElem?_eq_some_iff.mp hClient).1
  refine ⟨slot, _, own'.outbox, hSlot, List.getElem?_set_self hLt, hBox', hRemote.trans hId.symm,
    fun k hk => ?_⟩
  replace hk : k < own.queue.length := hCursor ▸ hk
  by_cases hThere : l.ticked = some j ∧ k < own.outIndex
  · exact Or.inl (hBefore hThere.1 hThere.2)
  by_cases hNew : own.outIndex < own.queue.length
  · -- the message goes out, as a new one or in the trail
    rw [if_pos hNew] at hCovering
    obtain ⟨hActor, hCovering⟩ := hCovering
    have hCovered : own.outIndex ≤ k + 5 ∨ own.outIndex < 105 := by
      rcases Nat.lt_or_ge k own.outIndex with hOld | hLater
      · exact Or.inr (hCovering.resolve_left fun hTicked => hThere ⟨hTicked, hOld⟩)
      · exact Or.inl (by omega)
    have hm : own.queue[k]? = some own.queue[k] := List.getElem?_eq_getElem hk
    obtain ⟨p, hp, cs, hSealed, hc⟩ := hSends.covers (m := own.queue[k]) (k := k)
      (by rwa [tickClock_outIndex, tickClock_queue]) (by rwa [tickClock_queue])
      (by rw [tickClock_outIndex]; exact hCovered)
    rw [tickClock_localEnd, tickClock_remoteEnd, ← hRemote, ← hLocal] at hSealed
    obtain ⟨i, hi⟩ := List.mem_iff_getElem?.mp hp
    refine Or.inr ⟨l.world.clientSent.length + i, p, by omega, ?_,
      h.addresses hClient hOwn hActor hSealed hm hc⟩
    rw [List.getElem?_append_right (by omega), Nat.add_sub_cancel_left, hi]
  · -- without new messages, all of the queue had been sent
    rw [if_neg hNew] at hCovering
    rcases hCovering with hTicked | hZero
    · exact Or.inl (hBefore hTicked (by omega))
    · omega

end ClientTick

/-- A move of a link is a move of its world. -/
theorem Link.step_eq_ok {l l' : Link} {a : WorldAction} (h : l.step a = .ok l') :
    l.world.step a = .ok l'.world ∧ l'.ticked = tickedAfter l a ∧
      l'.hostTook = l.hostTook + hostTakes a := by
  obtain ⟨w, hStep, hEq⟩ := bind_eq_ok.mp h
  obtain rfl := Except.ok.inj hEq
  exact ⟨hStep, rfl, rfl⟩

/-- The one client, replaced after an action that is no tick: what it has queued may
get longer, but its cursor stays, and only what is below the cursor has to be
covered. -/
theorem Covered.setClient {w : World} {took j c : Nat} (h : Covered w took j) (hInv : Uplink w)
    {client client' : Peer} {a : PeerAction} {s : Status} {ps sent : List PeerPacket}
    (hClient : w.clients[c]? = some client) (hAct : client.act a = .ok (s, ps, client'))
    (hNoTick : ∀ e, a ≠ .tick e) (hSent : w.clientSent <+: sent) :
    Covered { w with clients := w.clients.set c client', clientSent := sent } took j := by
  refine h.mono hInv.setting.defined (slotsKept_refl _) hSent fun first box hFirst hBox => ?_
  by_cases hc : c = 0
  · subst hc
    rw [hClient, Option.some.injEq] at hFirst
    subst hFirst
    have hOld := hInv.client client (List.mem_of_getElem? hClient)
    obtain ⟨box', hBox', hId, hCount⟩ :=
      (outbox_act hOld.mode hOld.alloc hAct).sent hNoTick hBox
    exact ⟨client', box', List.getElem?_set_self (List.getElem?_eq_some_iff.mp hClient).1, hBox', hId,
      hCount⟩
  · exact ⟨first, box, (List.getElem?_set_ne hc).trans hFirst, hBox, rfl, rfl⟩

/-- A tick of the client: in session it leaves nothing behind, and out of
session there is nothing to say. A tick that fails changes nothing. -/
theorem Lossless.covered_clientTick {l : Link} (h : Lossless l) {c : Nat} {client client' : Peer}
    {e : Int} {s : Status} {ps : List PeerPacket} (hClient : l.world.clients[c]? = some client)
    (hTick : peerTick client e = .ok (s, ps, client'))
    (hSettled : l.hostTook = l.world.clientSent.length)
    (hCovering : CoveringTick l (.client c (.tick e))) {j : Nat}
    (hj : tickedAfter l (.client c (.tick e)) = some j) :
    Covered { l.world with
      clients := l.world.clients.set c client', clientSent := l.world.clientSent ++ ps } l.hostTook j := by
  obtain rfl := h.eq_zero hClient
  simp only [tickedAfter, hClient, hTick] at hj
  by_cases hValid : ValidElapsed client e
  · cases hOwn : client.slots[0]? with
    | none =>
      -- without a slot there is no session
      have hNone : client.outbox = none := by
        rw [Peer.outbox, hOwn]
        rfl
      split at hj
      · rw [sessionOf, hOwn] at hj
        cases hj
      · obtain ⟨_, first, box, _, hFirst, hBox, _⟩ := h.covered j hj
        rw [hClient, Option.some.injEq] at hFirst
        subst hFirst
        rw [hNone] at hBox
        cases hBox
    | some own =>
      -- the client has sent, and with what it sent before this covers the session
      have hOk : s = kitOk := ((h.client client (List.mem_of_getElem? hClient)).tick hOwn hValid hTick).1
      rw [if_pos hOk] at hj
      exact h.covered_tick hClient hOwn hValid hTick hSettled hj
        (hCovering 0 e client own j rfl hClient hValid hOwn hj)
  -- a refused tick sends nothing, so what was covered stays covered
  · obtain ⟨hBad, rfl, rfl⟩ := eq_of_peerTick_invalid hValid hTick
    rw [if_neg hBad] at hj
    refine (h.covered j hj).mono h.setting.defined (slotsKept_refl _) (List.prefix_append _ _)
      fun first box hFirst hBox => ⟨first, box, ?_, hBox, rfl, rfl⟩
    rw [hClient] at hFirst
    rw [← hFirst]
    exact List.getElem?_set_self (List.getElem?_eq_some_iff.mp hClient).1

/-- What is on its way, after one move: for the session in which the client has
ticked, everything below its cursor is ready in the slot, or in a packet that the
host has not taken yet. -/
theorem Lossless.covered_step {l l' : Link} {a : WorldAction} (h : Lossless l)
    (hStep : l.step a = .ok l') (hMove : LosslessMove l a l') (hCovering : CoveringTick l a) :
    ∀ j, l'.ticked = some j → Covered l'.world l'.hostTook j := by
  obtain ⟨hWorld, hTicked, hTook⟩ := Link.step_eq_ok hStep
  rw [hTicked, hTook]
  intro j hj
  have hCase := worldStep_of_step hWorld
  generalize l'.world = w' at hCase
  cases hCase with
  | host hAct =>
    -- A move of the host keeps the sessions and its log, so what was covered is covered still.
    exact (h.covered j hj).mono h.setting.defined (h.session.kept_call hMove.move.2.1 hAct)
      List.prefix_rfl fun client box hClient hBox => ⟨client, box, hClient, hBox, rfl, rfl⟩
  | @client c a client client' s ps hClient hAct =>
    cases a with
    -- The one call of a client that sends, and at a tick nothing older is in flight.
    | tick e => exact h.covered_clientTick hClient hAct (hMove.settled rfl).1 hCovering hj
    | _ =>
      exact (h.covered j hj).setClient h.toUplink hClient hAct (fun _ hTick => by cases hTick)
        (List.prefix_append _ _)
  | @toHost positions s host hInput =>
    -- The host takes the next packets in the order they were sent, each of them once.
    rw [(hMove.toHost positions rfl).1] at hInput
    exact (h.covered j hj).input h.toUplink h.hostIds hInput
  | toClient hClient hInput =>
    exact (h.covered j hj).setClient h.toUplink hClient (Peer.act_input hInput)
      (fun _ hTick => by cases hTick) List.prefix_rfl

theorem World.length_clients_step {w w' : World} {a : WorldAction} (hStep : w.step a = .ok w') :
    w'.clients.length = w.clients.length := by
  rcases (worldStep_of_step hStep).clients with hSame | ⟨c, _, client', _, _, _, _, _, hSet⟩
  · rw [hSame]
  · rw [hSet, List.length_set]

/-- The actor ids of clients fit the field of a message: they were read from such a
field. -/
theorem Uplink.actor_step {w w' : World} {a : WorldAction} (h : Uplink w)
    (hActor : ∀ client ∈ w.clients, client.actor < 0x100000000) (hStep : w.step a = .ok w') :
    ∀ client ∈ w'.clients, client.actor < 0x100000000 := by
  rcases (worldStep_of_step hStep).clients with hSame | ⟨c, client, client', _, _, _, hClient, hAct, hSet⟩
  · rw [hSame]
    exact hActor
  · rw [hSet]
    intro other hOther
    rcases List.mem_or_eq_of_mem_set hOther with hOld | rfl
    · exact hActor other hOld
    · have hMem := List.mem_of_getElem? hClient
      rcases actor_act (h.client client hMem).mode hAct with hKept | hFits
      · rw [hKept]
        exact hActor client hMem
      · exact hFits.2

/-- **Step lemma.** What concerns the slot is kept by `Lossless.covered_step`, the
rest by the step lemma of `World/Uplink.lean`. -/
theorem Lossless.step {l l' : Link} {a : WorldAction} (h : Lossless l) (hStep : l.step a = .ok l')
    (hMove : LosslessMove l a l') (hCovering : CoveringTick l a) : Lossless l' := by
  have hWorld := (Link.step_eq_ok hStep).1
  exact {
    toUplink := h.toUplink.step hWorld hMove.move
      (h.ownHeartbeat hCovering fun hTick => (hMove.settled hTick).1)
    one := (World.length_clients_step hWorld).trans h.one
    hostIds := hMove.ids
    actor := h.toUplink.actor_step h.actor hWorld
    covered := h.covered_step hStep hMove hCovering }

-- ---------------------------------------------------------------------------
-- Runs
-- ---------------------------------------------------------------------------

/-- When the client has a session in which it has ticked, and the host has input
everything, then all that the client has sent is ready in the slot. -/
def NothingLost (l : Link) : Prop :=
  ∀ (j : Nat) (slot : PeerSlot) (client : Peer) (own : PeerSlot), 1 ≤ j →
    l.world.host.slots[j]? = some slot → client ∈ l.world.clients → client.slots[0]? = some own →
    slot.remoteEnd.id = own.localEnd.id → own.remoteEnd.id = slot.localEnd.id →
    l.ticked = some j → l.hostTook = l.world.clientSent.length → ∀ k < own.outIndex,
      ∃ m n, slot.queue[k]? = some m ∧ m.isReady = true ∧ own.queue[k]? = some n ∧ m.data = n.data

/-- Where everything was input, nothing is on its way. -/
theorem Lossless.nothingLost {l : Link} (h : Lossless l) : NothingLost l := by
  intro j slot client own hj hSlot hMem hOwn hBound hConnected hTicked hSettled k hk
  obtain ⟨c, hClient⟩ := List.mem_iff_getElem?.mp hMem
  obtain rfl := h.eq_zero hClient
  obtain ⟨m, hm, hReady⟩ := (Option.any_eq_true _ _).mp
    ((h.covered j hTicked).ready hSettled hClient hOwn hSlot hk)
  obtain ⟨n, hn, hData⟩ := h.integrity j slot client own hj hSlot hMem hOwn hBound hConnected k m hm hReady
  exact ⟨m, n, hm, hReady, hn, hData.symm⟩

/-- **Nothing is lost**, in every run whose ticks in session leave nothing behind:
whenever both ends have input everything, all that the client has sent in a session
is ready in its slot, with the data that the client queued. -/
theorem nothing_lost_of_reaches {w : World} {l : Link} (hStart : ReliablyInitialized w)
    (hOne : w.clients.length = 1)
    (hReach : Reaches Link.step (fun l a l' => LosslessMove l a l' ∧ CoveringTick l a)
      (Link.start w) l) : NothingLost l := by
  have h : Lossless l := hReach.invariant
    (fun _ _ _ hInv hOk hGuard => hInv.step hOk hGuard.1 hGuard.2) (lossless_of_initialized hStart hOne)
  exact h.nothingLost

/-- A test for `LosslessMove`. -/
def isLosslessMove (l : Link) (a : WorldAction) (l' : Link) : Bool :=
  decide (UplinkMove l.world a l'.world) &&
    decide (l'.world.host.slots.map (·.localEnd.id)).Nodup &&
    (!a.isTick || decide (l.hostTook = l.world.clientSent.length ∧
      l.clientTook = l.world.hostSent.length)) &&
    match a with
    | .toHost positions => decide (positions = List.range' l.hostTook positions.length ∧
        l'.hostTook ≤ l.world.clientSent.length)
    | .toClient _ positions => decide (positions = List.range' l.clientTook positions.length ∧
        l'.clientTook ≤ l.world.hostSent.length)
    | _ => true

theorem losslessMove_of_isLosslessMove {l l' : Link} {a : WorldAction}
    (h : isLosslessMove l a l' = true) : LosslessMove l a l' := by
  simp only [isLosslessMove, Bool.and_eq_true, Bool.or_eq_true, Bool.not_eq_true',
    decide_eq_true_eq] at h
  obtain ⟨⟨⟨hMove, hIds⟩, hSettled⟩, hPositions⟩ := h
  refine ⟨hMove, hIds, fun hTick => ?_, ?_, ?_⟩
  · exact hSettled.resolve_left (by simp [hTick])
  · rintro positions rfl
    exact of_decide_eq_true hPositions
  · rintro c positions rfl
    exact of_decide_eq_true hPositions

/-- A test for `CoveringTick`. -/
def isCoveringTick (l : Link) : WorldAction → Bool
  | .client c (.tick _) => (l.world.clients[c]?).all fun client => (client.slots[0]?).all fun own =>
      (sessionOf l.world.host client).all fun (j : Nat) =>
        decide (if own.outIndex < own.queue.length then
            client.actor = j ∧ (l.ticked = some j ∨ own.outIndex < 105)
          else
            l.ticked = some j ∨ own.outIndex = 0)
  | _ => true

theorem coveringTick_of_isCoveringTick {l : Link} {a : WorldAction} (h : isCoveringTick l a = true) :
    CoveringTick l a := by
  rintro c e client own j rfl hClient _ hOwn hSession
  rw [isCoveringTick, hClient, Option.all_some, hOwn, Option.all_some, hSession, Option.all_some] at h
  exact of_decide_eq_true h

/-- A client that queues a message and sends it as its request, before it has a
session. The host assigns a slot to it, queues a message too, and sends it. -/
def earlyMessage : List WorldAction :=
  [.host (.openSlots (some [1, 2])),
   .host (.setAddress 1 oneByte (byteAddress 2)),
   .client 0 (.openSlots (some [3])), .client 0 (.connect 1), .client 0 (.queue (some [97])),
   .client 0 (.tick 0), .toHost [0], .host (.tick 0), .toClient 0 [0], .client 0 (.resolve 0 2),
   .host (.queue (some [72])), .host (.tick 0), .toClient 0 [1]]

/-- The first message is sent before the session. With the second one, it arrives
too: the tick in session has a new message to send, so its trail comes from the
client's own queue and takes the first along. -/
theorem nothing_lost_of_reaches_early : ∃ l, Reaches Link.step
    (fun l a l' => LosslessMove l a l' ∧ CoveringTick l a) (Link.start pairStart) l ∧
      l.world.host.slots.map (fun slot => slot.queue.map (·.data)) = [[], [[97], [98]]] ∧
      NothingLost l := by
  obtain ⟨l, hReach, hTest⟩ : ∃ l, Reaches Link.step
      (fun l a l' => LosslessMove l a l' ∧ CoveringTick l a) (Link.start pairStart) l ∧
        decide (l.world.host.slots.map (fun slot => slot.queue.map (·.data)) =
          [[], [[97], [98]]]) = true :=
    exists_reaches_of_runGuarded (fun l a l' => isLosslessMove l a l' && isCoveringTick l a)
      (fun _ _ _ h => ⟨losslessMove_of_isLosslessMove (Bool.and_eq_true_iff.mp h).1,
        coveringTick_of_isCoveringTick (Bool.and_eq_true_iff.mp h).2⟩)
      (earlyMessage ++ [.client 0 (.queue (some [98])), .client 0 (.tick 0), .toHost [1]]) _
      (fun l : Link => decide
        (l.world.host.slots.map (fun slot => slot.queue.map (·.data)) = [[], [[97], [98]]]))
      (by decide +kernel)
  exact ⟨l, hReach, of_decide_eq_true hTest,
    nothing_lost_of_reaches reliablyInitialized_pairStart rfl hReach⟩

/-- The client has sent a message and ticked in its session, and the host has input
everything; but the slot's queue is empty. -/
def isFirstLost (l : Link) : Bool :=
  (l.world.host.slots[1]?).any fun slot => (l.world.clients[0]?).any fun client =>
    (client.slots[0]?).any fun own =>
      decide (slot.remoteEnd.id = own.localEnd.id ∧ own.remoteEnd.id = slot.localEnd.id ∧
        l.ticked = some 1 ∧ l.hostTook = l.world.clientSent.length ∧ 0 < own.outIndex ∧
        slot.queue = [])

/-- Without it, the first tick in session is a heartbeat, which repeats the mutual
queue instead: nothing of the first message, which was sent when no slot would store
it, goes out again. -/
theorem not_nothing_lost_of_reaches : ¬ ∀ (w : World) (l : Link), ReliablyInitialized w →
    w.clients.length = 1 → Reaches Link.step LosslessMove (Link.start w) l → NothingLost l := by
  intro hAll
  obtain ⟨l, hReach, hTest⟩ : ∃ l, Reaches Link.step LosslessMove (Link.start pairStart) l ∧
      isFirstLost l = true :=
    exists_reaches_of_runGuarded isLosslessMove (fun _ _ _ => losslessMove_of_isLosslessMove)
      (earlyMessage ++ [.client 0 (.tick peerTimeoutHeartbeat), .toHost [1]]) _ isFirstLost
      (by decide +kernel)
  obtain ⟨slot, hSlot, hTest⟩ := (Option.any_eq_true _ _).mp hTest
  obtain ⟨client, hClient, hTest⟩ := (Option.any_eq_true _ _).mp hTest
  obtain ⟨own, hOwn, hTest⟩ := (Option.any_eq_true _ _).mp hTest
  obtain ⟨hBound, hConnected, hTicked, hSettled, hSent, hEmpty⟩ := of_decide_eq_true hTest
  obtain ⟨m, _, hm, _⟩ := hAll _ l reliablyInitialized_pairStart rfl hReach 1 slot client own (by decide)
    hSlot (List.mem_of_getElem? hClient) hOwn hBound hConnected hTicked hSettled 0 hSent
  rw [hEmpty] at hm
  cases hm

end PeerProtocol
