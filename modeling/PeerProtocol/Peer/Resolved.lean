import PeerProtocol.Peer.Emission
import PeerProtocol.Peer.Host

/-!
# peer — sending to resolved endpoints

A remote end has an id, or `PEER_UNDEFINED`, and a flag that says whether that
id is the one to send to. Where the flag is not set the id is an old one, or
none: after a session response it is that of the endpoint the response came
from, and `socket_pool.c` has yet to find the one that its address names. Does
a tick look at the flag?

On a host it does not have to. A host binds a slot to an id that a packet came
from, and sets the flag with it; nothing on a host clears it. So a slot that
is not empty has a resolved end, and an empty slot is sent nothing.

On a client it should and does not. Its tick tests neither the id nor the
flag, so a client sends to `PEER_UNDEFINED` before it is connected, and to the
old id after it has had its answer. `TickReady` is the condition on a tick
under which it does not: the slot is resolved, or nothing is due.

## Results

* `SendsResolved` — every packet of a tick goes to the remote id of a slot
  that has one, and whose flag is set.
* `ResolvedInv`, `ResolvedInv.act`, `ResolvedInv.sends` — on a host, a slot
  that is not empty has such an id; so its ticks only send to such ids.
* `sendsResolved_of_reaches` — every tick of every run whose steps meet the
  condition.
-/

namespace PeerProtocol

open Lib

/-- The remote end has an id, and it is the one to send to. -/
def PeerEndpoint.Resolved (e : PeerEndpoint) : Prop :=
  e.id ≠ peerUndefined ∧ e.isIdResolved = true

instance (e : PeerEndpoint) : Decidable e.Resolved := inferInstanceAs (Decidable (_ ∧ _))

/-- Every packet that the tick emits goes to a slot with a resolved remote end. -/
def SendsResolved (peer : Peer) (e : Int) : Prop :=
  ∀ s packets peer', peerTick peer e = .ok (s, packets, peer') →
    ∀ p ∈ packets, ∃ slot ∈ peer.slots, p.destinationId = slot.remoteEnd.id ∧ slot.remoteEnd.Resolved

/-- What a client's tick does not check: where something is due, the slot is
resolved. A host's tick needs no such condition, since it sends to slots in use
only. -/
def TickReady (peer : Peer) (e : Int) : Prop :=
  peer.mode = .client → ValidElapsed peer e → ∀ slot, peer.slots.head? = some slot →
    (slot.tickClock e).Due → slot.remoteEnd.Resolved

-- ---------------------------------------------------------------------------
-- The host
-- ---------------------------------------------------------------------------

/-- What the application of a host may do: its calls, the input of packets from
sources with an id, and writing ids of remote ends. -/
def PeerAction.IsHostUse : PeerAction → Prop
  | .resolve _ id => id ≠ peerUndefined
  | a => a.IsHostStep

/-- A slot of a host that is not empty was assigned, or resolved since. -/
def ResolvedSlots (peer : Peer) : Prop :=
  ∀ slot ∈ peer.slots, slot.state ≠ .empty → slot.remoteEnd.Resolved

/-- A host whose slots are resolved wherever they are not empty: an input binds a
slot with an id that it takes from a packet, and marks it as resolved. -/
structure ResolvedInv (peer : Peer) : Prop extends HostInv peer where
  resolved : ResolvedSlots peer

/-- A slot is bound to an id that a packet came from, which is resolved at once:
binding a slot writes the id and the flag together, and no other part of an input
writes either of them. -/
theorem ResolvedSlots.input {peer peer' : Peer} {packets : List PeerPacket} {s : Status}
    (h : ResolvedSlots peer) (hMode : peer.mode = .host)
    (hSource : ∀ p ∈ packets, p.sourceId ≠ peerUndefined)
    (hInput : peerInput peer packets = .ok (s, peer')) : ResolvedSlots peer' := by
  refine (peerInput_invariant (I := fun p => p.mode = .host ∧ ResolvedSlots p) ?_ ?_ ?_ hInput
    ⟨hMode, h⟩).2
  · intro p packet s cs al _ hp _
    exact hp
  · rintro start p p' packet j s cs al chunk _ _ _ _ ⟨hMode, hp⟩ _ hStep
    cases hStep.onHost hMode with
    | skip => exact ⟨hMode, hp⟩
    | @store slot _ _ _ _ _ hSlot =>
      refine ⟨hMode, fun slot' hSlot' hState => ?_⟩
      rcases List.mem_or_eq_of_mem_set hSlot' with hOld | rfl
      · exact hp slot' hOld hState
      · exact hp slot (List.mem_of_getElem? hSlot) hState
  · rintro p packet hPacket ⟨hMode, hp⟩ _ _
    rcases assignSlot_cases p packet with hSame | ⟨j, _, slot, _, _, _, _, _, _, _, hSet⟩
    · rw [hSame]
      exact ⟨hMode, hp⟩
    · rw [hSet]
      refine ⟨hMode, fun slot' hSlot' hState => ?_⟩
      rcases List.mem_or_eq_of_mem_set hSlot' with hOld | rfl
      · exact hp slot' hOld hState
      · -- the slot gets the id of the packet's source
        exact ⟨hSource packet hPacket, rfl⟩

/-- A tick changes no remote end. -/
theorem ResolvedInv.tick {peer peer' : Peer} {e : Int} {s : Status} {ps : List PeerPacket}
    (h : ResolvedInv peer) (hTick : peerTick peer e = .ok (s, ps, peer')) : ResolvedSlots peer' := by
  by_cases hValid : ValidElapsed peer e
  · have hTicked := h.toHostInv.ticked hValid hTick
    have hSlots : ∀ (j : Nat) (slot' : PeerSlot), peer'.slots[j]? = some slot' →
        slot'.state ≠ .empty → slot'.remoteEnd.Resolved := by
      -- The clocks, then sending: neither writes a remote end, nor begins a session.
      refine hTicked.slots (P := fun _ slot => slot.state ≠ .empty → slot.remoteEnd.Resolved) (fun j slot hSlot => h.resolved slot (List.mem_of_getElem? hSlot)) ?_ ?_
      · intro j slot hSlot hState
        rw [tickClock_state] at hState
        rw [tickClock_remoteEnd]
        exact hSlot hState
      · intro j slot slot' _ hSlot hSent hState
        rw [hSent.remoteEnd]
        exact hSlot fun hEmpty => hState (hSent.state.mpr hEmpty)
    intro slot' hSlot'
    obtain ⟨j, hj⟩ := List.mem_iff_getElem?.mp hSlot'
    exact hSlots j slot' hj
  · obtain ⟨_, _, rfl⟩ := eq_of_peerTick_invalid hValid hTick
    exact h.resolved

/-- **Step lemma of the host**, for the calls that a host's application makes, and
for any input: every slot that is not empty has a remote id, and it is marked as
resolved. -/
theorem ResolvedInv.act {peer peer' : Peer} {a : PeerAction} {s : Status} {ps : List PeerPacket}
    (h : ResolvedInv peer) (hUse : a.IsHostUse) (hAct : peer.act a = .ok (s, ps, peer')) :
    ResolvedInv peer' := by
  refine ⟨h.toHostInv.act hAct, ?_⟩
  have hCase := Peer.act_cases hAct
  -- writing to a slot
  have hModify (i : Nat) (f : PeerSlot → PeerSlot) (hState : ∀ slot, (f slot).state = slot.state)
      (hf : ∀ slot, slot.remoteEnd.Resolved → (f slot).remoteEnd.Resolved) :
      ResolvedSlots { peer with slots := peer.slots.modify i f } := by
    intro slot' hSlot' hNotEmpty
    obtain ⟨j, hj⟩ := List.mem_iff_getElem?.mp hSlot'
    obtain ⟨slot, hSlot, rfl | rfl⟩ := exists_of_getElem?_modify hj
    · exact h.resolved slot' (List.mem_of_getElem? hSlot) hNotEmpty
    · rw [hState] at hNotEmpty
      exact hf slot (h.resolved slot (List.mem_of_getElem? hSlot) hNotEmpty)
  cases a with
  | openSlots ids =>
    obtain ⟨_, rfl⟩ := hCase
    rw [peerOpen_reliable h.alloc]
    intro slot hSlot hState
    rcases List.mem_append.mp hSlot with hOld | hNew
    · exact h.resolved slot hOld hState
    -- new slots are empty
    · obtain ⟨_, _, _, rfl⟩ := List.mem_mapIdx.mp hNew
      exact absurd rfl hState
  | queue messageData =>
    obtain ⟨_, rfl⟩ := hCase
    cases messageData with
    | none => exact h.resolved
    | some data =>
      rw [peerQueue_host h.mode h.alloc]
      exact h.resolved
  | input packets => exact h.resolved.input h.mode hUse hCase.2
  | tick e => exact h.tick hCase
  | connect serverId => exact absurd hUse nofun
  | setAddress j size data =>
    obtain ⟨_, rfl⟩ := hCase
    exact hModify j _ (fun _ => rfl) fun _ hSlot => hSlot
  | resolve j id =>
    obtain ⟨_, rfl⟩ := hCase
    exact hModify j _ (fun _ => rfl) fun _ _ => ⟨hUse, rfl⟩

/-- Its ticks send to resolved ends, for every elapsed time: a slot that sends is
not empty, and the slots that are not empty are those that the invariant speaks of. -/
theorem ResolvedInv.sends {peer : Peer} (h : ResolvedInv peer) (e : Int) : SendsResolved peer e := by
  intro s packets peer' hTick p hp
  by_cases hValid : ValidElapsed peer e
  · obtain ⟨sent, _, rfl, hAll⟩ := peerTick_host_posts h.mode h.alloc hValid
      (fun slot hSlot => (h.slot slot hSlot).cursor) hTick
    obtain ⟨ps, hPs, hMem⟩ := List.mem_flatten.mp hp
    obtain ⟨⟨slot', ps'⟩, hSent, rfl⟩ := List.mem_map.mp hPs
    obtain ⟨i, hi⟩ := List.mem_iff_getElem?.mp hSent
    obtain ⟨merged, hMerged, hPosts⟩ := getElem?_of_forall₂_right hAll hi
    rw [List.getElem?_map] at hMerged
    obtain ⟨slot, hSlot, rfl⟩ := Option.map_eq_some_iff.mp hMerged
    obtain ⟨hState, hDestination⟩ := hPosts.destinationId p hMem
    have hMem := List.mem_of_mem_tail (List.mem_of_getElem? hSlot)
    refine ⟨slot, hMem, by simpa using hDestination, h.resolved slot hMem ?_⟩
    simpa using hState
  · rw [(eq_of_peerTick_invalid hValid hTick).2.1] at hp
    cases hp

/-- A new host has no slots. -/
theorem resolvedInv_peerInit (rng : Mt64) : ResolvedInv (peerInit .host .reliable rng) where
  toHostInv := hostInv_peerInit rng
  resolved := by simp [ResolvedSlots, peerInit]

-- ---------------------------------------------------------------------------
-- Runs
-- ---------------------------------------------------------------------------

/-- A step that a peer of the mode may take: on a host, one that its application
may, and on a client any. -/
def StepAllowed (peer : Peer) (a : PeerAction) : Prop :=
  peer.mode = .host → a.IsHostUse

/-- **Only resolved endpoints are sent to**, in every run of a host and of a
client, by the ticks of a client in which the slot is resolved or nothing is due. -/
theorem sendsResolved_of_reaches {mode : PeerMode} {alloc : Allocator} {rng : Mt64} {peer : Peer}
    (hAlloc : mode = .host → alloc = .reliable)
    (hReach : Reaches Peer.step (fun p a _ => StepAllowed p a) (peerInit mode alloc rng) peer)
    {e : Int} (hReady : TickReady peer e) : SendsResolved peer e := by
  have hInv : peer.mode = mode ∧ (mode = .host → ResolvedInv peer) := by
    refine hReach.invariant (I := fun p => p.mode = mode ∧ (mode = .host → ResolvedInv p)) ?_
      ⟨rfl, ?_⟩
    · intro p a p' ⟨hMode, hp⟩ hStep hAllowed
      refine ⟨(Peer.mode_of_step hStep).trans hMode, fun hHost => ?_⟩
      obtain ⟨s, ps, hAct⟩ := Peer.step_eq_ok.mp hStep
      exact (hp hHost).act (hAllowed (hMode.trans hHost)) hAct
    · rintro rfl
      rw [hAlloc rfl]
      exact resolvedInv_peerInit rng
  obtain ⟨hMode, hHost⟩ := hInv
  -- A host has its invariant; a client the condition on the tick.
  cases mode with
  | host => exact (hHost rfl).sends e
  | client =>
    intro s packets peer' hTick p hp
    rcases peerTick_client_between hMode hTick with rfl | ⟨slot, hHead, hValid, hDue, hBetween⟩
    · simp at hp
    · exact ⟨slot, List.mem_of_head? hHead, (hBetween p hp).2, hReady hMode hValid slot hHead hDue⟩

/-- The check of a client's run, whose steps are all allowed. -/
def isClientStep (peer : Peer) (_ : PeerAction) (_ : Peer) : Bool := decide (peer.mode = .client)

theorem stepAllowed_of_client (peer : Peer) (a : PeerAction) (peer' : Peer)
    (h : isClientStep peer a peer' = true) : StepAllowed peer a := by
  intro hHost
  have hClient : peer.mode = .client := of_decide_eq_true h
  rw [hHost] at hClient
  cases hClient

/-- A client that was connected may send: its first tick goes to the server's id. -/
theorem sendsResolved_of_reaches_connected :
    ∃ peer, Reaches Peer.step (fun p a _ => StepAllowed p a)
        (peerInit .client .reliable ⟨fun _ => 0⟩) peer ∧
      TickReady peer 0 ∧ SendsResolved peer 0 := by
  obtain ⟨peer, hReach, hTest⟩ : ∃ peer, Reaches Peer.step (fun p a _ => StepAllowed p a)
      (peerInit .client .reliable ⟨fun _ => 0⟩) peer ∧
      peer.slots.all (fun slot => decide slot.remoteEnd.Resolved) = true :=
    exists_reaches_of_runGuarded isClientStep stepAllowed_of_client
      [.openSlots (some [3]), .connect 1] _
      (fun peer => peer.slots.all fun slot => decide slot.remoteEnd.Resolved) (by decide +kernel)
  have hReady : TickReady peer 0 := by
    intro _ _ slot hHead _
    exact of_decide_eq_true (List.all_eq_true.mp hTest slot (List.mem_of_head? hHead))
  exact ⟨peer, hReach, hReady, @sendsResolved_of_reaches .client _ _ _ nofun hReach 0 hReady⟩

/-- The destination ids of what a tick emits. -/
def tickDestinations (peer : Peer) (e : Int) : List Int :=
  match peerTick peer e with
  | .ok (_, packets, _) => packets.map (·.destinationId)
  | .error _ => []

/-- A client that was opened, but not connected, sends a heartbeat to no id: its
branch of `peer_tick` looks at the slot's cursor and clock, and neither at its id
nor at the flag. -/
theorem not_sendsResolved_opened :
    ¬ ∀ (mode : PeerMode) (rng : Mt64) (peer : Peer),
      Reaches Peer.step (fun p a _ => StepAllowed p a) (peerInit mode .reliable rng) peer →
      ∀ e, SendsResolved peer e := by
  intro h
  obtain ⟨peer, hReach, hTest⟩ : ∃ peer, Reaches Peer.step (fun p a _ => StepAllowed p a)
      (peerInit .client .reliable ⟨fun _ => 0⟩) peer ∧
      decide (peerUndefined ∈ tickDestinations peer 0) = true :=
    exists_reaches_of_runGuarded isClientStep stepAllowed_of_client [.openSlots (some [3])] _ (fun peer => decide (peerUndefined ∈ tickDestinations peer 0))
      (by decide +kernel)
  have hMem := of_decide_eq_true hTest
  unfold tickDestinations at hMem
  split at hMem
  · next s packets peer' hTick =>
    obtain ⟨p, hp, hDestination⟩ := List.mem_map.mp hMem
    obtain ⟨slot, _, hId, hResolved, _⟩ := h .client _ peer hReach 0 s packets peer' hTick p hp
    exact hResolved (hId.symm.trans hDestination)
  · simp at hMem

end PeerProtocol
