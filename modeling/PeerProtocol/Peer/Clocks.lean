import PeerProtocol.Model.World
import PeerProtocol.Peer.Cursor

/-!
# peer — clocks that do not overflow

A peer counts time in signed 64-bit integers: a local time that only grows,
and for each slot the time left until its next heartbeat. `peer_tick` compares
the local time with what is left before it adds, and refuses the tick
otherwise. It does not look at the slots' clocks before it subtracts from
them, and it compares by a subtraction of its own, `INT64_MAX - time_elapsed`.
That none of the three overflows is shown here.

The invariant is small: the local time is not negative, so that no elapsed
time that is accepted is larger than the greatest time; and no clock is above
the heartbeat's timeout, which bounds it from above. From below a clock is
bounded by the elapsed time alone, since it is only moved while it is
positive.

Nothing is assumed of the packets or of the allocator, and both modes are
treated together: a clock is written in four places, always with the same
timeout.

## Results

* `TickFits` — the additions and subtractions of a tick stay in range.
* `ClocksInv` — what makes them; `ClocksInv.tickFits` — it is enough.
* `ClocksInv.act` — every action keeps that, whatever the packets and whatever
  the allocator does.
-/

namespace PeerProtocol

open Lib

/-- The arithmetic of a tick that is not refused for a negative time: the test
for an overflow, the local time, and the clocks that run. -/
def TickFits (peer : Peer) (timeElapsed : Int) : Prop :=
  0 ≤ timeElapsed → IsInt64 (int64Max - timeElapsed) ∧
    (ValidElapsed peer timeElapsed → IsInt64 (peer.timeLocal + timeElapsed) ∧
      ∀ slot ∈ peer.slots, slot.clockHeartbeat > 0 → IsInt64 (slot.clockHeartbeat - timeElapsed))

/-- The local time is a time, and no clock is above the timeout that it is started
with. So a tick can add its elapsed time, and a clock can be taken down by it,
without an overflow. -/
structure ClocksInv (peer : Peer) : Prop where
  timeLocal : 0 ≤ peer.timeLocal ∧ peer.timeLocal ≤ int64Max
  slot : ∀ slot ∈ peer.slots, slot.clockHeartbeat ≤ peerTimeoutHeartbeat

/-- A new peer has local time zero and no clocks. -/
theorem clocksInv_peerInit (mode : PeerMode) (alloc : Allocator) (rng : Mt64) :
    ClocksInv (peerInit mode alloc rng) where
  timeLocal := ⟨Int.le_refl 0, by simp [peerInit, int64Max]⟩
  slot := by simp [peerInit]

/-- The invariant is enough for every elapsed time that a caller can pass. -/
theorem ClocksInv.tickFits {peer : Peer} (h : ClocksInv peer) {e : Int} (he : IsInt64 e) :
    TickFits peer e := by
  intro hNonneg
  obtain ⟨hLocal, _⟩ := h.timeLocal
  obtain ⟨_, hMax⟩ := he
  refine ⟨?_, fun hValid => ⟨?_, fun slot hSlot hRuns => ?_⟩⟩
  · unfold IsInt64
    omega
  · have := hValid.2
    unfold IsInt64
    omega
  · have hBound : slot.clockHeartbeat ≤ peerTimeoutHeartbeat := h.slot slot hSlot
    have hBig : peerTimeoutHeartbeat ≤ int64Max := by decide
    unfold IsInt64
    omega

/-- The clock of each slot is that of a slot before, or the timeout. -/
theorem ClocksInv.of_slots {peer peer' : Peer} (h : ClocksInv peer)
    (hLocal : peer'.timeLocal = peer.timeLocal)
    (hSlots : ∀ slot' ∈ peer'.slots, slot'.clockHeartbeat ≤ peerTimeoutHeartbeat ∨
      ∃ slot ∈ peer.slots, slot'.clockHeartbeat = slot.clockHeartbeat) : ClocksInv peer' where
  timeLocal := by
    rw [hLocal]
    exact h.timeLocal
  slot := by
    intro slot' hSlot'
    rcases hSlots slot' hSlot' with hLe | ⟨slot, hSlot, hSame⟩
    · exact hLe
    · rw [hSame]
      exact h.slot slot hSlot

/-- One slot changes, and not its clock. -/
theorem ClocksInv.set {peer peer' : Peer} (h : ClocksInv peer)
    (hLocal : peer'.timeLocal = peer.timeLocal) {j : Nat} {slot slot' : PeerSlot}
    (hSlot : peer.slots[j]? = some slot) (hSlots : peer'.slots = peer.slots.set j slot')
    (hClock : slot'.clockHeartbeat = slot.clockHeartbeat) : ClocksInv peer' := by
  refine h.of_slots hLocal fun t ht => ?_
  rw [hSlots] at ht
  rcases List.mem_or_eq_of_mem_set ht with hOld | rfl
  · exact Or.inr ⟨t, hOld, rfl⟩
  · exact Or.inr ⟨slot, List.mem_of_getElem? hSlot, hClock⟩

/-- The same for a change of the slot's ends. -/
theorem ClocksInv.modify {peer : Peer} (h : ClocksInv peer) (j : Nat) {f : PeerSlot → PeerSlot}
    (hClock : ∀ slot, (f slot).clockHeartbeat = slot.clockHeartbeat) :
    ClocksInv { peer with slots := peer.slots.modify j f } := by
  refine h.of_slots rfl fun t ht => ?_
  obtain ⟨i, hi⟩ := List.mem_iff_getElem?.mp ht
  obtain ⟨slot, hSlot, rfl | rfl⟩ := exists_of_getElem?_modify hi
  · exact Or.inr ⟨t, List.mem_of_getElem? hSlot, rfl⟩
  · exact Or.inr ⟨slot, List.mem_of_getElem? hSlot, hClock slot⟩

-- ---------------------------------------------------------------------------
-- Input
-- ---------------------------------------------------------------------------

/-- No packet changes a clock, nor the local time; the time that a client is told is
kept apart, and its local time runs on. -/
theorem ClocksInv.input {peer peer' : Peer} {packets : List PeerPacket} {s : Status}
    (h : ClocksInv peer) (hInput : peerInput peer packets = .ok (s, peer')) : ClocksInv peer' := by
  refine peerInput_invariant ?_ ?_ ?_ hInput h
  · intro p packet s cs al _ hp _
    exact ⟨hp.timeLocal, hp.slot⟩
  · intro start p p' packet j s cs al chunk _ _ _ _ hp _ hStep
    cases hStep with
    | hostSkip => exact hp
    | hostStore _ hSlot => exact hp.set rfl hSlot rfl rfl
    | clientSkip => exact ⟨hp.timeLocal, hp.slot⟩
    | clientRespond _ hSlot => exact hp.set rfl hSlot rfl rfl
    | clientLearn => exact ⟨hp.timeLocal, hp.slot⟩
  · intro p packet _ hp _ _
    rcases assignSlot_cases p packet with hSame | ⟨j, _, slot, _, _, _, _, _, hSlot, _, hSet⟩
    · rw [hSame]
      exact hp
    · rw [hSet]
      exact hp.set rfl hSlot rfl rfl

-- ---------------------------------------------------------------------------
-- The tick
-- ---------------------------------------------------------------------------

/-- A clock that runs goes down, and one that has run down stays. -/
theorem tickClock_clockHeartbeat_le (slot : PeerSlot) {e : Int} (he : 0 ≤ e) :
    (slot.tickClock e).clockHeartbeat ≤ slot.clockHeartbeat := by
  unfold PeerSlot.tickClock
  split
  · dsimp only
    omega
  · exact Int.le_refl _

/-- The update of the clocks, for an elapsed time that was accepted. -/
theorem ClocksInv.tickClock {peer : Peer} (h : ClocksInv peer) {e : Int}
    (hValid : ValidElapsed peer e) : ClocksInv (peer.tickClock e) where
  timeLocal := by
    obtain ⟨hLo, hHi⟩ := hValid
    have := h.timeLocal
    show 0 ≤ peer.timeLocal + e ∧ peer.timeLocal + e ≤ int64Max
    omega
  slot := by
    intro slot' hSlot'
    obtain ⟨slot, hSlot, rfl⟩ := List.mem_map.mp hSlot'
    exact Int.le_trans (tickClock_clockHeartbeat_le slot hValid.1) (h.slot slot hSlot)

/-- Sending leaves a slot's clock, or starts it again with the timeout. -/
def ClockSent (slot slot' : PeerSlot) : Prop :=
  slot'.clockHeartbeat ≤ peerTimeoutHeartbeat ∨ slot'.clockHeartbeat = slot.clockHeartbeat

theorem sendSlot_clock {listenId time actor : Int} {queue : PeerQueue} {slot slot' : PeerSlot}
    {out out' : TickOutput} (h : sendSlot listenId time actor queue slot out = .ok (slot', out')) :
    ClockSent slot slot' := by
  have hTimeout : peerTimeoutHeartbeat ≤ peerTimeoutHeartbeat := Int.le_refl _
  unfold sendSlot at h
  split at h
  · obtain ⟨rfl, _⟩ := Prod.mk.inj (Except.ok.inj h)
    exact Or.inr rfl
  · obtain ⟨out1, _, h⟩ := bind_eq_ok.mp h
    obtain ⟨rfl, _⟩ := Prod.mk.inj (Except.ok.inj h)
    exact Or.inl hTimeout
  split at h
  -- New messages start the clock again, also where packing them has failed.
  · obtain ⟨⟨s, out1⟩, _, h⟩ := bind_eq_ok.mp h
    obtain ⟨rfl, _⟩ := Prod.mk.inj (Except.ok.inj h)
    exact Or.inl hTimeout
  split at h
  · obtain ⟨⟨started, out1⟩, _, h⟩ := bind_eq_ok.mp h
    obtain ⟨rfl, _⟩ := Prod.mk.inj (Except.ok.inj h)
    -- A heartbeat does so unless its list of chunks was refused.
    cases started with
    | true => exact Or.inl hTimeout
    | false => exact Or.inr rfl
  · obtain ⟨rfl, _⟩ := Prod.mk.inj (Except.ok.inj h)
    exact Or.inr rfl

theorem sendSlots_clock {listenId time actor : Int} {queue : PeerQueue} {slots slots' : List PeerSlot}
    {out out' : TickOutput}
    (h : sendSlots listenId time actor queue slots out = .ok (slots', out')) :
    List.Forall₂ ClockSent slots slots' := by
  induction slots generalizing out out' slots' with
  | nil =>
    obtain ⟨rfl, _⟩ := Prod.mk.inj (Except.ok.inj h)
    exact .nil
  | cons slot slots ih =>
    obtain ⟨⟨slot1, out1⟩, hFirst, h⟩ := bind_eq_ok.mp h
    obtain ⟨⟨slots1, out2⟩, hRest, h⟩ := bind_eq_ok.mp h
    obtain ⟨rfl, _⟩ := Prod.mk.inj (Except.ok.inj h)
    exact .cons (sendSlot_clock hFirst) (ih hRest)

/-- The merge has nothing to do with clocks. -/
theorem ClocksInv.hostMerge {peer : Peer} (h : ClocksInv peer) : ClocksInv (hostMerge peer).2 := by
  obtain ⟨_, hFirst, hTail⟩ := hostMerge_frame peer
  refine h.of_slots rfl fun slot' hSlot' => Or.inr ?_
  rw [← List.take_append_drop 1 (PeerProtocol.hostMerge peer).2.slots, hFirst, List.drop_one] at hSlot'
  rcases List.mem_append.mp hSlot' with hHead | hLater
  · exact ⟨slot', List.mem_of_mem_take hHead, rfl⟩
  · obtain ⟨slot, hSlot, _, rfl⟩ := exists_of_forall₂_right hTail hLater
    exact ⟨slot, List.mem_of_mem_tail hSlot, rfl⟩

theorem ClocksInv.hostSend {peer peer' : Peer} {status : Status} {out : TickOutput}
    (h : ClocksInv peer) (hSend : hostSend status peer = .ok (out, peer')) : ClocksInv peer' := by
  rw [hostSend_eq] at hSend
  obtain ⟨⟨slots', out1⟩, hSlots, hSend⟩ := bind_eq_ok.mp hSend
  obtain ⟨_, rfl⟩ := Prod.mk.inj (Except.ok.inj hSend)
  refine h.of_slots rfl fun slot' hSlot' => ?_
  rcases List.mem_append.mp hSlot' with hHead | hLater
  · exact Or.inr ⟨slot', List.mem_of_mem_take hHead, rfl⟩
  · obtain ⟨slot, hSlot, hClock⟩ := exists_of_forall₂_right (sendSlots_clock hSlots) hLater
    exact hClock.imp id fun hSame => ⟨slot, List.mem_of_mem_tail hSlot, hSame⟩

theorem ClocksInv.clientSend {peer peer' : Peer} {out : TickOutput} (h : ClocksInv peer)
    (hSend : clientSend peer = .ok (out, peer')) : ClocksInv peer' := by
  unfold PeerProtocol.clientSend at hSend
  cases hSlots : peer.slots with
  | nil =>
    rw [hSlots] at hSend
    obtain ⟨_, rfl⟩ := Prod.mk.inj (Except.ok.inj hSend)
    exact h
  | cons slot slots =>
    -- the first slot, with its clock as it was or started again
    have hFirst {slot' : PeerSlot} {rng : Mt64} {al : Allocator} (hClock : ClockSent slot slot') :
        ClocksInv { peer with slots := slot' :: slots, mt64 := rng, alloc := al } := by
      refine h.of_slots rfl fun t ht => ?_
      rw [hSlots]
      rcases List.mem_cons.mp ht with rfl | hLater
      · exact hClock.imp id fun hSame => ⟨slot, List.mem_cons_self .., hSame⟩
      · exact Or.inr ⟨t, List.mem_cons_of_mem _ hLater, rfl⟩
    simp only [hSlots] at hSend
    split at hSend
    · obtain ⟨⟨s, out1⟩, _, hSend⟩ := bind_eq_ok.mp hSend
      obtain ⟨_, rfl⟩ := Prod.mk.inj (Except.ok.inj hSend)
      exact hFirst (Or.inr rfl)
    split at hSend
    · obtain ⟨⟨started, out1⟩, _, hSend⟩ := bind_eq_ok.mp hSend
      obtain ⟨_, rfl⟩ := Prod.mk.inj (Except.ok.inj hSend)
      cases started with
      | true => exact hFirst (Or.inl (Int.le_refl _))
      | false => exact hFirst (Or.inr rfl)
    · obtain ⟨_, rfl⟩ := Prod.mk.inj (Except.ok.inj hSend)
      exact h

/-- A tick, also one that is refused: it takes the elapsed time off the clocks that
still run, or leaves all of them where it is refused, and what sending sets a clock
to is the timeout itself. -/
theorem ClocksInv.tick {peer peer' : Peer} {e : Int} {s : Status} {ps : List PeerPacket}
    (h : ClocksInv peer) (hTick : peerTick peer e = .ok (s, ps, peer')) : ClocksInv peer' := by
  by_cases hValid : ValidElapsed peer e
  swap
  · obtain ⟨_, _, rfl⟩ := eq_of_peerTick_invalid hValid hTick
    exact h
  -- The clocks are moved first, in both modes; what follows only starts them again.
  have hClock := h.tickClock hValid
  cases hMode : peer.mode with
  | host =>
    rw [peerTick_host_eq hValid hMode] at hTick
    obtain ⟨⟨out, peer1⟩, hSend, hEq⟩ := bind_eq_ok.mp hTick
    obtain ⟨_, hPeer⟩ := Prod.mk.inj (Except.ok.inj hEq)
    obtain ⟨_, rfl⟩ := Prod.mk.inj hPeer
    exact hClock.hostMerge.hostSend hSend
  | client =>
    rw [peerTick_client_eq hValid hMode] at hTick
    obtain ⟨⟨out, peer1⟩, hSend, hEq⟩ := bind_eq_ok.mp hTick
    obtain ⟨_, hPeer⟩ := Prod.mk.inj (Except.ok.inj hEq)
    obtain ⟨_, rfl⟩ := Prod.mk.inj hPeer
    exact hClock.clientSend hSend

/-- **Step lemma of the clocks**, for every action of a peer in either mode and any
outcomes of its allocations. -/
theorem ClocksInv.act {peer peer' : Peer} {a : PeerAction} {s : Status} {ps : List PeerPacket}
    (h : ClocksInv peer) (hAct : peer.act a = .ok (s, ps, peer')) : ClocksInv peer' := by
  have hCase := Peer.act_cases hAct
  cases a with
  | openSlots ids =>
    obtain ⟨_, rfl⟩ := hCase
    obtain ⟨opened, al, hOpen⟩ := peerOpen_opens peer ids
    rw [hOpen]
    refine h.of_slots rfl fun slot' hSlot' => ?_
    rcases List.mem_append.mp hSlot' with hOld | hNew
    · exact Or.inr ⟨slot', hOld, rfl⟩
    · -- the clock of a new slot is 0
      obtain ⟨i, _, rfl⟩ := List.mem_mapIdx.mp hNew
      exact Or.inl (show (0 : Int) ≤ 10 by omega)
  | connect serverId =>
    obtain ⟨_, rfl⟩ := hCase
    obtain ⟨i, hConnect⟩ := peerConnect_modifies peer serverId
    rw [hConnect]
    exact h.modify _ fun _ => rfl
  | queue messageData =>
    obtain ⟨_, rfl⟩ := hCase
    obtain ⟨data, hQueued⟩ := peerQueue_queued peer messageData
    generalize (peerQueue peer messageData).2 = peer' at hQueued
    cases hQueued with
    | refused => exact h
    | host => exact ⟨h.timeLocal, h.slot⟩
    -- the first slot of a client takes the message, and keeps its clock
    | client _ hSlot => exact h.set rfl hSlot rfl rfl
  | input packets => exact h.input hCase.2
  | tick e => exact h.tick hCase
  | setAddress j size data =>
    obtain ⟨_, rfl⟩ := hCase
    exact h.modify _ fun _ => rfl
  | resolve j id =>
    obtain ⟨_, rfl⟩ := hCase
    exact h.modify _ fun _ => rfl

end PeerProtocol
