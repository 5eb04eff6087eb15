import PeerProtocol.Lib.Broadcast
import PeerProtocol.Peer.Merge
import PeerProtocol.World.Uplink

/-!
# peer — the protocol is an ordered broadcast

What the host and its clients are for can be said without hosts, slots and
packets. Everything that the application of a peer queues is broadcast to all,
in one order: there is a log, each submitter's messages come into it in the
order in which they were submitted, and each replica knows some entries of it.
`Lib/Broadcast.lean` has this as a transition system, with `submit`, `bind`,
`accept` and `learn` for its rules and `Legal` for what holds in its states.

This module connects the two levels. The host is the sequencer, and the
submitters are its own application and the clients. What makes the
correspondence more than a renaming is that the log does not name the
submitter of an entry but an actor id, and that the host lends these ids to
clients while messages are under way.

* `World.broadcast` reads off a world the broadcast that it is in the middle
  of: the outboxes of the clients, the bindings of the slots (`Peer.ownerOf`),
  the log of the host and the entries of each client;
* `Broadcasting` is the invariant under which a move of the world is a run of
  the broadcast. It takes `Uplink` for what the clients queue, `Merged` for
  what the host has merged, and the stamps from `World/Times.lean`;
* `Broadcasting.run` is the simulation. A call of the host's application
  submits or accepts, an input of the host binds, one of a client learns, and
  a call of a client's application submits; each lemma is about one kind of
  move and says which rules it uses;
* `broadcast_of_reaches` — every run of a world is a run of an ordered
  broadcast, from the start and from every state on;
* `delivery_of_reaches` — what the library says of legal states, in terms of
  queues again: what a client holds under an actor id are messages that the
  peer of this id has queued, in their order and each once.

The runs are those of `World/Uplink.lean`, in which no request for memory is
refused, messages fit a packet, each client has one slot and an id of its own,
and a heartbeat of a client repeats nothing that would be taken for a message
of its own.
-/

namespace PeerProtocol

open Lib

-- ---------------------------------------------------------------------------
-- The broadcast of a world
-- ---------------------------------------------------------------------------

/-- Whose an actor id is: the host's own, or the client's that the slot at that
position is bound to, if it is. -/
def Peer.ownerOf (host : Peer) (actor : Int) : Option (Option Int) :=
  if actor = 0 then some none
  else if actor < 0 then none
  else (host.slots[actor.toNat]?).bind fun slot =>
    if slot.remoteEnd.id = peerUndefined then none else some (some slot.remoteEnd.id)

/-- What the client with the id has queued, in the order of its calls. -/
def queuedBy (clients : List Peer) (id : Int) : List (List UInt8) :=
  match (clients.filterMap (·.outbox)).find? (·.id == id) with
  | some box => box.data
  | none => []

/-- What a submitter has submitted: the host under `none`, a client under its id. -/
def submissions (accepted : List (List UInt8)) (clients : List Peer) : Option Int → List (List UInt8)
  | none => accepted
  | some id => queuedBy clients id

/-- The broadcast of a world whose host has accepted these messages from its own
application. What is in flight has no place in it, nor have slots that hold messages
which are not merged yet. -/
def World.broadcast (w : World) (accepted : List (List UInt8)) :
    Broadcast (Option Int) Int (List UInt8) Entry Nat where
  submitted := submissions accepted w.clients
  owner := w.host.ownerOf
  log := w.host.log
  replica := fun c => entries ((w.clients[c]?).elim [] (·.queue))

/-- The stamp of an entry is not before that of another: entries of a log are
stamped in order. -/
def Entry.notAfter (e f : Entry) : Prop := e.time ≤ f.time

/-- Runs of an ordered broadcast of messages. -/
abbrev BroadcastRun : (b b' : Broadcast (Option Int) Int (List UInt8) Entry Nat) → Prop :=
  Broadcast.Run Entry.actor Entry.data Entry.notAfter

-- ---------------------------------------------------------------------------
-- Owners
-- ---------------------------------------------------------------------------

/-- The slot at the position is bound to the id. -/
def BoundAt (host : Peer) (j : Nat) (id : Int) : Prop :=
  (host.slots[j]?).map (·.remoteEnd.id) = some id

/-- A host that binds no slot, and frees none, lends the same actor ids. Only who is
bound to which slot is read for that, and neither the states of the slots nor what
they hold. -/
theorem ownerOf_eq {host host' : Peer}
    (h : ∀ (j : Nat) (id : Int), id ≠ peerUndefined → (BoundAt host' j id ↔ BoundAt host j id)) :
    host'.ownerOf = host.ownerOf := by
  have hBound (peer : Peer) (j : Nat) (id : Int) : ((peer.slots[j]?).bind fun slot =>
      if slot.remoteEnd.id = peerUndefined then none else some (some slot.remoteEnd.id)) =
        some (some id) ↔ id ≠ peerUndefined ∧ BoundAt peer j id := by
    unfold BoundAt
    cases peer.slots[j]? with
    | none => simp
    | some slot =>
      rw [Option.bind_some, Option.map_some]
      split
      · next hNone => simp [hNone, eq_comm]
      · next hDefined =>
        simp only [Option.some.injEq]
        exact ⟨fun hId => ⟨hId ▸ hDefined, hId⟩, And.right⟩
  funext actor
  unfold Peer.ownerOf
  split
  · rfl
  split
  · rfl
  refine Option.ext fun submitter => ?_
  cases submitter with
  | none =>
    -- no slot is bound to the host itself
    constructor <;> intro hNone <;> obtain ⟨_, _, hAt⟩ := Option.bind_eq_some_iff.mp hNone <;>
      split at hAt <;> cases hAt
  | some id =>
    rw [hBound, hBound]
    exact and_congr_right fun hId => h _ id hId

/-- The owner of an actor id other than the host's own, from its slot. -/
theorem ownerOf_of_slot {host : Peer} {j : Nat} (hj : 1 ≤ j) {slot : PeerSlot}
    (hSlot : host.slots[j]? = some slot) :
    host.ownerOf j =
      if slot.remoteEnd.id = peerUndefined then none else some (some slot.remoteEnd.id) := by
  rw [Peer.ownerOf, if_neg (by omega), if_neg (by omega), Int.toNat_natCast, hSlot, Option.bind_some]

/-- An actor id with an owner is the host's, or that of a bound slot. -/
theorem ownerOf_cases {host : Peer} {actor : Int} {submitter : Option Int}
    (h : host.ownerOf actor = some submitter) :
    (actor = 0 ∧ submitter = none) ∨ ∃ (j : Nat) (slot : PeerSlot), 1 ≤ j ∧ actor = j ∧
      host.slots[j]? = some slot ∧ slot.remoteEnd.id ≠ peerUndefined ∧
      submitter = some slot.remoteEnd.id := by
  unfold Peer.ownerOf at h
  split at h
  · next hZero => exact Or.inl ⟨hZero, (Option.some.inj h).symm⟩
  split at h
  · cases h
  obtain ⟨slot, hSlot, hBound⟩ := Option.bind_eq_some_iff.mp h
  split at hBound
  · cases hBound
  · next hDefined =>
    exact Or.inr ⟨actor.toNat, slot, by omega, by omega, hSlot, hDefined, (Option.some.inj hBound).symm⟩

/-- An entry that came from somewhere has an owner. -/
theorem exists_owner {host : Peer} {actor : Int} (h : HasOrigin host actor) :
    ∃ submitter, host.ownerOf actor = some submitter := by
  rcases h with rfl | ⟨j, slot, rfl, hSlot, hBound⟩
  · exact ⟨none, rfl⟩
  · rcases Nat.eq_zero_or_pos j with rfl | hj
    · exact ⟨none, rfl⟩
    · exact ⟨some slot.remoteEnd.id, by rw [ownerOf_of_slot hj hSlot, if_neg hBound]⟩

/-- A slot is assigned: its actor id, which nobody had, is lent to the sender, and
all other ids stay whose they were. -/
theorem ownerOf_assign {host : Peer} {j : Nat} (hj : 1 ≤ j) {slot : PeerSlot}
    (hSlot : host.slots[j]? = some slot) {src : Int} (hSource : src ≠ peerUndefined) :
    ({ host with slots := host.slots.set j (slot.assign j src) } : Peer).ownerOf =
      Function.update host.ownerOf (j : Int) (some (some src)) := by
  have hLt := (List.getElem?_eq_some_iff.mp hSlot).1
  funext actor
  by_cases hActor : actor = j
  · subst hActor
    rw [Function.update_self, ownerOf_of_slot hj (List.getElem?_set_self hLt)]
    exact if_neg hSource
  · rw [Function.update_of_ne hActor]
    unfold Peer.ownerOf
    split
    · rfl
    split
    · rfl
    · rw [List.getElem?_set_ne (by omega)]

-- ---------------------------------------------------------------------------
-- What the clients have queued
-- ---------------------------------------------------------------------------

section Clients

variable {clients : List Peer}

/-- The ids of the clients differ, so the first outbox of an id is the only one. -/
theorem queuedBy_of_mem (hIds : (clients.filterMap fun client => client.outbox.map (·.id)).Nodup)
    {client : Peer} (hMem : client ∈ clients) {box : Outbox} (hBox : client.outbox = some box) :
    queuedBy clients box.id = box.data := by
  unfold queuedBy
  have hHere : box ∈ clients.filterMap (·.outbox) := List.mem_filterMap.mpr ⟨client, hMem, hBox⟩
  cases hFind : (clients.filterMap (·.outbox)).find? (·.id == box.id) with
  | none => exact absurd (List.find?_eq_none.mp hFind box hHere) (by simp)
  | some found =>
    -- the id tells which client it is
    have hId : found.id = box.id := by simpa using List.find?_some hFind
    obtain ⟨other, hOther, hFound⟩ := List.mem_filterMap.mp (List.mem_of_find?_eq_some hFind)
    obtain rfl : client = other := eq_of_nodup_filterMap hIds hMem hOther (k := box.id)
      (by rw [hBox]; rfl) (by rw [hFound, ← hId]; rfl)
    rw [hBox, Option.some.injEq] at hFound
    rw [hFound]

/-- Nobody with the id has queued anything. -/
theorem queuedBy_of_not_mem {id : Int}
    (h : id ∉ clients.filterMap fun client => client.outbox.map (·.id)) : queuedBy clients id = [] := by
  unfold queuedBy
  rw [List.find?_eq_none.mpr fun box hBox => ?_]
  obtain ⟨client, hClient, hOutbox⟩ := List.mem_filterMap.mp hBox
  simp only [beq_iff_eq]
  rintro rfl
  exact h (List.mem_filterMap.mpr ⟨client, hClient, by rw [hOutbox]; rfl⟩)

/-- One client's outbox changes, under its id, and no other does. That the ids are
pairwise different is needed on both sides, as an outbox is found by its id. -/
theorem queuedBy_set {c : Nat} {client client' : Peer} (hClient : clients[c]? = some client)
    (hIds : (clients.filterMap fun client => client.outbox.map (·.id)).Nodup)
    (hIds' : ((clients.set c client').filterMap fun client => client.outbox.map (·.id)).Nodup)
    {box' : Outbox} (hBox' : client'.outbox = some box')
    (hSame : ∀ box, client.outbox = some box → box.id = box'.id) :
    queuedBy (clients.set c client') = Function.update (queuedBy clients) box'.id box'.data := by
  have hLt := (List.getElem?_eq_some_iff.mp hClient).1
  funext id
  by_cases hId : id = box'.id
  · subst hId
    rw [Function.update_self, queuedBy_of_mem hIds' (List.mem_set hLt _) hBox']
  rw [Function.update_of_ne hId]
  by_cases hMem : id ∈ clients.filterMap fun client => client.outbox.map (·.id)
  · -- it is the id of another client, which stays
    obtain ⟨other, hOther, hOtherId⟩ := List.mem_filterMap.mp hMem
    obtain ⟨box, hBox, rfl⟩ := Option.map_eq_some_iff.mp hOtherId
    obtain ⟨d, hd⟩ := List.mem_iff_getElem?.mp hOther
    have hNe : c ≠ d := by
      rintro rfl
      rw [hClient, Option.some.injEq] at hd
      exact hId (hSame box (hd ▸ hBox))
    have hStays : other ∈ clients.set c client' :=
      List.mem_of_getElem? ((List.getElem?_set_ne hNe).trans hd)
    rw [queuedBy_of_mem hIds hOther hBox, queuedBy_of_mem hIds' hStays hBox]
  · rw [queuedBy_of_not_mem hMem, queuedBy_of_not_mem]
    intro hLater
    obtain ⟨other, hOther, hOtherId⟩ := List.mem_filterMap.mp hLater
    rcases List.mem_or_eq_of_mem_set hOther with hOld | rfl
    · exact hMem (List.mem_filterMap.mpr ⟨other, hOld, hOtherId⟩)
    · rw [hBox', Option.map_some, Option.some.injEq] at hOtherId
      exact hId hOtherId.symm

/-- A client with the outbox that it had: whatever else changes in it, the sequences
of what has been submitted stay, whichever id they are asked for. -/
theorem queuedBy_set_same {c : Nat} {client client' : Peer} (hClient : clients[c]? = some client)
    (hSame : client'.outbox = client.outbox) :
    queuedBy (clients.set c client') = queuedBy clients := by
  have hBoxes : (clients.set c client').map (·.outbox) = clients.map (·.outbox) := by
    refine List.ext_getElem? fun d => ?_
    rw [List.getElem?_map, List.getElem?_map]
    by_cases hcd : c = d
    · subst hcd
      rw [List.getElem?_set_self (List.getElem?_eq_some_iff.mp hClient).1, hClient, Option.map_some,
        Option.map_some, hSame]
    · rw [List.getElem?_set_ne hcd]
  have hFilter (l : List Peer) : l.filterMap (·.outbox) = (l.map (·.outbox)).filterMap id := by
    rw [List.filterMap_map]
    rfl
  funext id
  rw [queuedBy, hFilter, hBoxes, ← hFilter, queuedBy]

/-- What an action of one client does to what the clients have queued: nothing, or
one message more. So in the abstract broadcast it is no step at all, or a single
submission. -/
theorem queuedBy_step {c : Nat} {client client' : Peer} {a : PeerAction}
    (hClient : clients[c]? = some client)
    (hIds : (clients.filterMap fun client => client.outbox.map (·.id)).Nodup)
    (hIds' : ((clients.set c client').filterMap fun client => client.outbox.map (·.id)).Nodup)
    (hStep : OutboxStep a client.outbox client'.outbox) :
    queuedBy (clients.set c client') = queuedBy clients ∨ ∃ id data,
      queuedBy (clients.set c client') =
        Function.update (queuedBy clients) id (queuedBy clients id ++ [data]) := by
  have hMem := List.mem_of_getElem? hClient
  have hMem' : client' ∈ clients.set c client' := List.mem_set (List.getElem?_eq_some_iff.mp hClient).1 _
  generalize hBox : client.outbox = box, hBox' : client'.outbox = box' at hStep
  cases hStep with
  | same => exact Or.inl (queuedBy_set_same hClient (hBox'.trans hBox.symm))
  | opened id =>
    left
    rw [queuedBy_set hClient hIds hIds' hBox' (by rw [hBox]; exact nofun), Function.update_eq_self_iff]
    -- no other client with the id has queued anything: its id would be there twice
    by_cases hUsed : id ∈ clients.filterMap fun client => client.outbox.map (·.id)
    · obtain ⟨other, hOther, hId⟩ := List.mem_filterMap.mp hUsed
      obtain ⟨found, hFound, rfl⟩ := Option.map_eq_some_iff.mp hId
      obtain ⟨d, hd⟩ := List.mem_iff_getElem?.mp hOther
      have hNe : c ≠ d := by
        rintro rfl
        rw [hClient, Option.some.injEq] at hd
        rw [hd, hFound] at hBox
        cases hBox
      have hStays : other ∈ clients.set c client' :=
        List.mem_of_getElem? ((List.getElem?_set_ne hNe).trans hd)
      rw [queuedBy_of_mem hIds hOther hFound, ← queuedBy_of_mem hIds' hStays hFound]
      exact (queuedBy_of_mem hIds' hMem' hBox').symm
    · exact (queuedBy_of_not_mem hUsed).symm
  | @ticked _ old sent =>
    left
    rw [queuedBy_set hClient hIds hIds' hBox' (by rw [hBox]; rintro _ ⟨⟩; rfl),
      Function.update_eq_self_iff]
    exact (queuedBy_of_mem hIds hMem hBox).symm
  | @queued old data =>
    refine Or.inr ⟨old.id, data, ?_⟩
    rw [queuedBy_set hClient hIds hIds' hBox' (by rw [hBox]; rintro _ ⟨⟩; rfl),
      queuedBy_of_mem hIds hMem hBox]

end Clients

-- ---------------------------------------------------------------------------
-- The invariant
-- ---------------------------------------------------------------------------

/-- The data of an actor's entries in a queue, and in what the queue says. -/
theorem dataOf_content (q : PeerQueue) (actor : Int) :
    Broadcast.dataOf Entry.actor Entry.data (q.map (·.content)) actor = dataOfActor q actor := by
  rw [Broadcast.dataOf, List.filter_map, List.map_map, dataOfActor]
  rfl

/-- A world that broadcasts: nothing that is recorded was not queued, the host
merges each slot in order, and it stamps in order. These are the invariants of three
other modules, and no new one is needed. -/
structure Broadcasting (w : World) (accepted : List (List UInt8)) : Prop extends Uplink w where
  merged : Merged w.host accepted
  stamped : ∃ total, HostTimes w.host total

/-- The messages that the merge has taken from a slot are the first ones that its
client has queued: they are ready at the positions below the cursor, and at each of
these the slot holds the client's own. -/
theorem Uplink.taken_prefix {w : World} (h : Uplink w) {j : Nat} {slot : PeerSlot}
    (hSlot : w.host.slots[j]? = some slot) :
    slot.taken <+: queuedBy w.clients slot.remoteEnd.id := by
  have hInv := h.session.slots j slot hSlot
  rw [List.prefix_iff_getElem?]
  intro i hi
  have hBelow : i < slot.inIndex := by
    rw [PeerSlot.taken, List.length_map, List.length_take] at hi
    omega
  -- each is ready, so a client with the id has queued it, and there is one such client
  have hQueue : i < slot.queue.length := by
    have := hInv.inIndex
    omega
  have hm : slot.queue[i]? = some slot.queue[i] := List.getElem?_eq_getElem hQueue
  have hReady := hInv.taken _ (List.mem_of_getElem? (i := i) (by
    rw [List.getElem?_take_of_lt hBelow]
    exact hm))
  obtain ⟨client, hMem, box, hBox, hId, hData⟩ := h.holds j slot hSlot i _ hm hReady
  rw [← hId, queuedBy_of_mem h.setting.ids hMem hBox, hData]
  simp [PeerSlot.taken]

/-- **Every such world** is a legal state of an ordered broadcast: the part of the
log under an actor id is a prefix of what its owner has submitted. -/
theorem Broadcasting.legal {w : World} {accepted : List (List UInt8)} (h : Broadcasting w accepted) :
    Broadcast.Legal Entry.actor Entry.data Entry.notAfter (w.broadcast accepted) where
  owned := by
    intro e he
    obtain ⟨m, hm, rfl⟩ := List.mem_map.mp he
    exact exists_owner (h.origins m (List.mem_of_mem_take hm))
  fifo := by
    intro actor submitter hOwner
    -- the log is a first part of the mutual queue
    have hLog : Broadcast.dataOf Entry.actor Entry.data w.host.log actor <+:
        dataOfActor w.host.queue actor := by
      rw [Peer.log, dataOf_content]
      exact ((List.take_prefix _ _).filter _).map _
    refine hLog.trans ?_
    rcases ownerOf_cases hOwner with ⟨rfl, rfl⟩ | ⟨j, slot, hj, rfl, hSlot, _, rfl⟩
    · rw [h.merged.own]
      exact List.prefix_rfl
    · rw [h.merged.slots j slot hj hSlot]
      exact h.taken_prefix hSlot
  ordered := by
    obtain ⟨total, hTimes⟩ := h.stamped
    exact hTimes.sorted
  agrees := by
    intro c
    cases hClient : w.clients[c]? with
    | none =>
      simp only [World.broadcast, hClient]
      exact GapLog.agrees_nil _
    | some client =>
      simp only [World.broadcast, hClient]
      exact (h.clients client (List.mem_of_getElem? hClient)).agrees

-- ---------------------------------------------------------------------------
-- The simulation
-- ---------------------------------------------------------------------------

/-- The messages that the host has accepted from its own application, after one more
move. A call of `peer_queue` that was refused is not a submission. -/
def acceptedBy (w : World) (accepted : List (List UInt8)) : WorldAction → List (List UInt8)
  | .host (.queue (some data)) =>
    if (peerQueue w.host (some data)).1 = kitOk then accepted ++ [data] else accepted
  | _ => accepted

/-- One move of a world, with the messages that its host has accepted so far. -/
def World.recordedStep (r : World × List (List UInt8)) (a : WorldAction) :
    Except Fault (World × List (List UInt8)) := do
  let w ← r.1.step a
  return (w, acceptedBy r.1 r.2 a)

/-- What a call of the host adds is what `Peer/Merge.lean` says that it adds. -/
theorem acceptedBy_host {w : World} {accepted : List (List UInt8)} {a : PeerAction} {s : Status}
    {ps : List PeerPacket} {host : Peer} (hAct : w.host.act a = .ok (s, ps, host)) :
    acceptedBy w accepted (.host a) = acceptedAfter accepted s a := by
  cases a with
  | queue messageData =>
    cases messageData with
    | none => rfl
    | some data =>
      have hStatus : (peerQueue w.host (some data)).1 = s := (Prod.mk.inj (Except.ok.inj hAct)).1
      rw [acceptedBy, acceptedAfter, hStatus]
  | _ => rfl

/-- A recorded move is a move, with the record brought up to date. -/
theorem recordedStep_eq_ok {w : World} {accepted : List (List UInt8)} {a : WorldAction}
    {r : World × List (List UInt8)} (h : World.recordedStep (w, accepted) a = .ok r) :
    w.step a = .ok r.1 ∧ r.2 = acceptedBy w accepted a := by
  obtain ⟨w', hStep, hEq⟩ := bind_eq_ok.mp h
  obtain rfl : (w', acceptedBy w accepted a) = r := Except.ok.inj hEq
  exact ⟨hStep, rfl⟩

/-- A move, with the host's own messages beside it, keeps them merged in order. -/
theorem merged_recordedStep {w w' : World} {accepted : List (List UInt8)} {a : WorldAction}
    (h : Merged w.host accepted)
    (hSource : ∀ positions, ∀ p ∈ delivered w.clientSent positions, p.sourceId ≠ peerUndefined)
    (hStep : w.step a = .ok w') (hMove : UplinkMove w a w') :
    Merged w'.host (acceptedBy w accepted a) := by
  cases worldStep_of_step hStep with
  | host hAct =>
    rw [acceptedBy_host hAct]
    refine h.step (r := (_, _)) (isHostStep_of_isHostCall hMove.2.1) ?_
    rw [recordedStep, hAct]
    rfl
  | client => exact h
  | toHost hInput => exact h.input (hSource _) hInput
  | toClient => exact h

/-- **Step lemma**: every move keeps the invariant, since each of its parts has a
step lemma of its own. -/
theorem Broadcasting.step {w w' : World} {accepted : List (List UInt8)} {a : WorldAction}
    (h : Broadcasting w accepted) (hStep : w.step a = .ok w') (hMove : UplinkMove w a w')
    (hOwn : OwnHeartbeat w a) : Broadcasting w' (acceptedBy w accepted a) := by
  refine ⟨h.toUplink.step hStep hMove hOwn, ?_, ?_⟩
  · exact merged_recordedStep h.merged h.source hStep hMove
  · obtain ⟨total, hTimes⟩ := h.stamped
    cases worldStep_of_step hStep with
    | host hAct => exact ⟨_, (hTimes.act h.host hAct).1⟩
    | client => exact ⟨total, hTimes⟩
    | toHost hInput => exact ⟨_, (hTimes.act h.host (Peer.act_input hInput)).1⟩
    | toClient => exact ⟨total, hTimes⟩

/-- **A log that grows** accepts: the host's own messages, and those it merges, one
after another. -/
theorem Broadcasting.run_accept {w w' : World} {accepted : List (List UInt8)}
    (h' : Broadcasting w' accepted) (hClients : w'.clients = w.clients)
    (hOwner : w'.host.ownerOf = w.host.ownerOf)
    (hLog : w.host.log <+: w'.host.log) :
    BroadcastRun (w.broadcast accepted) (w'.broadcast accepted) := by
  obtain ⟨new, hNew⟩ := hLog
  have hTo : w'.broadcast accepted = { w.broadcast accepted with log := w.host.log ++ new } := by
    simp only [World.broadcast, hClients, hOwner, hNew]
  have hLegal := h'.legal
  rw [hTo] at hLegal ⊢
  exact Broadcast.run_accept new (w.broadcast accepted)
    (fun e he => hLegal.owned e (List.mem_append_right _ he)) hLegal.fifo hLegal.ordered

/-- A call of the host's application binds no slot: it may open new ones, which are
not bound, and a tick answers those that have been bound by input. -/
theorem ownerOf_hostCall {host host' : Peer} {a : PeerAction} {s : Status} {ps : List PeerPacket}
    (hMode : host.mode = .host) (hAlloc : host.alloc = .reliable) (hCall : a.isHostCall = true)
    (hAct : host.act a = .ok (s, ps, host')) : host'.ownerOf = host.ownerOf := by
  refine ownerOf_eq fun j id hId => ?_
  have hCase := Peer.act_cases hAct
  unfold BoundAt
  cases a with
  | openSlots ids =>
    obtain ⟨_, rfl⟩ := hCase
    rw [peerOpen_reliable hAlloc]
    dsimp only
    rw [List.getElem?_append]
    split
    · exact Iff.rfl
    · -- a new slot is not bound
      next hPast =>
      rw [List.getElem?_eq_none (by omega : host.slots.length ≤ j), Option.map_none]
      refine ⟨fun hNew => ?_, nofun⟩
      obtain ⟨slot, hSlot, rfl⟩ := Option.map_eq_some_iff.mp hNew
      obtain ⟨i, _, rfl⟩ := List.mem_mapIdx.mp (List.mem_of_getElem? hSlot)
      exact absurd rfl hId
  | queue messageData =>
    obtain ⟨_, rfl⟩ := hCase
    cases messageData with
    | none => exact Iff.rfl
    | some data =>
      rw [peerQueue_host hMode hAlloc]
  | tick e =>
    have hSlots := (peerTick_frame hCase).slots
    have hSame : (host'.slots[j]?).map (·.remoteEnd.id) = (host.slots[j]?).map (·.remoteEnd.id) := by
      cases hSlot : host.slots[j]? with
      | none =>
        rw [List.getElem?_eq_none_iff] at hSlot
        rw [List.getElem?_eq_none (by rw [← hSlots.length_eq]; exact hSlot)]
      | some slot =>
        obtain ⟨slot', hSlot', hTicked⟩ := getElem?_of_forall₂ hSlots hSlot
        rw [hSlot', Option.map_some, Option.map_some, hTicked.remoteEnd]
    rw [hSame]
  | setAddress i size data =>
    obtain ⟨_, rfl⟩ := hCase
    dsimp only
    rw [List.getElem?_modify]
    cases host.slots[j]? with
    | none => exact Iff.rfl
    | some slot =>
      dsimp only [Option.map_eq_map, Option.map_some]
      split <;> exact Iff.rfl
  | connect serverId => cases hCall
  | input packets => cases hCall
  | resolve j id => cases hCall

/-- **A call of the host's application** submits and accepts, if it queues; accepts
what it merges, if it ticks; or does nothing. -/
theorem Broadcasting.run_hostCall {w : World} {accepted : List (List UInt8)}
    (h : Broadcasting w accepted) {a : PeerAction} {s : Status} {ps : List PeerPacket} {host : Peer}
    (hCall : a.isHostCall = true) (hAct : w.host.act a = .ok (s, ps, host))
    (h' : Broadcasting { w with host := host, hostSent := w.hostSent ++ ps }
      (acceptedBy w accepted (.host a))) :
    BroadcastRun (w.broadcast accepted)
      (World.broadcast { w with host := host, hostSent := w.hostSent ++ ps }
        (acceptedBy w accepted (.host a))) := by
  have hOwner := ownerOf_hostCall h.host.mode h.host.alloc hCall hAct
  have hLog := log_prefix h.host.toHostInv hAct
  cases a with
  | queue messageData =>
    cases messageData with
    | none => exact h'.run_accept rfl hOwner hLog
    | some data =>
      obtain ⟨_, rfl⟩ := Peer.act_cases hAct
      -- the message is behind the log until the next tick, and is submitted now
      have hNow : (peerQueue w.host (some data)).2.log = w.host.log := by
        rw [peerQueue_host h.host.mode h.host.alloc]
        unfold Peer.log
        rw [List.take_append_of_le_length h.host.queueIndex]
      have hAccepted : acceptedBy w accepted (.host (.queue (some data))) = accepted ++ [data] := by
        rw [acceptedBy, peerQueue_host h.host.mode h.host.alloc, if_pos rfl]
      have hTo : World.broadcast { w with
            host := (peerQueue w.host (some data)).2, hostSent := w.hostSent ++ ps }
          (acceptedBy w accepted (.host (.queue (some data)))) =
          { w.broadcast accepted with
            submitted := Function.update (w.broadcast accepted).submitted none (accepted ++ [data]) } := by
        simp only [World.broadcast, hAccepted, hOwner, hNow, Broadcast.mk.injEq, and_true]
        funext submitter
        cases submitter with
        | none => rw [Function.update_self, submissions]
        | some id => rw [Function.update_of_ne (Option.some_ne_none id), submissions, submissions]
      rw [hTo]
      exact .single (.submit none data)
  | _ => exact h'.run_accept rfl hOwner hLog

/-- **An input of the host** binds actor ids, one after another, by induction on the
packets. Storing a message in a slot is no step of the broadcast. -/
theorem Broadcasting.run_hostInput {w : World} {accepted : List (List UInt8)}
    (h : Broadcasting w accepted) {positions : List Nat} {s : Status} {host : Peer}
    (hInput : peerInput w.host (delivered w.clientSent positions) = .ok (s, host)) :
    BroadcastRun (w.broadcast accepted) (World.broadcast { w with host := host } accepted) := by
  have hSource := h.source positions
  have hAll : SessionInv host ∧ host.log = w.host.log ∧
      BroadcastRun (w.broadcast accepted) (World.broadcast { w with host := host } accepted) := by
    refine peerInput_invariant (I := fun p => SessionInv p ∧ p.log = w.host.log ∧
      BroadcastRun (w.broadcast accepted) (World.broadcast { w with host := p } accepted)) ?_ ?_ ?_
      hInput ⟨h.session, rfl, .refl⟩
    · rintro p packet s cs al _ ⟨hp, hLog, hRun⟩ hCs
      exact ⟨hp.unpack hCs, hLog, hRun⟩
    · rintro start p p' packet j s cs al c hPacket _ hCs hMem ⟨hp, hLog, hRun⟩ hMatch hStep
      refine ⟨(hp.chunk ((unpackPacket_keeps hCs).1 c hMem) (hSource packet hPacket) hMatch hStep).1, ?_⟩
      cases hStep.onHost hp.mode with
      | skip => exact ⟨hLog, hRun⟩
      | @store slot _ _ _ q _ hSlot =>
        -- a message goes into the queue of a slot, which stays bound as it was
        have hOwner : ({ p with slots := p.slots.set j { slot with queue := q } } : Peer).ownerOf =
            p.ownerOf := by
          refine ownerOf_eq fun k id _ => ?_
          unfold BoundAt
          dsimp only
          by_cases hjk : j = k
          · subst hjk
            rw [List.getElem?_set_self (List.getElem?_eq_some_iff.mp hSlot).1, hSlot, Option.map_some,
              Option.map_some]
          · rw [List.getElem?_set_ne hjk]
        have hSame : World.broadcast { w with
              host := { p with slots := p.slots.set j { slot with queue := q }, alloc := _ } } accepted =
            World.broadcast { w with host := p } accepted :=
          congrArg (Broadcast.mk _ · p.log _) hOwner
        exact ⟨hLog, hSame ▸ hRun⟩
    · rintro p packet hPacket ⟨hp, hLog, hRun⟩ _ _
      refine ⟨(hp.assign (hSource packet hPacket)).1, ?_⟩
      rcases assignSlot_cases p packet with hSame | ⟨j, _, slot, _, _, _, hj, _, hSlot, hFree, hSet⟩
      · rw [hSame]
        exact ⟨hLog, hRun⟩
      · rw [hSet]
        -- a free slot is bound to nobody
        have hNone : p.ownerOf j = none := by
          simp only [PeerSlot.isFree, Bool.and_eq_true, beq_iff_eq] at hFree
          rw [ownerOf_of_slot hj hSlot, if_pos hFree.1]
        have hTo := ownerOf_assign hj hSlot (hSource packet hPacket)
        refine ⟨hLog, hRun.tail ?_⟩
        have hBroadcast : World.broadcast { w with
              host := { p with slots := p.slots.set j (slot.assign j packet.sourceId) } } accepted =
            { World.broadcast { w with host := p } accepted with
              owner := Function.update p.ownerOf (j : Int) (some (some packet.sourceId)) } :=
          congrArg (Broadcast.mk _ · p.log _) hTo
        rw [hBroadcast]
        exact .bind (j : Int) (some packet.sourceId) hNone
  exact hAll.2.2

/-- **An action of a client** submits, learns, or does nothing. Which of these
depends on how its outbox and its mutual queue have changed, and no action changes
both. -/
theorem Broadcasting.run_clientAct {w : World} {accepted : List (List UInt8)}
    (h : Broadcasting w accepted) {c : Nat} {client client' : Peer} {a : PeerAction} {s : Status}
    {ps sent : List PeerPacket} (hClient : w.clients[c]? = some client)
    (hAct : client.act a = .ok (s, ps, client'))
    (hKeeps : ∀ i e, GapLog.Holds (entries client.queue) i e → GapLog.Holds (entries client'.queue) i e)
    (h' : Broadcasting { w with clients := w.clients.set c client', clientSent := sent } accepted) :
    BroadcastRun (w.broadcast accepted)
      (World.broadcast { w with clients := w.clients.set c client', clientSent := sent } accepted) := by
  have hOld := h.client client (List.mem_of_getElem? hClient)
  have hLt := (List.getElem?_eq_some_iff.mp hClient).1
  -- first what the client submits, if it does
  have hSubmit : BroadcastRun (w.broadcast accepted)
      { w.broadcast accepted with submitted := submissions accepted (w.clients.set c client') } := by
    rcases queuedBy_step hClient h.setting.ids h'.setting.ids
      (outbox_act hOld.mode hOld.alloc hAct) with hSame | ⟨id, data, hMore⟩
    · have hTo : submissions accepted (w.clients.set c client') = submissions accepted w.clients := by
        funext submitter
        cases submitter with
        | none => rfl
        | some other => rw [submissions, submissions, hSame]
      rw [hTo]
      exact .refl
    · have hTo : submissions accepted (w.clients.set c client') =
          Function.update (submissions accepted w.clients) (some id) (queuedBy w.clients id ++ [data]) := by
        funext submitter
        cases submitter with
        | none => rw [Function.update_of_ne (Option.some_ne_none id).symm, submissions, submissions]
        | some other =>
          rw [submissions, hMore]
          by_cases hId : other = id
          · subst hId
            rw [Function.update_self, Function.update_self]
          · rw [Function.update_of_ne hId, Function.update_of_ne (by simpa using hId), submissions]
      rw [hTo]
      exact .single (.submit (some id) data)
  -- then what it learns
  refine hSubmit.tail ?_
  have hTo : World.broadcast { w with clients := w.clients.set c client', clientSent := sent } accepted =
      { submitted := submissions accepted (w.clients.set c client')
        owner := w.host.ownerOf
        log := w.host.log
        replica := Function.update (w.broadcast accepted).replica c (entries client'.queue) } := by
    simp only [World.broadcast, Broadcast.mk.injEq, true_and]
    funext d
    by_cases hd : d = c
    · subst hd
      rw [Function.update_self, List.getElem?_set_self hLt, Option.elim_some]
    · rw [Function.update_of_ne hd, List.getElem?_set_ne (Ne.symm hd)]
  rw [hTo]
  refine .learn c (entries client'.queue) ?_ (h'.clients client' (List.mem_set hLt _)).agrees
  simpa only [World.broadcast, hClient, Option.elim_some] using hKeeps

/-- What a client holds of the host's packets it keeps, and learns more. -/
theorem Broadcasting.keeps_input {w : World} {accepted : List (List UInt8)}
    (h : Broadcasting w accepted) {c : Nat} {client client' : Peer} (hClient : w.clients[c]? = some client)
    {positions : List Nat} {s : Status}
    (hInput : peerInput client (delivered w.hostSent positions) = .ok (s, client')) :
    ∀ i e, GapLog.Holds (entries client.queue) i e → GapLog.Holds (entries client'.queue) i e := by
  have hFollows := h.clients client (List.mem_of_getElem? hClient)
  obtain ⟨learned, hOk, hLearned, hLearns, _⟩ := hFollows.input h.host.wire fun p hp =>
    h.sent p (mem_of_mem_delivered hp)
  rw [hOk, Except.ok.injEq, Prod.mk.injEq] at hInput
  obtain ⟨_, rfl⟩ := hInput
  exact fun i e he => hFollows.agrees.holds_of_filled hLearned.agrees he (hLearns.filled i ⟨e, he⟩)

/-- **The simulation**: each move of the world is a run of its broadcast. The run is
empty for most moves, and has several steps where a tick merges the messages of
several slots. -/
theorem Broadcasting.run {w w' : World} {accepted : List (List UInt8)} {a : WorldAction}
    (h : Broadcasting w accepted) (hStep : w.step a = .ok w') (hMove : UplinkMove w a w')
    (hOwn : OwnHeartbeat w a) :
    BroadcastRun (w.broadcast accepted) (w'.broadcast (acceptedBy w accepted a)) := by
  have h' := h.step hStep hMove hOwn
  cases worldStep_of_step hStep with
  | host hAct => exact h.run_hostCall hMove.2.1 hAct h'
  | @client c a client client' _ _ hClient hAct =>
    refine h.run_clientAct hClient hAct ?_ h'
    rw [(clientCall_keeps (h.clients client (List.mem_of_getElem? hClient)) hMove.2.1 hAct).2]
    exact fun _ _ he => he
  | toHost hInput => exact h.run_hostInput hInput
  | toClient hClient hInput =>
    exact h.run_clientAct hClient (Peer.act_input hInput) (h.keeps_input hClient hInput) h'

-- ---------------------------------------------------------------------------
-- Runs
-- ---------------------------------------------------------------------------

/-- At the beginning nothing is submitted, bound, accepted or learned. -/
theorem broadcasting_of_initialized {w : World} (h : ReliablyInitialized w) : Broadcasting w [] := by
  refine ⟨uplink_of_initialized h, ?_, 0, ?_⟩ <;> obtain ⟨rng, clients, rfl, _⟩ := h
  · exact merged_peerInit rng
  · exact hostTimes_peerInit rng

/-- At the start nothing is submitted, and only the host has an actor id. The log is
empty, and so is what each replica holds, a client that is not there included. -/
theorem broadcast_of_initialized {w : World} (h : ReliablyInitialized w) :
    w.broadcast [] = Broadcast.start 0 none := by
  obtain ⟨rng, clients, rfl, hClients⟩ := h
  have hEmpty : ∀ client ∈ clients, client.outbox = none ∧ client.queue = [] := by
    intro client hClient
    obtain ⟨r, rfl⟩ := hClients client hClient
    exact ⟨rfl, rfl⟩
  -- Component by component: nothing submitted, no actor bound, an empty log, nothing held.
  simp only [World.broadcast, Broadcast.start, Broadcast.mk.injEq]
  refine ⟨?_, ?_, rfl, ?_⟩
  · funext submitter
    cases submitter with
    | none => rfl
    | some id =>
      -- No client has an outbox before its slot is opened, so no id has one.
      refine queuedBy_of_not_mem fun hMem => ?_
      obtain ⟨client, hClient, hId⟩ := List.mem_filterMap.mp hMem
      rw [(hEmpty client hClient).1] at hId
      cases hId
  · funext actor
    simp [Peer.ownerOf, World.start, peerInit]
  · funext c
    cases hClient : clients[c]? with
    | none => simp [World.start, hClient, entries]
    | some client =>
      simp [World.start, hClient, entries, (hEmpty client (List.mem_of_getElem? hClient)).2]

/-- A move whose heartbeats repeat nothing but what the host holds or the client has
queued there. Other heartbeats can make the host accept a message twice, and the log
would then not be in the order of what was submitted. -/
def BroadcastMove (r : World × List (List UInt8)) (a : WorldAction) (r' : World × List (List UInt8)) :
    Prop :=
  UplinkMove r.1 a r'.1 ∧ OwnHeartbeat r.1 a

/-- **Run lemma**: a run of the world is a run of its broadcast, from any state that
has the invariant to any later one. -/
theorem Broadcasting.reaches {r r' : World × List (List UInt8)} (h : Broadcasting r.1 r.2)
    (hReach : Reaches World.recordedStep BroadcastMove r r') :
    Broadcasting r'.1 r'.2 ∧ BroadcastRun (r.1.broadcast r.2) (r'.1.broadcast r'.2) := by
  refine hReach.invariant (I := fun t => Broadcasting t.1 t.2 ∧
    BroadcastRun (r.1.broadcast r.2) (t.1.broadcast t.2)) ?_ ⟨h, .refl⟩
  rintro ⟨w, accepted⟩ a ⟨w', accepted'⟩ ⟨hInv, hRun⟩ hOk ⟨hMove, hOwn⟩
  obtain ⟨hStep, rfl⟩ := recordedStep_eq_ok hOk
  exact ⟨hInv.step hStep hMove hOwn, hRun.trans (hInv.run hStep hMove hOwn)⟩

/-- **The protocol is an ordered broadcast.** Over a network that loses, repeats
and reorders packets, every run of a host and its clients is a run of one, from
the start and from every state on. -/
theorem broadcast_of_reaches {w : World} {r r' : World × List (List UInt8)}
    (hStart : ReliablyInitialized w) (hReach : Reaches World.recordedStep BroadcastMove (w, []) r)
    (hLater : Reaches World.recordedStep BroadcastMove r r') :
    BroadcastRun (Broadcast.start 0 none) (r.1.broadcast r.2) ∧
      BroadcastRun (r.1.broadcast r.2) (r'.1.broadcast r'.2) := by
  obtain ⟨hInv, hRun⟩ := (broadcasting_of_initialized hStart).reaches hReach
  rw [broadcast_of_initialized hStart] at hRun
  exact ⟨hRun, (hInv.reaches hLater).2⟩

/-- The test of `World/Uplink.lean` for the moves of a run. -/
theorem broadcastMove_of_isUplinkTrace (r : World × List (List UInt8)) (a : WorldAction)
    (r' : World × List (List UInt8)) (h : isUplinkTrace r.1 a r'.1 = true) : BroadcastMove r a r' :=
  uplinkMove_of_isUplinkTrace r.1 a r'.1 h

/-- What the host's log says, and under which actor ids. -/
def logData (w : World) : List (Int × List UInt8) := w.host.log.map fun e => (e.actor, e.data)

/-- The actions, run on from a recorded state. -/
def recordedRun (actions : List WorldAction) (r : World × List (List UInt8)) :
    Option (World × List (List UInt8)) :=
  runGuarded World.recordedStep (fun r a r' => isUplinkTrace r.1 a r'.1) r actions

/-- A run of which a test succeeds is one that the theorem is about. -/
theorem exists_of_recordedRun (actions : List WorldAction) {r : World × List (List UInt8)}
    (test : World × List (List UInt8) → Bool) (h : (recordedRun actions r).any test = true) :
    ∃ r', Reaches World.recordedStep BroadcastMove r r' ∧ test r' = true :=
  exists_reaches_of_runGuarded _ broadcastMove_of_isUplinkTrace actions r test h

/-- A session with a message of each side, and a second one of the client that
the host merges later. -/
theorem broadcast_of_reaches_session : ∃ r r' : World × List (List UInt8),
    logData r.1 = [(0, [72]), (1, [97])] ∧ logData r'.1 = [(0, [72]), (1, [97]), (1, [98])] ∧
      BroadcastRun (Broadcast.start 0 none) (r.1.broadcast r.2) ∧
      BroadcastRun (r.1.broadcast r.2) (r'.1.broadcast r'.2) := by
  obtain ⟨r, hReach, hTest⟩ := exists_of_recordedRun sessionRun (r := (pairStart, []))
    (fun r => decide (logData r.1 = [(0, [72]), (1, [97])]) &&
      (recordedRun [.toHost [2], .host (.tick 0)] r).any fun r' =>
        decide (logData r'.1 = [(0, [72]), (1, [97]), (1, [98])])) (by decide +kernel)
  obtain ⟨hBefore, hOnward⟩ := Bool.and_eq_true_iff.mp hTest
  obtain ⟨r', hLater, hAfter⟩ := exists_of_recordedRun _ _ hOnward
  exact ⟨r, r', of_decide_eq_true hBefore, of_decide_eq_true hAfter,
    broadcast_of_reaches reliablyInitialized_pairStart hReach hLater⟩

-- ---------------------------------------------------------------------------
-- From end to end
-- ---------------------------------------------------------------------------

/-- What a queue holds under an actor id are messages that were submitted, in
their order and each once; where the queue has no gaps, the first of them. -/
def DeliveredFrom (q : PeerQueue) (actor : Int) (submitted : List (List UInt8)) : Prop :=
  (dataOfActor (q.filter (·.isReady)) actor).Sublist submitted ∧
    ∀ n, (∀ m ∈ q.take n, m.isReady = true) → dataOfActor (q.take n) actor <+: submitted

/-- The data under an actor id, read off a queue and off its entries. The abstract
side has `none` where the queue has a flag that is not set, and both leave such
entries out. -/
theorem dataOf_entries (q : PeerQueue) (actor : Int) :
    Broadcast.dataOf Entry.actor Entry.data (entries q).reduceOption actor =
      dataOfActor (q.filter (·.isReady)) actor := by
  have hEntries : (entries q).reduceOption = (q.filter (·.isReady)).map (·.content) := by
    induction q with
    | nil => rfl
    | cons m q ih =>
      rw [entries, List.map_cons]
      cases hReady : m.isReady with
      | true =>
        rw [List.filter_cons_of_pos hReady, isReady_iff_entry.mp hReady,
          List.reduceOption_cons_of_some, List.map_cons]
        exact congrArg _ ih
      | false =>
        rw [List.filter_cons_of_neg (by simp [hReady]),
          show m.entry = none by simp [PeerMessage.entry, hReady], List.reduceOption_cons_of_none]
        exact ih
  rw [hEntries, dataOf_content]

/-- What a legal broadcast delivers to a client: of what an owner has submitted a
part in order and, up to the first gap, a prefix. -/
theorem Broadcasting.deliveredFrom {w : World} {accepted : List (List UInt8)}
    (h : Broadcasting w accepted) {reader : Peer} (hReader : reader ∈ w.clients) {actor : Int}
    {submitter : Option Int} (hOwner : w.host.ownerOf actor = some submitter) :
    DeliveredFrom reader.queue actor (submissions accepted w.clients submitter) := by
  obtain ⟨c, hc⟩ := List.mem_iff_getElem?.mp hReader
  have hReplica : (w.broadcast accepted).replica c = entries reader.queue := by
    simp only [World.broadcast, hc, Option.elim_some]
  constructor
  · rw [← dataOf_entries, ← hReplica]
    exact h.legal.sublist_of_replica hOwner c
  · intro n hReady
    -- Entries that are ready are filled in the replica, so the log's prefix rule applies to
    -- them.
    have hFull : ∀ i < min n reader.queue.length,
        GapLog.Filled ((w.broadcast accepted).replica c) i := by
      intro i hi
      rw [hReplica, filled_entries_iff, List.getElem?_eq_getElem (by omega), Option.any_some]
      refine hReady _ (List.mem_of_getElem? (i := i) ?_)
      rw [List.getElem?_take_of_lt (by omega), List.getElem?_eq_getElem (by omega)]
    have hPrefix := h.legal.prefix_of_replica hOwner hFull
    rw [hReplica, entries, ← List.map_take, ← entries, dataOf_entries,
      ← List.take_eq_take_min] at hPrefix
    rwa [List.filter_eq_self.mpr hReady] at hPrefix

/-- **Delivery, from end to end.** What any client holds under the actor id of a
slot are messages that the client bound to the slot has queued, in their order
and each once, and without gaps the first of them; and what it holds under the
host's, messages that the host's application has queued. -/
theorem delivery_of_reaches {w w' : World} {accepted : List (List UInt8)}
    (hStart : ReliablyInitialized w)
    (hReach : Reaches World.recordedStep BroadcastMove (w, []) (w', accepted)) :
    ∀ reader ∈ w'.clients, DeliveredFrom reader.queue 0 accepted ∧
      ∀ (j : Nat) (slot : PeerSlot) (writer : Peer) (own : PeerSlot), 1 ≤ j →
        w'.host.slots[j]? = some slot → writer ∈ w'.clients → writer.slots[0]? = some own →
          slot.remoteEnd.id = own.localEnd.id →
            DeliveredFrom reader.queue j (own.queue.map (·.data)) := by
  have h : Broadcasting w' accepted := ((broadcasting_of_initialized hStart).reaches hReach).1
  intro reader hReader
  refine ⟨h.deliveredFrom hReader (show w'.host.ownerOf 0 = some none from rfl), ?_⟩
  intro j slot writer own hj hSlot hWriter hOwn hBound
  have hBox : writer.outbox = some own.outbox := outbox_of_slot hOwn
  have hDefined : slot.remoteEnd.id ≠ peerUndefined := by
    rw [hBound]
    exact h.setting.ownId hWriter own (List.mem_of_getElem? hOwn)
  -- The slot is bound to the writer, so its actor id stands for what the writer queued.
  have hOwner : w'.host.ownerOf j = some (some slot.remoteEnd.id) := by
    rw [ownerOf_of_slot hj hSlot, if_neg hDefined]
  have hDelivered := h.deliveredFrom hReader hOwner
  rw [submissions, hBound, show own.localEnd.id = own.outbox.id from rfl,
    queuedBy_of_mem h.setting.ids hWriter hBox] at hDelivered
  exact hDelivered

/-- The client holds a message of the host and its own first one. -/
theorem delivery_of_reaches_session : ∃ r : World × List (List UInt8),
    r.1.clients.map (fun client => client.queue.map fun m => (m.actor, m.data)) =
        [[(0, [72]), (1, [97])]] ∧ r.2 = [[72]] ∧
      ∀ reader ∈ r.1.clients, DeliveredFrom reader.queue 0 r.2 ∧
        ∀ (j : Nat) (slot : PeerSlot) (writer : Peer) (own : PeerSlot), 1 ≤ j →
          r.1.host.slots[j]? = some slot → writer ∈ r.1.clients → writer.slots[0]? = some own →
            slot.remoteEnd.id = own.localEnd.id →
              DeliveredFrom reader.queue j (own.queue.map (·.data)) := by
  obtain ⟨r, hReach, hTest⟩ := exists_of_recordedRun sessionRun (r := (pairStart, []))
    (fun r => decide (r.1.clients.map (fun client => client.queue.map fun m => (m.actor, m.data)) =
      [[(0, [72]), (1, [97])]] ∧ r.2 = [[72]])) (by decide +kernel)
  obtain ⟨hHeld, hAccepted⟩ := of_decide_eq_true hTest
  exact ⟨r, hHeld, hAccepted, delivery_of_reaches reliablyInitialized_pairStart hReach⟩

end PeerProtocol
