import PeerProtocol.Lib.Lists
import PeerProtocol.Pool.Endpoints

/-!
# peer — a pool that peers share

An application can run several peers over one pool, each with sockets of its
own: a slot's local id says which nodes are a peer's. A tick of one of them,
though, receives from every open socket of the pool, and only `peer_input`
looks whom a packet is for. A datagram for another peer is then taken from its
socket all the same, and is lost.

`SharedPool` has the pool, the peers and the receive queue of each socket. Its
moves are a datagram that arrives, a call of a peer that opens or connects,
and a tick.

* `queues_of_tick` computes what a tick leaves in the queues: one datagram
  less for every open node, since the lookups of a tick add no sockets
  (`AddsEndpoints`);
* `OwnSocket` are the sockets of a peer's slots, and `TakesOwn` says that a
  tick takes datagrams from these only;
* `takesOwn_iff` is exactly when it does: when nothing waits at a socket of
  another peer, or the tick is refused. The same theorem has a part about
  runs: as long as the ticks of the others find nothing that waits for someone
  else, what has waited at a socket is still there, and in front.

At the end a host and a client share a pool, and a tick of the client takes
what has arrived for the host.
-/

namespace PeerProtocol

open Lib

-- ---------------------------------------------------------------------------
-- Receiving
-- ---------------------------------------------------------------------------

/-- The loop over the nodes receives from this node's socket, and it is this one. -/
def PeerNode.receivesFrom (node : PeerNode) (socket : Int) : Bool :=
  node.socket != invalidSocket && node.protocol == peerUdpIPv4 && node.socket == socket

/-- The two tests of the loop, for one socket. -/
theorem receivesFrom_iff {node : PeerNode} {socket : Int} :
    node.receivesFrom socket = true ↔
      node.socket ≠ invalidSocket ∧ node.protocol = peerUdpIPv4 ∧ node.socket = socket := by
  simp only [PeerNode.receivesFrom, Bool.and_eq_true, bne_iff_ne, beq_iff_eq, and_assoc]

/-- `recvfrom` takes the first datagram, if there is one. -/
theorem recvFrom_queue (queue : List Datagram) : (recvFrom queue).2 = queue.drop 1 := by
  cases queue <;> rfl

/-- A socket loses one datagram for each node that stands for it, by induction on
the nodes: each of them asks once, and is given the first that still waits. -/
theorem receiveCalls_queues (nodes : List PeerNode) (queues : Int → List Datagram) (socket : Int) :
    (receiveCalls nodes queues).2 socket =
      (queues socket).drop (nodes.countP (·.receivesFrom socket)) := by
  induction nodes generalizing queues with
  | nil => rfl
  | cons node nodes ih =>
    rw [receiveCalls]
    split
    · next hSkip =>
      have hNot : ¬ node.receivesFrom socket = true := by
        rw [receivesFrom_iff]
        rintro ⟨hSocket, hProtocol, _⟩
        exact hSkip.elim hSocket fun hOther => hOther hProtocol
      have hCount : (node :: nodes).countP (·.receivesFrom socket) =
          nodes.countP (·.receivesFrom socket) := List.countP_cons_of_neg hNot
      rw [hCount]
      exact ih queues
    · next hOpen =>
      rw [not_or, not_not] at hOpen
      refine (ih _).trans ?_
      -- the node takes the first datagram of its own socket, and leaves the others
      by_cases hHere : node.socket = socket
      · have hCount : (node :: nodes).countP (·.receivesFrom socket) =
            nodes.countP (·.receivesFrom socket) + 1 :=
          List.countP_cons_of_pos (receivesFrom_iff.mpr ⟨hOpen.1, hOpen.2, hHere⟩)
        rw [hCount, hHere, Function.update_self, recvFrom_queue, List.drop_drop, Nat.add_comm]
      · have hCount : (node :: nodes).countP (·.receivesFrom socket) =
            nodes.countP (·.receivesFrom socket) :=
          List.countP_cons_of_neg fun h => hHere (receivesFrom_iff.mp h).2.2
        rw [hCount, Function.update_of_ne (Ne.symm hHere)]

-- ---------------------------------------------------------------------------
-- What resolving adds
-- ---------------------------------------------------------------------------

/-- Nodes are appended, and none of them has a socket. -/
def AddsEndpoints (nodes nodes' : List PeerNode) : Prop :=
  ∃ added, nodes' = nodes ++ added ∧ ∀ node ∈ added, node.socket = invalidSocket

theorem addsEndpoints_refl (nodes : List PeerNode) : AddsEndpoints nodes nodes :=
  ⟨[], (List.append_nil nodes).symm, by simp⟩

theorem AddsEndpoints.trans {nodes nodes' nodes'' : List PeerNode} (h : AddsEndpoints nodes nodes')
    (h' : AddsEndpoints nodes' nodes'') : AddsEndpoints nodes nodes'' := by
  obtain ⟨added, rfl, hAdded⟩ := h
  obtain ⟨added', rfl, hAdded'⟩ := h'
  refine ⟨added ++ added', List.append_assoc .., fun node hNode => ?_⟩
  exact (List.mem_append.mp hNode).elim (hAdded node) (hAdded' node)

/-- Nothing is received from what was added. -/
theorem AddsEndpoints.countP {nodes nodes' : List PeerNode} (h : AddsEndpoints nodes nodes')
    (socket : Int) : nodes'.countP (·.receivesFrom socket) = nodes.countP (·.receivesFrom socket) := by
  obtain ⟨added, rfl, hAdded⟩ := h
  have hNone : added.countP (·.receivesFrom socket) = 0 := by
    rw [List.countP_eq_zero]
    intro node hNode hReceives
    exact (receivesFrom_iff.mp hReceives).1 (hAdded node hNode)
  rw [List.countP_append, hNone, Nat.add_zero]

theorem findPoolNode_addsEndpoints {pool pool' : PeerSocketPool} {protocol : Int} {port : UInt16}
    {address : List UInt8} {inPool : Bool} {s : Status} {id : Int}
    (h : findPoolNode pool protocol port address inPool = .ok (s, id, pool')) :
    AddsEndpoints pool.nodes pool'.nodes := by
  rcases findPoolNode_cases h with ⟨_, hSame⟩ | ⟨_, _, rfl, _⟩ | ⟨_, _, _, _, hLe, hNodes⟩
  · rw [hSame]
    exact addsEndpoints_refl _
  · exact addsEndpoints_refl _
  · refine ⟨_, hNodes, fun node hNode => ?_⟩
    rw [List.mem_singleton.mp hNode]
    rfl

/-- The two parts of a turn that look ids up. -/
theorem IdLookup.addsEndpoints {pool pool' : PeerSocketPool} {slot slot' : PeerSlot}
    (h : IdLookup pool slot pool' slot') : AddsEndpoints pool.nodes pool'.nodes := by
  cases h with
  | skip => exact addsEndpoints_refl _
  | found _ hFind => exact findPoolNode_addsEndpoints hFind

theorem resolveSlots_addsEndpoints {pool pool' : PeerSocketPool} {slots slots' : List PeerSlot}
    {s : Status} (h : resolveSlots pool slots = .ok (s, pool', slots')) :
    AddsEndpoints pool.nodes pool'.nodes := by
  induction slots generalizing pool slots' s with
  | nil =>
    obtain ⟨_, hRest⟩ := Prod.mk.inj (Except.ok.inj h)
    obtain ⟨rfl, _⟩ := Prod.mk.inj hRest
    exact addsEndpoints_refl _
  | cons slot slots ih =>
    obtain ⟨⟨s1, pool1, slot1⟩, hFirst, h⟩ := bind_eq_ok.mp h
    obtain ⟨⟨s2, pool2, slots2⟩, hRest, h⟩ := bind_eq_ok.mp h
    obtain ⟨_, hEq⟩ := Prod.mk.inj (Except.ok.inj h)
    obtain ⟨rfl, _⟩ := Prod.mk.inj hEq
    obtain ⟨_, _, _, _, _, hPort, hAddress⟩ := resolveSlot_cases hFirst
    exact (hPort.addsEndpoints.trans hAddress.addsEndpoints).trans (ih hRest)

-- ---------------------------------------------------------------------------
-- What a tick leaves in the queues
-- ---------------------------------------------------------------------------

/-- **The queues after a tick**: every socket has lost a datagram for each node of
the pool that stands for it, whoever ticks. -/
theorem queues_of_tick {w w' : SharedPool} {k : Nat} {peer : Peer} {e : Int} {calls : Nat → SendCalls}
    (h : w.tick k peer e calls = .ok w') (socket : Int) :
    w'.queues socket =
      (w.queues socket).drop (if e < 0 then 0 else w.pool.nodes.countP (·.receivesFrom socket)) := by
  obtain ⟨⟨received, queues⟩, hReceive, h⟩ := bind_eq_ok.mp h
  obtain ⟨⟨s, ps, pool, peer'⟩, _, h⟩ := bind_eq_ok.mp h
  obtain rfl := Except.ok.inj h
  unfold SharedPool.receive at hReceive
  split at hReceive
  · next hNeg =>
    obtain ⟨_, rfl⟩ := Prod.mk.inj (Except.ok.inj hReceive)
    rw [if_pos hNeg, List.drop_zero]
  · next hNonneg =>
    obtain ⟨⟨s1, pool1, peer1⟩, hResolve, hReceive⟩ := bind_eq_ok.mp hReceive
    obtain rfl : (receiveCalls pool1.nodes w.queues).2 = queues :=
      congrArg Prod.snd (Except.ok.inj hReceive)
    obtain ⟨⟨s2, pool2, slots⟩, hSlots, hResolve⟩ := bind_eq_ok.mp hResolve
    obtain ⟨_, hEq⟩ := Prod.mk.inj (Except.ok.inj hResolve)
    obtain ⟨rfl, _⟩ := Prod.mk.inj hEq
    -- Nodes that the resolution added have no sockets, so they receive from none.
    rw [if_neg hNonneg, ← (resolveSlots_addsEndpoints hSlots).countP]
    exact receiveCalls_queues ..

-- ---------------------------------------------------------------------------
-- Whose sockets
-- ---------------------------------------------------------------------------

/-- The socket of a node whose id is the local id of a slot of the peer. The pool
itself does not say whose a node is. -/
def OwnSocket (pool : PeerSocketPool) (peer : Peer) (socket : Int) : Prop :=
  ∃ slot ∈ peer.slots, (nodeAt pool.nodes slot.localEnd.id).map (·.socket) = some socket

instance (pool : PeerSocketPool) (peer : Peer) (socket : Int) : Decidable (OwnSocket pool peer socket) :=
  inferInstanceAs (Decidable (∃ slot ∈ peer.slots, _))

/-- Datagrams are taken from sockets of the peer only: a queue that has changed is
the queue of one of these. -/
def TakesOwn (w : SharedPool) (peer : Peer) (w' : SharedPool) : Prop :=
  ∀ socket, w'.queues socket ≠ w.queues socket → OwnSocket w.pool peer socket

/-- The call is refused, or no datagram waits at an open socket of the pool that is
not the peer's. It is a condition on the state before the tick. -/
def OthersQuiet (w : SharedPool) (peer : Peer) (e : Int) : Prop :=
  e < 0 ∨ ∀ node ∈ w.pool.nodes, node.socket ≠ invalidSocket → node.protocol = peerUdpIPv4 →
    w.queues node.socket ≠ [] → OwnSocket w.pool peer node.socket

/-- A tick takes something from a socket exactly if something waits there and
the loop receives from it. -/
theorem taken_iff {w w' : SharedPool} {k : Nat} {peer : Peer} {e : Int} {calls : Nat → SendCalls}
    (h : w.tick k peer e calls = .ok w') (socket : Int) :
    w'.queues socket ≠ w.queues socket ↔
      0 ≤ e ∧ w.queues socket ≠ [] ∧ ∃ node ∈ w.pool.nodes, node.receivesFrom socket = true := by
  rw [queues_of_tick h, drop_ne_self_iff, ← List.countP_pos_iff]
  split
  · next hNeg => exact ⟨fun hBoth => absurd hBoth.1 (Nat.lt_irrefl 0), fun hAll => by omega⟩
  · next hNonneg =>
    exact ⟨fun ⟨hPos, hNe⟩ => ⟨by omega, hNe, hPos⟩, fun ⟨_, hNe, hPos⟩ => ⟨hPos, hNe⟩⟩

/-- One tick, for a peer that is given: it takes from a socket exactly if an open
node stands for it and something waits there. -/
theorem takesOwn_of_tick {w w' : SharedPool} {k : Nat} {peer : Peer} {e : Int}
    {calls : Nat → SendCalls} (h : w.tick k peer e calls = .ok w') :
    TakesOwn w peer w' ↔ OthersQuiet w peer e := by
  constructor
  · intro hOwn
    by_cases hNeg : e < 0
    · exact Or.inl hNeg
    refine Or.inr fun node hNode hSocket hProtocol hWaits => hOwn node.socket ?_
    exact (taken_iff h node.socket).mpr
      ⟨by omega, hWaits, node, hNode, receivesFrom_iff.mpr ⟨hSocket, hProtocol, rfl⟩⟩
  · intro hQuiet socket hTaken
    obtain ⟨hNonneg, hWaits, node, hNode, hReceives⟩ := (taken_iff h socket).mp hTaken
    obtain ⟨hSocket, hProtocol, rfl⟩ := receivesFrom_iff.mp hReceives
    rcases hQuiet with hNeg | hQuiet
    · omega
    · exact hQuiet node hNode hSocket hProtocol hWaits

-- ---------------------------------------------------------------------------
-- Runs
-- ---------------------------------------------------------------------------

/-- A tick of a peer whose socket this is not, with nothing waiting for others.
Arrivals and other calls take nothing. -/
def Spares (socket : Int) (w : SharedPool) : SharedAction → Prop
  | .tick k e _ => ∀ peer, w.peers[k]? = some peer →
      OthersQuiet w peer e ∧ ¬ OwnSocket w.pool peer socket
  | .arrive _ _ | .use _ _ => True

/-- **Step lemma**: what waits at a socket stays in front. New datagrams come behind
those that wait, and the ticks that are allowed here take nothing from this socket. -/
theorem queue_isPrefix_step {w w' : SharedPool} {a : SharedAction} {socket : Int}
    (hStep : w.step a = .ok w') (hSpares : Spares socket w a) :
    w.queues socket <+: w'.queues socket := by
  cases a with
  | arrive other datagram =>
    obtain rfl := Except.ok.inj hStep
    dsimp only
    by_cases hHere : socket = other
    · rw [hHere, Function.update_self]
      exact List.prefix_append ..
    · rw [Function.update_of_ne hHere]
  | tick k e calls =>
    obtain ⟨peer, hPeer, hTick⟩ := bind_eq_ok.mp hStep
    obtain ⟨hQuiet, hOther⟩ := hSpares peer (readAt_eq_ok.mp hPeer)
    -- a tick takes from no socket but those of its own peer
    have hSame : w'.queues socket = w.queues socket := by
      by_contra hTaken
      exact hOther ((takesOwn_of_tick hTick).mpr hQuiet socket hTaken)
    rw [hSame]
  | use k a =>
    obtain ⟨peer, _, hStep⟩ := bind_eq_ok.mp hStep
    obtain ⟨peer', _, hStep⟩ := bind_eq_ok.mp hStep
    obtain rfl := Except.ok.inj hStep
    exact List.prefix_rfl

/-- **Run lemma**: however the ticks of the others, their other calls and the
arrivals interleave. -/
theorem queue_isPrefix {w w' : SharedPool} {socket : Int}
    (h : Reaches SharedPool.step (fun w a _ => Spares socket w a) w w') :
    w.queues socket <+: w'.queues socket :=
  h.invariant (I := fun v => w.queues socket <+: v.queues socket)
    (fun _ _ _ hInv hStep hSpares => hInv.trans (queue_isPrefix_step hStep hSpares)) List.prefix_rfl

/-- **A tick keeps to the sockets of its peer** exactly if nothing waits for
others, for every shared pool, whoever has opened which nodes and whatever has
arrived; and where this was so for every tick so far, what has waited at a
socket of this peer is still there. -/
theorem takesOwn_iff {w w' : SharedPool} {k : Nat} {peer : Peer} (hPeer : w.peers[k]? = some peer)
    {e : Int} {calls : Nat → SendCalls} (hTick : w.step (.tick k e calls) = .ok w') :
    (TakesOwn w peer w' ↔ OthersQuiet w peer e) ∧
    ∀ (w0 : SharedPool) (socket : Int),
      Reaches SharedPool.step (fun v a _ => Spares socket v a) w0 w →
      w0.queues socket <+: w.queues socket := by
  refine ⟨?_, fun w0 socket hRun => queue_isPrefix hRun⟩
  obtain ⟨peer', hRead, hTick⟩ := bind_eq_ok.mp hTick
  rw [readAt_eq_ok, hPeer, Option.some.injEq] at hRead
  subst hRead
  exact takesOwn_of_tick hTick

-- ---------------------------------------------------------------------------
-- A host and a client
-- ---------------------------------------------------------------------------

/-- The results of the system for the host's nodes, and for the client's. -/
def openCalls (first : Int) (i : Nat) : SocketCalls where
  socket := first + i
  nonblocking := true
  bound := true
  name := some 7

/-- A host with two nodes and a client that connects to the first of them, in
one pool, where a datagram of the client has arrived for the host. -/
def sharedStart : Except Fault SharedPool := do
  let (_, _, pool, host) := peerPoolOpen (peerPoolInit .reliable fun _ => true)
    (peerInit .host .reliable ⟨fun _ => 0⟩) peerUdpIPv4 2 (openCalls 10)
  let (_, _, pool, client) ← peerPoolConnect pool (peerInit .client .reliable ⟨fun _ => 0⟩)
    peerUdpIPv4 [49] 7 (openCalls 20)
  return {
    pool
    peers := [host, client]
    queues := fun socket => if socket = 10 then [⟨[1], [49], 9⟩] else [] }

/-- A tick of the client takes what has arrived for the host: a test. -/
def otherTaken (w : SharedPool) : Bool :=
  match w.peers[1]?, w.step (.tick 1 0 fun _ => ⟨true, true⟩) with
  | some client, .ok w' =>
    !decide (OwnSocket w.pool client 10) && (w.queues 10).length == 1 && (w'.queues 10).isEmpty
  | _, _ => false

/-- The state in which it does so: the host and a client share one pool, a datagram
waits at the host's socket, and after a tick of the client none does. -/
theorem exists_otherTaken :
    ∃ (w : SharedPool) (client : Peer) (w' : SharedPool),
      sharedStart = .ok w ∧ w.peers[1]? = some client ∧
      w.step (.tick 1 0 fun _ => ⟨true, true⟩) = .ok w' ∧
      ¬ OwnSocket w.pool client 10 ∧ (w.queues 10).length = 1 ∧ w'.queues 10 = [] := by
  have hTest : sharedStart.toOption.any otherTaken = true := by decide +kernel
  cases hStart : sharedStart with
  | error fault => simp [hStart, Except.toOption] at hTest
  | ok w =>
    simp only [hStart, Except.toOption, Option.any_some] at hTest
    unfold otherTaken at hTest
    split at hTest
    · next client w' hClient hTick =>
      rw [Bool.and_eq_true, Bool.and_eq_true, Bool.not_eq_true', decide_eq_false_iff_not, beq_iff_eq,
        List.isEmpty_iff] at hTest
      obtain ⟨⟨hOther, hOne⟩, hNone⟩ := hTest
      exact ⟨w, client, w', rfl, hClient, hTick, hOther, hOne, hNone⟩
    · cases hTest

/-- The equivalence there, where both sides are false. -/
theorem takesOwn_iff_client :
    ∃ (w : SharedPool) (client : Peer) (w' : SharedPool), sharedStart = .ok w ∧
      (TakesOwn w client w' ↔ OthersQuiet w client 0) ∧
      ∀ (w0 : SharedPool) (socket : Int),
        Reaches SharedPool.step (fun v a _ => Spares socket v a) w0 w →
        w0.queues socket <+: w.queues socket := by
  obtain ⟨w, client, w', hStart, hClient, hTick, _⟩ := exists_otherTaken
  exact ⟨w, client, w', hStart, takesOwn_iff hClient hTick⟩

/-- The client's tick takes the datagram from the socket of the host's first
node, and the host will not find it there. -/
theorem not_takesOwn_client :
    ∃ (w : SharedPool) (client : Peer) (w' : SharedPool), sharedStart = .ok w ∧
      w.peers[1]? = some client ∧ w.step (.tick 1 0 fun _ => ⟨true, true⟩) = .ok w' ∧
      ¬ TakesOwn w client w' ∧ w'.queues 10 = [] := by
  obtain ⟨w, client, w', hStart, hClient, hTick, hOther, hOne, hNone⟩ := exists_otherTaken
  refine ⟨w, client, w', hStart, hClient, hTick, fun hOwn => hOther (hOwn 10 ?_), hNone⟩
  intro hSame
  rw [← hSame, hNone] at hOne
  cases hOne

end PeerProtocol
