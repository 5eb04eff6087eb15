import PeerProtocol.Pool.Opening

/-!
# peer — who owns a descriptor

`peer_pool_open` and `peer_pool_connect` open sockets, and after a failure
close some; `peer_pool_destroy` closes them all. This module sets the pool
into its process, where the application has descriptors of its own and opens
and closes these between the calls, and asks of every open descriptor to whom
it belongs.

* `PoolProcess` is a pool, the application's descriptors, and all that are
  open. What a call opens and closes (`PoolAction.opened`,
  `PoolAction.closed`) is read off the call, and applied to the open ones;
* `Ledger` balances one call: what it opens it leaves to its new nodes, or it
  closes just that again. There is no third case;
* `Owned` is the invariant: the open descriptors are those of the application
  and those of the nodes, each once, and −1 is none of them.

What is assumed of the system is that `socket` returns descriptors which are
not open, and of the application that it closes what it has opened itself. One
assumption is about failures: an open of several sockets fails at its last
node, if at any. Without it the cleanup closes descriptor 0, which may be the
application's (`Pool/Opening.lean`).

`owned_of_reaches` is the result, over every run of the four calls of the API
by any peers and with any other failures. In particular `peer_pool_destroy`
leaves open what the application has, and nothing else.
-/

namespace PeerProtocol

open Lib

-- ---------------------------------------------------------------------------
-- The process
-- ---------------------------------------------------------------------------

/-- The sockets of the nodes that have one. -/
def socketsOf (nodes : List PeerNode) : List Int :=
  (nodes.map (·.socket)).filter (· ≠ invalidSocket)

/-- `closesocket` for each descriptor of the first list. It has no effect on what is
not open, and is called with −1 for a node of a remote endpoint. -/
def closeSockets (closed descriptors : List Int) : List Int := descriptors.filter (· ∉ closed)

/-- The descriptors that `socket` gives to a connect: one, if the address is
accepted and no slot was free. -/
def openedByConnect (pool : PeerSocketPool) (peer : Peer) (protocol : Int) (address : List UInt8)
    (port : UInt16) (calls : Nat → SocketCalls) : List Int :=
  if address = [] ∨ address.length > peerAddressSize - 2 ∨ port = peerAnyPort then []
  else
    match findPoolNode pool protocol port address false with
    | .error _ => []
    | .ok (s, remoteId, pool) =>
      if s = kitOk ∧ (peerConnect peer remoteId).1 = peerErrorNoFreeSlots then
        openedByCall pool protocol 1 calls
      else []

/-- What a call opens, as the descriptors that `socket` returns in it. Ticks and
lookups open nothing. -/
def PoolAction.opened (pool : PeerSocketPool) : PoolAction → List Int
  | .openSockets _ protocol count calls => openedByCall pool protocol count calls
  | .connect peer protocol address port calls =>
    openedByConnect pool peer protocol address port calls
  | .tick _ _ _ _ | .lookup _ _ _ => []

/-- What a call closes: after an error, the sockets of the nodes that it takes away
again. Ticks and lookups close nothing. -/
def PoolAction.closed (pool : PeerSocketPool) : PoolAction → List Int
  | .openSockets peer protocol count calls => (peerPoolOpen pool peer protocol count calls).2.1
  | .connect peer protocol address port calls =>
    match peerPoolConnect pool peer protocol address port calls with
    | .error _ => []
    | .ok (_, closed, _, _) => closed
  | .tick _ _ _ _ | .lookup _ _ _ => []

/-- A pool, the descriptors that the application has opened itself, and all
descriptors of the process that are open. Several peers may use the pool; the
process is one. -/
structure PoolProcess where
  pool : PeerSocketPool
  own : List Int
  descriptors : List Int

/-- A new pool, in an application that has opened some descriptors before. -/
def PoolProcess.start (alloc : Allocator) (inPlace : Nat → Bool) (own : List Int) : PoolProcess where
  pool := peerPoolInit alloc inPlace
  own := own
  descriptors := own

/-- The application calls the pool, or opens or closes a descriptor of its own, a
file for instance. -/
inductive ProcessAction where
  | call (a : PoolAction)
  | openOwn (descriptor : Int)
  | closeOwn (descriptor : Int)

/-- A call opens its descriptors and then closes some; the application opens and
closes one of its own at a time. -/
def PoolProcess.step (p : PoolProcess) : ProcessAction → Except Fault PoolProcess
  | .call a => do
    let pool ← p.pool.step a
    return { p with
      pool
      descriptors := closeSockets (a.closed p.pool) (p.descriptors ++ a.opened p.pool) }
  | .openOwn d => .ok { p with own := p.own ++ [d], descriptors := p.descriptors ++ [d] }
  | .closeOwn d =>
    .ok { p with own := p.own.erase d, descriptors := closeSockets [d] p.descriptors }

/-- An open that comes to the sockets at all can fail at its last node only. This is
the condition of `allOrNothing_iff`, and the only one about failures. -/
def PoolAction.FailsLast (pool : PeerSocketPool) : PoolAction → Prop
  | .openSockets _ protocol count calls =>
    ReachesSockets pool protocol → ∀ i : Nat, (i : Int) + 1 < count → Opens (calls i)
  | .connect _ _ _ _ _ | .tick _ _ _ _ | .lookup _ _ _ => True

/-- What `socket` promises: the descriptors it returns are not open and differ from
each other. The application closes only what it has opened, and never −1. -/
def PoolProcess.Allowed (p : PoolProcess) (a : ProcessAction) (_ : PoolProcess) : Prop :=
  match a with
  | .call a =>
    (a.opened p.pool).Nodup ∧ (∀ d ∈ a.opened p.pool, d ∉ p.descriptors) ∧ a.FailsLast p.pool
  | .openOwn d => d ≠ invalidSocket ∧ d ∉ p.descriptors
  | .closeOwn d => d ∈ p.own

-- ---------------------------------------------------------------------------
-- What a call opens and closes
-- ---------------------------------------------------------------------------

@[simp] theorem socketsOf_append (nodes added : List PeerNode) :
    socketsOf (nodes ++ added) = socketsOf nodes ++ socketsOf added := by
  rw [socketsOf, List.map_append, List.filter_append]
  rfl

/-- Where all nodes have sockets, these are all descriptors. -/
theorem socketsOf_eq_map {nodes : List PeerNode} (h : ∀ node ∈ nodes, node.socket ≠ invalidSocket) :
    socketsOf nodes = nodes.map (·.socket) := by
  refine List.filter_eq_self.mpr fun d hd => ?_
  obtain ⟨node, hNode, rfl⟩ := List.mem_map.mp hd
  exact decide_eq_true (h node hNode)

/-- A node of a remote endpoint has no socket. -/
theorem socketsOf_remote (protocol : Int) (port : UInt16) (address : List UInt8)
    (hLe : address.length ≤ peerAddressSize - 2) :
    socketsOf [PeerNode.remote protocol port address hLe] = [] := rfl

/-- A call closes just what it has opened and leaves the sockets of the nodes,
or it closes nothing, and its new nodes have what it has opened. -/
def Ledger (nodes nodes' : List PeerNode) (opened closed : List Int) : Prop :=
  (closed = opened ∧ socketsOf nodes' = socketsOf nodes) ∨
    (closed = [] ∧ socketsOf nodes' = socketsOf nodes ++ opened)

section Calls

variable {pool pool' : PeerSocketPool} {peer peer' : Peer} {protocol count : Int} {s : Status}
  {calls : Nat → SocketCalls} {closed : List Int}

/-- A call that opens and closes nothing is balanced if it changes no sockets. -/
theorem ledger_nothing {nodes nodes' : List PeerNode} (h : socketsOf nodes' = socketsOf nodes) :
    Ledger nodes nodes' [] [] := Or.inl ⟨rfl, h⟩

theorem findPoolNode_sockets {port : UInt16} {address : List UInt8} {inPool : Bool} {id : Int}
    (h : findPoolNode pool protocol port address inPool = .ok (s, id, pool')) :
    socketsOf pool'.nodes = socketsOf pool.nodes := by
  rcases findPoolNode_cases h with ⟨_, hSame⟩ | ⟨_, _, rfl, _⟩ | ⟨_, _, _, _, hLe, hNodes⟩
  · rw [hSame]
  · rfl
  · rw [hNodes, socketsOf_append, socketsOf_remote, List.append_nil]

/-- **An open**, where it can fail at its last node only: it keeps all that it has
opened, or closes all of it. -/
theorem peerPoolOpen_ledger
    (hLast : ReachesSockets pool protocol → ∀ i : Nat, (i : Int) + 1 < count → Opens (calls i))
    (h : peerPoolOpen pool peer protocol count calls = (s, closed, pool', peer')) :
    Ledger pool.nodes pool'.nodes (openedByCall pool protocol count calls) closed := by
  by_cases hCount : 0 < count
  swap
  · -- the count is refused
    have hNone : openedByCall pool protocol count calls = [] := by
      rw [openedByCall, Int.toNat_of_nonpos (Int.not_lt.mp hCount)]
      exact ite_self _
    rw [peerPoolOpen, if_pos (Int.not_lt.mp hCount)] at h
    simp only [Prod.mk.injEq] at h
    obtain ⟨_, rfl, rfl, _⟩ := h
    rw [hNone]
    exact ledger_nothing rfl
  by_cases hReach : ReachesSockets pool protocol
  swap
  · obtain ⟨_, rfl, hNodes, _⟩ := peerPoolOpen_unreached hCount hReach h
    have hNone : openedByCall pool protocol count calls = [] := if_neg hReach
    rw [hNone]
    exact ledger_nothing (by rw [hNodes])
  have hOpened : openedByCall pool protocol count calls = openedSockets calls 0 count.toNat :=
    if_pos hReach
  rw [hOpened]
  rcases peerPoolOpen_reached hCount hReach h with
    ⟨_, hClosed, hNodes, _⟩ | ⟨_, hLoop, hClosed, hNodes, _⟩
  · -- a loop that fails at its last node leaves none behind it
    have hNone : untouched calls 0 count.toNat = 0 := by
      refine (untouched_eq_zero_iff _ _ _).mpr fun i hi => ?_
      rw [Nat.zero_add]
      exact hLast hReach i (by omega)
    rw [hNone, List.replicate_zero, List.append_nil] at hClosed
    exact Or.inl ⟨hClosed, by rw [hNodes]⟩
  · obtain ⟨hSockets, hValid⟩ := sockets_of_ok hLoop
    refine Or.inr ⟨hClosed, ?_⟩
    rw [hNodes, socketsOf_append, socketsOf_eq_map hValid, hSockets]

/-- **A connect** opens one node at most, so it always fails at its last node, and
the clean-up has no node in it that the loop did not come to. It is balanced under
any results of its calls. -/
theorem peerPoolConnect_ledger {address : List UInt8} {port : UInt16}
    (h : peerPoolConnect pool peer protocol address port calls = .ok (s, closed, pool', peer')) :
    Ledger pool.nodes pool'.nodes (openedByConnect pool peer protocol address port calls) closed := by
  -- the results of a call that ends here
  have hEnd {s1 : Status} {closed1 opened : List Int} {pool1 : PeerSocketPool} {peer1 : Peer}
      (hEq : (.ok (s1, closed1, pool1, peer1) : Except Fault _) = .ok (s, closed, pool', peer'))
      (hLedger : Ledger pool.nodes pool1.nodes opened closed1) :
      Ledger pool.nodes pool'.nodes opened closed := by
    obtain ⟨_, hRest⟩ := Prod.mk.inj (Except.ok.inj hEq)
    obtain ⟨hClosed, hRest⟩ := Prod.mk.inj hRest
    obtain ⟨hPool, _⟩ := Prod.mk.inj hRest
    rw [← hClosed, ← hPool]
    exact hLedger
  unfold peerPoolConnect at h
  unfold openedByConnect
  split at h
  · next hAddress =>
    rw [if_pos (hAddress.imp_right Or.inl)]
    exact hEnd h (ledger_nothing rfl)
  next hAddress =>
  split at h
  · next hPort =>
    rw [if_pos (Or.inr (Or.inr hPort))]
    exact hEnd h (ledger_nothing rfl)
  next hPort =>
  obtain ⟨⟨s1, id, pool1⟩, hFind, h⟩ := bind_eq_ok.mp h
  have hFound := findPoolNode_sockets hFind
  have hAccepted : ¬ (address = [] ∨ address.length > peerAddressSize - 2 ∨ port = peerAnyPort) := by
    rintro (hNil | hLong | hAny)
    · exact hAddress (Or.inl hNil)
    · exact hAddress (Or.inr hLong)
    · exact hPort hAny
  rw [if_neg hAccepted, hFind]
  dsimp only at h ⊢
  split at h
  · -- no node for the remote end
    next hError =>
    rw [if_neg fun hBoth => hError hBoth.1]
    exact hEnd h (ledger_nothing hFound)
  next hOk =>
  split at h
  · -- a free slot, or another error
    next hSlot =>
    rw [if_neg fun hBoth => hSlot hBoth.2]
    exact hEnd h (ledger_nothing hFound)
  next hFull =>
  rw [if_pos ⟨not_not.mp hOk, not_not.mp hFull⟩]
  -- a single node is the last
  have hLedger := peerPoolOpen_ledger (fun _ i hi => absurd hi (by omega))
    (Eq.refl (peerPoolOpen pool1 (peerConnect peer id).2 protocol 1 calls))
  rw [Ledger, hFound] at hLedger
  split at h
  · exact hEnd h hLedger
  · exact hEnd h hLedger

end Calls

-- ---------------------------------------------------------------------------
-- Calls that open nothing
-- ---------------------------------------------------------------------------

section Lookups

variable {pool pool' : PeerSocketPool} {s : Status}

/-- The loop over the slots looks endpoints up: it may add nodes, and those have no
socket, so the sockets of the nodes are the same list before and after. -/
theorem resolveSlots_sockets {slots slots' : List PeerSlot}
    (h : resolveSlots pool slots = .ok (s, pool', slots')) :
    socketsOf pool'.nodes = socketsOf pool.nodes := by
  -- A lookup that has to add a node adds one without a socket.
  have hLookup {pool pool' : PeerSocketPool} {slot slot' : PeerSlot}
      (hLookup : IdLookup pool slot pool' slot') : socketsOf pool'.nodes = socketsOf pool.nodes := by
    cases hLookup with
    | skip => rfl
    | found _ hFind => exact findPoolNode_sockets hFind
  induction slots generalizing pool slots' s with
  | nil =>
    obtain ⟨_, hRest⟩ := Prod.mk.inj (Except.ok.inj h)
    obtain ⟨rfl, _⟩ := Prod.mk.inj hRest
    rfl
  | cons slot slots ih =>
    obtain ⟨⟨s1, pool1, slot1⟩, hFirst, h⟩ := bind_eq_ok.mp h
    obtain ⟨⟨s2, pool2, slots2⟩, hRest, h⟩ := bind_eq_ok.mp h
    obtain ⟨_, hEq⟩ := Prod.mk.inj (Except.ok.inj h)
    obtain ⟨rfl, _⟩ := Prod.mk.inj hEq
    obtain ⟨_, _, _, _, _, hPort, hAddress⟩ := resolveSlot_cases hFirst
    rw [ih hRest, hLookup hAddress, hLookup hPort]

/-- So does receiving, for the sender of a datagram: one that was not heard before
gets a node without a socket, and what is received is none of the pool's
descriptors. -/
theorem receiveNode_sockets {received : ReceiveCall} {i : Nat} {node : PeerNode}
    {packets packets' : List PeerPacket}
    (h : receiveNode received pool i node packets = .ok (s, pool', packets')) :
    socketsOf pool'.nodes = socketsOf pool.nodes := by
  -- Every branch ends with the pool as it was, or as the lookup of the sender left it.
  have hEnd {s1 : Status} {pool1 : PeerSocketPool} {packets1 : List PeerPacket}
      (hEq : (.ok (s1, pool1, packets1) : Except Fault _) = .ok (s, pool', packets'))
      (hSame : socketsOf pool1.nodes = socketsOf pool.nodes) :
      socketsOf pool'.nodes = socketsOf pool.nodes := by
    obtain ⟨_, hRest⟩ := Prod.mk.inj (Except.ok.inj hEq)
    obtain ⟨hPool, _⟩ := Prod.mk.inj hRest
    rw [← hPool, hSame]
  unfold receiveNode at h
  split at h
  · exact hEnd h rfl
  split at h
  · exact hEnd h rfl
  · exact hEnd h rfl
  split at h
  · exact hEnd h rfl
  obtain ⟨⟨s1, id, pool1⟩, hFind, h⟩ := bind_eq_ok.mp h
  -- The lookup may add a node, and a node it adds has no socket.
  have hFound := findPoolNode_sockets hFind
  dsimp only at h
  split at h
  · exact hEnd h hFound
  split at h
  · exact hEnd h hFound
  · exact hEnd h hFound

theorem receiveNodes_sockets {received : Nat → ReceiveCall} {i : Nat} {nodes : List PeerNode}
    {packets packets' : List PeerPacket}
    (h : receiveNodes received i nodes pool packets = .ok (s, pool', packets')) :
    socketsOf pool'.nodes = socketsOf pool.nodes := by
  induction nodes generalizing i pool packets s with
  | nil =>
    obtain ⟨_, hRest⟩ := Prod.mk.inj (Except.ok.inj h)
    obtain ⟨rfl, _⟩ := Prod.mk.inj hRest
    rfl
  | cons node nodes ih =>
    obtain ⟨⟨s1, pool1, packets1⟩, hFirst, h⟩ := bind_eq_ok.mp h
    obtain ⟨⟨s2, pool2, packets2⟩, hRest, h⟩ := bind_eq_ok.mp h
    obtain ⟨_, hEq⟩ := Prod.mk.inj (Except.ok.inj h)
    obtain ⟨rfl, rfl⟩ := Prod.mk.inj hEq
    rw [ih hRest, receiveNode_sockets hFirst]

/-- **A tick** adds nodes of remote endpoints only. It opens and closes no
descriptor, whatever the socket calls return, and whether or not the peer's part of
it reports errors. -/
theorem peerPoolTick_sockets {peer peer' : Peer} {e : Int} {received : Nat → ReceiveCall}
    {calls : Nat → SendCalls} {ps : List PeerPacket}
    (h : peerPoolTick pool peer e received calls = .ok (s, ps, pool', peer')) :
    socketsOf pool'.nodes = socketsOf pool.nodes := by
  -- The nodes change in two places only: while addresses are resolved, and while receiving.
  unfold peerPoolTick at h
  split at h
  · obtain ⟨_, hRest⟩ := Prod.mk.inj (Except.ok.inj h)
    obtain ⟨_, hRest⟩ := Prod.mk.inj hRest
    obtain ⟨rfl, _⟩ := Prod.mk.inj hRest
    rfl
  obtain ⟨⟨s1, pool1, peer1⟩, hResolve, h⟩ := bind_eq_ok.mp h
  obtain ⟨⟨s2, pool2, packets⟩, hReceive, h⟩ := bind_eq_ok.mp h
  obtain ⟨⟨s3, peer2⟩, _, h⟩ := bind_eq_ok.mp h
  obtain ⟨⟨s4, packets', peer3⟩, _, h⟩ := bind_eq_ok.mp h
  obtain ⟨_, hRest⟩ := Prod.mk.inj (Except.ok.inj h)
  obtain ⟨_, hRest⟩ := Prod.mk.inj hRest
  obtain ⟨rfl, _⟩ := Prod.mk.inj hRest
  obtain ⟨⟨s0, pool0, slots0⟩, hSlots, hResolve⟩ := bind_eq_ok.mp hResolve
  obtain ⟨_, hRest⟩ := Prod.mk.inj (Except.ok.inj hResolve)
  obtain ⟨rfl, _⟩ := Prod.mk.inj hRest
  rw [receiveNodes_sockets hReceive, resolveSlots_sockets hSlots]

end Lookups

/-- **Step lemma of the pool**: every call is balanced. A tick and a lookup open and
close nothing, and leave the sockets of the nodes. -/
theorem PeerSocketPool.step_ledger {pool pool' : PeerSocketPool} {a : PoolAction}
    (hLast : a.FailsLast pool) (h : pool.step a = .ok pool') :
    Ledger pool.nodes pool'.nodes (a.opened pool) (a.closed pool) := by
  cases a with
  | openSockets peer protocol count calls =>
    -- A call that ends has not overflowed, and is then `peerPoolOpen`.
    obtain ⟨r, hOpen, h⟩ := bind_eq_ok.mp h
    obtain ⟨_, rfl⟩ := peerPoolOpenCall_eq_ok.mp hOpen
    rw [← Except.ok.inj h]
    exact peerPoolOpen_ledger hLast rfl
  | connect peer protocol address port calls =>
    obtain ⟨⟨s, closed, pool1, peer1⟩, hConnect, h⟩ := bind_eq_ok.mp h
    rw [← Except.ok.inj h, PoolAction.closed, hConnect]
    exact peerPoolConnect_ledger hConnect
  | tick peer e received calls =>
    obtain ⟨⟨s, ps, pool1, peer1⟩, hTick, h⟩ := bind_eq_ok.mp h
    rw [← Except.ok.inj h]
    exact ledger_nothing (peerPoolTick_sockets hTick)
  | lookup protocol port address =>
    obtain ⟨⟨s, id, pool1⟩, hFind, h⟩ := bind_eq_ok.mp h
    rw [← Except.ok.inj h]
    exact ledger_nothing (findPoolNode_sockets hFind)

-- ---------------------------------------------------------------------------
-- Runs
-- ---------------------------------------------------------------------------

/-- What is open belongs to the application or to a node, and nothing is theirs
twice. The order of the descriptors does not matter, so the first field is a
permutation. -/
structure Owned (p : PoolProcess) : Prop where
  perm : p.descriptors.Perm (p.own ++ socketsOf p.pool.nodes)
  nodup : (p.own ++ socketsOf p.pool.nodes).Nodup
  valid : invalidSocket ∉ p.own

/-- Where nothing is closed, everything stays open. -/
theorem closeSockets_nil (descriptors : List Int) : closeSockets [] descriptors = descriptors :=
  List.filter_eq_self.mpr fun _ _ => decide_eq_true List.not_mem_nil

/-- What was not open before is closed again, and nothing else. -/
theorem closeSockets_append {opened descriptors : List Int} (h : ∀ d ∈ opened, d ∉ descriptors) :
    closeSockets opened (descriptors ++ opened) = descriptors := by
  rw [closeSockets, List.filter_append, List.filter_eq_self.mpr, List.filter_eq_nil_iff.mpr,
    List.append_nil]
  · simp
  · exact fun d hd => decide_eq_true fun hOpened => h d hOpened hd

/-- A balanced call of the pool keeps the invariant, if what it opens is new: then
what it closes again was not open before, and what it keeps belongs to a node. -/
theorem Owned.call {p : PoolProcess} (h : Owned p) {pool' : PeerSocketPool} {opened closed : List Int}
    (hNodup : opened.Nodup) (hFresh : ∀ d ∈ opened, d ∉ p.descriptors)
    (hLedger : Ledger p.pool.nodes pool'.nodes opened closed) :
    Owned { p with
      pool := pool', descriptors := closeSockets closed (p.descriptors ++ opened) } := by
  rcases hLedger with ⟨rfl, hSame⟩ | ⟨rfl, hMore⟩
  · refine ⟨?_, ?_, h.valid⟩
    · rw [closeSockets_append hFresh, hSame]
      exact h.perm
    · rw [hSame]
      exact h.nodup
  · refine ⟨?_, ?_, h.valid⟩
    · rw [closeSockets_nil, hMore, ← List.append_assoc]
      exact h.perm.append_right opened
    · rw [hMore, ← List.append_assoc]
      refine h.nodup.append hNodup fun d hOld hNew => ?_
      exact hFresh d hNew (h.perm.mem_iff.mpr hOld)

/-- The application opens a descriptor of its own. -/
theorem Owned.openOwn {p : PoolProcess} (h : Owned p) {d : Int} (hValid : d ≠ invalidSocket)
    (hFresh : d ∉ p.descriptors) :
    Owned { p with own := p.own ++ [d], descriptors := p.descriptors ++ [d] } := by
  have hMoved : (p.own ++ [d] ++ socketsOf p.pool.nodes).Perm
      (p.own ++ socketsOf p.pool.nodes ++ [d]) := by
    rw [List.append_assoc, List.append_assoc]
    exact List.perm_append_comm.append_left p.own
  refine ⟨(h.perm.append_right [d]).trans hMoved.symm, hMoved.nodup_iff.mpr ?_, fun hMem => ?_⟩
  · refine h.nodup.append (List.nodup_singleton d) fun x hOld hNew => ?_
    rw [List.mem_singleton.mp hNew] at hOld
    exact hFresh (h.perm.mem_iff.mpr hOld)
  · rcases List.mem_append.mp hMem with hOld | hNew
    · exact h.valid hOld
    · exact hValid (List.mem_singleton.mp hNew).symm

/-- It closes one of its own, which no node has. -/
theorem Owned.closeOwn {p : PoolProcess} (h : Owned p) {d : Int} (hOwn : d ∈ p.own) :
    Owned { p with own := p.own.erase d, descriptors := closeSockets [d] p.descriptors } := by
  have hErased : (p.own ++ socketsOf p.pool.nodes).erase d =
      p.own.erase d ++ socketsOf p.pool.nodes := List.erase_append_left _ hOwn
  have hClosed : closeSockets [d] (p.own ++ socketsOf p.pool.nodes) =
      p.own.erase d ++ socketsOf p.pool.nodes := by
    rw [← hErased, h.nodup.erase_eq_filter]
    exact List.filter_congr fun x _ => Bool.eq_iff_iff.mpr (by simp)
  refine ⟨?_, hErased ▸ h.nodup.erase d, fun hMem => h.valid (List.mem_of_mem_erase hMem)⟩
  rw [← hClosed]
  exact h.perm.filter _

/-- **Step lemma**, for the calls of the pool by their ledger, and for what the
application opens and closes itself. -/
theorem Owned.step {p p' : PoolProcess} {a : ProcessAction} (h : Owned p) (hAllowed : p.Allowed a p')
    (hStep : p.step a = .ok p') : Owned p' := by
  cases a with
  | call a =>
    obtain ⟨pool', hCall, hEq⟩ := bind_eq_ok.mp hStep
    obtain ⟨hNodup, hFresh, hLast⟩ := hAllowed
    rw [← Except.ok.inj hEq]
    exact h.call hNodup hFresh (p.pool.step_ledger hLast hCall)
  | openOwn d =>
    rw [← Except.ok.inj hStep]
    exact h.openOwn hAllowed.1 hAllowed.2
  | closeOwn d =>
    rw [← Except.ok.inj hStep]
    exact h.closeOwn hAllowed

/-- What `peer_pool_destroy` leaves open: the application's descriptors, all of them
and nothing else. It closes one descriptor for each node, and none of these is the
application's. -/
theorem Owned.destroy {p : PoolProcess} (h : Owned p) :
    (closeSockets (peerPoolDestroy p.pool) p.descriptors).Perm p.own := by
  have hClosed : closeSockets (peerPoolDestroy p.pool) (p.own ++ socketsOf p.pool.nodes) = p.own := by
    rw [closeSockets, List.filter_append, List.filter_eq_self.mpr, List.filter_eq_nil_iff.mpr,
      List.append_nil]
    · intro d hd
      rw [decide_eq_true_iff, not_not]
      exact (List.mem_filter.mp hd).1
    · intro d hd
      refine decide_eq_true fun hNode => ?_
      -- a node's socket that is not the application's, and `INVALID_SOCKET` is not either
      by_cases hInvalid : d = invalidSocket
      · exact h.valid (hInvalid ▸ hd)
      · exact (List.nodup_append.mp h.nodup).2.2 d hd d
          (List.mem_filter.mpr ⟨hNode, decide_eq_true hInvalid⟩) rfl
  exact hClosed ▸ h.perm.filter _

/-- **No descriptor is lost, shared or closed for somebody else.** In every run of
calls with a pool, for any peers, with any datagrams and any failures of sockets
and allocations, except that an open of several sockets fails at its last node if
at any: the open descriptors are those of the application and those of the nodes,
each once, and `peer_pool_destroy` closes all of the nodes and no other. -/
theorem owned_of_reaches {alloc : Allocator} {inPlace : Nat → Bool} {own : List Int}
    (hNodup : own.Nodup) (hValid : invalidSocket ∉ own) {p : PoolProcess}
    (h : Reaches PoolProcess.step PoolProcess.Allowed (.start alloc inPlace own) p) :
    p.descriptors.Perm (p.own ++ socketsOf p.pool.nodes) ∧
      (p.own ++ socketsOf p.pool.nodes).Nodup ∧
      (closeSockets (peerPoolDestroy p.pool) p.descriptors).Perm p.own := by
  have hStart : Owned (.start alloc inPlace own) := by
    refine ⟨?_, ?_, hValid⟩
    · exact List.Perm.of_eq (List.append_nil own).symm
    · exact (List.append_nil own).symm ▸ hNodup
  have hOwned : Owned p := h.invariant (I := Owned)
    (fun _ _ _ hInv hStep hAllowed => hInv.step hAllowed hStep) hStart
  exact ⟨hOwned.perm, hOwned.nodup, hOwned.destroy⟩

/-- The application has descriptor 0. A host opens two sockets, a client connects
with one of its own, the application opens and closes a file, and the second
socket of another open fails. -/
def processRun : List ProcessAction :=
  [.call (.openSockets (peerInit .host .reliable ⟨fun _ => 0⟩) peerUdpIPv4 2
      fun i => ⟨3 + i, true, true, some 7⟩),
    .call (.connect (peerInit .client .reliable ⟨fun _ => 0⟩) peerUdpIPv4 [49] 7
      fun _ => ⟨5, true, true, some 9⟩),
    .openOwn 6, .closeOwn 0,
    .call (.openSockets (peerInit .host .reliable ⟨fun _ => 0⟩) peerUdpIPv4 2
      fun i => ⟨7 + i, true, i = 0, some 7⟩)]

/-- A test for `Allowed`, to run a run. -/
def allowsProcess (p : PoolProcess) (a : ProcessAction) (_ : PoolProcess) : Bool :=
  match a with
  | .call a =>
    decide (a.opened p.pool).Nodup && decide (∀ d ∈ a.opened p.pool, d ∉ p.descriptors) &&
      match a with
      | .openSockets _ _ count calls => decide (untouched calls 0 count.toNat = 0)
      | .connect _ _ _ _ _ | .tick _ _ _ _ | .lookup _ _ _ => true
  | .openOwn d => decide (d ≠ invalidSocket) && decide (d ∉ p.descriptors)
  | .closeOwn d => decide (d ∈ p.own)

/-- It accepts only what is allowed. -/
theorem allowed_of_allowsProcess {p p' : PoolProcess} {a : ProcessAction}
    (h : allowsProcess p a p' = true) : p.Allowed a p' := by
  cases a with
  | call a =>
    simp only [allowsProcess, Bool.and_eq_true, decide_eq_true_iff] at h
    obtain ⟨⟨hNodup, hFresh⟩, hLast⟩ := h
    refine ⟨hNodup, hFresh, ?_⟩
    cases a with
    | openSockets peer protocol count calls =>
      intro _ i hi
      have hOpens := (untouched_eq_zero_iff calls 0 count.toNat).mp (of_decide_eq_true hLast) i
        (by omega)
      rwa [Nat.zero_add] at hOpens
    | connect | tick | lookup => trivial
  | openOwn d =>
    simp only [allowsProcess, Bool.and_eq_true, decide_eq_true_iff] at h
    exact h
  | closeOwn d => exact of_decide_eq_true (p := d ∈ p.own) h

/-- After that run four descriptors are open, one of them the application's. -/
theorem owned_of_reaches_opened :
    ∃ p : PoolProcess, p.own = [6] ∧ p.descriptors = [3, 4, 5, 6] ∧
      p.descriptors.Perm (p.own ++ socketsOf p.pool.nodes) ∧
      (p.own ++ socketsOf p.pool.nodes).Nodup ∧
      (closeSockets (peerPoolDestroy p.pool) p.descriptors).Perm p.own := by
  obtain ⟨p, hReach, hTest⟩ : ∃ p, Reaches PoolProcess.step PoolProcess.Allowed
      (.start .reliable (fun _ => true) [0]) p ∧
        decide (p.own = [6] ∧ p.descriptors = [3, 4, 5, 6]) = true :=
    exists_reaches_of_runGuarded allowsProcess (fun _ _ _ => allowed_of_allowsProcess) processRun _
      (fun p : PoolProcess => decide (p.own = [6] ∧ p.descriptors = [3, 4, 5, 6])) (by decide)
  obtain ⟨hOwn, hOpen⟩ := of_decide_eq_true hTest
  exact ⟨p, hOwn, hOpen, owned_of_reaches (by decide) (by decide) hReach⟩

end PeerProtocol
