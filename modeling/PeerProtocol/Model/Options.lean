import Mathlib.Tactic

/-!
# peer — options, status codes, and the outside world

`options.h` as constants under the source's names, and what the code takes
from outside: the allocator (kit's `DA_INIT` and `DA_RESIZE`) and the random
generator (kit's mt64). Every other module of the model builds on this one.

## Modelling choices

* A status is a 32-bit word of error bits, as `kit_status_t` is. Codes are
  combined by `|`, and two of them share a bit in the source (`INVALID_ID` and
  `INVALID_MESSAGE_ACTOR`), so they are kept as the words they are and not as
  an enumeration.
* An allocator is a stream of outcomes, one for each request, so that "every
  pattern of failures" is every stream. `failed` remembers that some request
  was refused; no function of the model reads it, only statements do.
* A request for no bytes is none: kit's arrays allocate nothing for size 0.
* A generator is the stream of the words it will return. What mt64 computes is
  not modelled, so a result holds for every generator.
* A `Fault` stops the model where the C code would leave its defined
  behaviour: an access outside an array, a signed overflow, or a resend trail
  asked for past the end of its queue. A computation that may fault returns
  `Except Fault`; the status it would report is inside, since an error status
  is a normal result.

Constants are `abbrev`s that `simp` unfolds, because the arithmetic of offsets
and sizes needs their values everywhere. Error codes are not: what is said
about a status depends on which bits codes have in common (`Lib.Flags`), and
not on which bits these are.
-/

namespace PeerProtocol

-- ---------------------------------------------------------------------------
-- Constants
-- Sizes and offsets in bytes, times in milliseconds, as in `options.h`.
-- ---------------------------------------------------------------------------

/-- `PEER_UNDEFINED`: the value for an id, an index or an actor that is not known. -/
@[simp] abbrev peerUndefined : Int := -1

/-- The array for the address of an endpoint. -/
@[simp] abbrev peerAddressSize : Nat := 64
/-- The data array of a packet, which is also the buffer of `recvfrom`. -/
@[simp] abbrev peerPacketSize : Nat := 400
/-- The number of recent messages to resend. -/
@[simp] abbrev peerTrailSerialSize : Nat := 5
/-- The number of randomly picked previous messages to resend. -/
@[simp] abbrev peerTrailScatterSize : Nat := 5
/-- How far back the randomly picked messages go. -/
@[simp] abbrev peerTrailScatterDistance : Nat := 100
/-- A peer that has sent nothing for this long sends a heartbeat. -/
@[simp] abbrev peerTimeoutHeartbeat : Int := 10

/-- The packet mode of what is not encrypted, which is the only one that is sent. -/
@[simp] abbrev peerPacketModePlain : UInt8 := 0
/-- The mode of messages that the library itself exchanges. -/
@[simp] abbrev peerMessageModeService : UInt8 := 0
/-- The mode of messages that applications queue. -/
@[simp] abbrev peerMessageModeApplication : UInt8 := 1

/-- The service id of a heartbeat. -/
@[simp] abbrev peerMHeartbeat : UInt8 := 1
/-- The service id of the host's answer to a new client. -/
@[simp] abbrev peerMSessionResponse : UInt8 := 5

/-- Offset of the mode in a packet, behind the session and the index. -/
@[simp] abbrev peerNPacketMode : Nat := 12
/-- Offset of the size field of a packet. -/
@[simp] abbrev peerNPacketSize : Nat := 13
/-- Offset of the first message of a packet: the size of the packet header. -/
@[simp] abbrev peerNPacketMessages : Nat := 15

/-- Offset of the checksum of a message, which is always written as zero. -/
@[simp] abbrev peerNMessageChecksum : Nat := 0
/-- Offset of the low eight bits of the size of a message. -/
@[simp] abbrev peerNMessageSize : Nat := 8
/-- Offset of the byte that the two high bits of the size share with the mode. -/
@[simp] abbrev peerNMessageSizeAndMode : Nat := 9
/-- Offset of the index of a message in the queue that it comes from. -/
@[simp] abbrev peerNMessageIndex : Nat := 10
/-- Offset of the time of a message. -/
@[simp] abbrev peerNMessageTime : Nat := 18
/-- Offset of the actor id of a message. -/
@[simp] abbrev peerNMessageActor : Nat := 26
/-- Offset of the data of a message: the size of the message header. -/
@[simp] abbrev peerNMessageData : Nat := 30

/-- The most data that a message can have to fit a packet alone. -/
@[simp] abbrev peerMaxMessageSize : Nat := peerPacketSize - peerNPacketMessages - peerNMessageData

/-- `INT64_MAX`, which is also `PTRDIFF_MAX`. -/
@[simp] abbrev int64Max : Int := 0x7fffffffffffffff

/-- The values of a signed 64-bit integer. Times, indices and ids are `Int` in the
model, and this says of one that it is a value the code can have. -/
def IsInt64 (x : Int) : Prop := -int64Max - 1 ≤ x ∧ x ≤ int64Max

-- ---------------------------------------------------------------------------
-- Status codes
-- Those that the modelled functions return. Null pointers and absent objects
-- cannot be passed to the model, so the codes for them have no counterpart.
-- ---------------------------------------------------------------------------

/-- `kit_status_t`: error bits that callers combine by `|`. -/
abbrev Status := UInt32

/-- No error: the word without bits, and the unit of `|`. -/
@[simp] abbrev kitOk : Status := 0
/-- The allocator has refused a request. -/
def peerErrorBadAlloc : Status := 0x00000001
/-- `peer_queue` of a client that has no slot. -/
def peerErrorInvalidMode : Status := 0x00000010
/-- `peer_queue` of no message. -/
def peerErrorInvalidMessage : Status := 0x00000020
/-- An endpoint id that is no node of the pool, or a list of ids that is not there.
Its bit is also in `peerErrorInvalidMessageActor`. -/
def peerErrorInvalidId : Status := 0x00000040
/-- A tick with a negative time. -/
def peerErrorInvalidTimeElapsed : Status := 0x00000080
/-- A chunk whose size field is not its size, or a message that runs out of its
packet. -/
def peerErrorInvalidMessageSize : Status := 0x00000100
/-- A packet that is too small for its header or larger than a packet can be. -/
def peerErrorInvalidPacketSize : Status := 0x00000200
/-- A negative index that does not stand for "no index". -/
def peerErrorInvalidMessageIndex : Status := 0x00000400
/-- A client's message with a time: only the host sets times. -/
def peerErrorInvalidMessageTime : Status := 0x00000800
/-- A client's message under another actor id than its slot's. The word has two bits
in the source, `0x1040`, of which one is `peerErrorInvalidId`. -/
def peerErrorInvalidMessageActor : Status := 0x00001040
/-- No slot for a new client, or for a connection of one's own. -/
def peerErrorNoFreeSlots : Status := 0x00002000
/-- A service message that this side does not handle. -/
def peerErrorUnknownServiceId : Status := 0x00008000
/-- A cursor past the end of its queue. -/
def peerErrorInvalidOutIndex : Status := 0x00010000
/-- A tick whose time would overflow the local clock. -/
def peerErrorTimeOverflow : Status := 0x00020000

-- ---------------------------------------------------------------------------
-- Faults
-- ---------------------------------------------------------------------------

/-- Where the model stops: the C code has no defined behaviour from here on. That a
call never gets there is a theorem about the call, or about every run that ends in
it. -/
inductive Fault where
  /-- a read or a write outside an array -/
  | access
  /-- a signed 64-bit overflow -/
  | overflow
  /-- `chunks_append_trail` called with `index > q->size` -/
  | trail (index size : Nat)
deriving DecidableEq, Repr

/-- What a computation faults with, if it does: for statements that are about the
fault alone. -/
def faultOf {α : Type _} : Except Fault α → Option Fault
  | .ok _ => none
  | .error fault => some fault

section Except

variable {ε α β : Type _}

/-- A step that ends well hands its result on. -/
@[simp] theorem ok_bind (a : α) (f : α → Except ε β) : (Except.ok a >>= f) = f a := rfl

@[simp] theorem error_bind (e : ε) (f : α → Except ε β) : (Except.error e >>= f) = .error e := rfl

/-- What `return` writes is the constructor, so that results can be matched. -/
@[simp] theorem pure_eq_ok (a : α) : (pure a : Except ε α) = .ok a := rfl

/-- A computation that ends well has ended well before. -/
theorem bind_eq_ok {x : Except ε α} {f : α → Except ε β} {b : β} :
    (x >>= f) = .ok b ↔ ∃ a, x = .ok a ∧ f a = .ok b := by
  cases x <;> simp

end Except

/-- What is read from an array, or the fault of reading outside it. Every access of
the source whose index is computed goes through this. -/
def readAt {α : Type _} (l : List α) (i : Nat) : Except Fault α :=
  match l[i]? with
  | some a => .ok a
  | none => .error .access

/-- A read ends well exactly where there is an entry. -/
@[simp] theorem readAt_eq_ok {α : Type _} {l : List α} {i : Nat} {a : α} :
    readAt l i = .ok a ↔ l[i]? = some a := by
  unfold readAt
  cases l[i]? <;> simp

-- ---------------------------------------------------------------------------
-- Allocator
-- ---------------------------------------------------------------------------

/-- The memory allocator, as the outcomes of all requests to come. A statement about
every allocator is one about every pattern of refusals, including that of a machine
that runs out of memory and never recovers. -/
structure Allocator where
  outcomes : Nat → Bool
  failed : Bool

/-- One request: its outcome is the next of the stream, and a refusal is remembered. -/
def Allocator.request (al : Allocator) : Bool × Allocator :=
  (al.outcomes 0, { outcomes := fun n => al.outcomes (n + 1), failed := al.failed || !al.outcomes 0 })

/-- `DA_INIT` of `n` elements. A failure leaves size 0, which for `n = 0` is no failure. -/
def Allocator.daInit (al : Allocator) (n : Nat) : Bool × Allocator :=
  if n = 0 then (true, al) else al.request

/-- The allocator that refuses nothing. -/
def Allocator.reliable : Allocator where
  outcomes := fun _ => true
  failed := false

/-- A reliable allocator grants a request and stays as it is. -/
@[simp] theorem Allocator.request_reliable :
    Allocator.reliable.request = (true, Allocator.reliable) := rfl

/-- The same for an array of any size. -/
@[simp] theorem Allocator.daInit_reliable (n : Nat) :
    Allocator.reliable.daInit n = (true, Allocator.reliable) := by
  unfold Allocator.daInit
  split <;> rfl

/-- A reliable allocator stays one, whatever was asked of it. -/
theorem Allocator.reliable_of_request {al al' : Allocator} {b : Bool} (h : al.request = (b, al'))
    (hReliable : al = .reliable) : al' = .reliable := by
  rw [hReliable, Allocator.request_reliable] at h
  exact (congrArg Prod.snd h).symm

theorem Allocator.reliable_of_daInit {al al' : Allocator} {b : Bool} {n : Nat}
    (h : al.daInit n = (b, al')) (hReliable : al = .reliable) : al' = .reliable := by
  rw [hReliable, Allocator.daInit_reliable] at h
  exact (congrArg Prod.snd h).symm

-- ---------------------------------------------------------------------------
-- Random generator
-- ---------------------------------------------------------------------------

/-- The state of mt64, as the words it will generate. -/
structure Mt64 where
  words : Nat → UInt64

/-- `mt64_generate`: the next word, and the generator behind it. -/
def Mt64.generate (rng : Mt64) : UInt64 × Mt64 :=
  (rng.words 0, { words := fun n => rng.words (n + 1) })

end PeerProtocol
