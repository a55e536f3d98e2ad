-- Threads that connect and disconnect at the same time. A step is one call of a
-- mutex, one step of a loop over a list, or one `push_back` or `erase`. A thread
-- locks the list of its sender first, and the list of a receiver while it holds it.
-- What `rcu_write_lock` and `unlock` do to the guards is a matter of `SharedList`.
import CsSignal.Matching
import CsSignal.Lib.Runs

namespace CsSignal

open LinkedCells Calls

abbrev ThreadId := Nat

/-! ## What a thread is doing -/

structure ConnectArgs where
  overload : Overload
  sender : SenderId
  signalMethod : Bento
  receiver : ReceiverId
  slotMethod : Bento
  type : ConnectionKind
  uniqueConnection : Bool
  deriving DecidableEq

structure DisconnectArgs where
  sender : SenderId
  signalBento : Option Bento
  receiver : Option ReceiverId
  slotBento : Option Bento
  deriving DecidableEq

/-- A call that a thread makes. -/
inductive LibCall
  | connect (a : ConnectArgs)
  | disconnect (a : DisconnectArgs)
  deriving DecidableEq

/-- The connection that `addConnection` makes. -/
def ConnectArgs.item (a : ConnectArgs) : ConnectStruct :=
  ⟨a.signalMethod, a.receiver, a.slotMethod, a.type⟩

/-- The test of the duplicate scan. -/
def ConnectArgs.same (a : ConnectArgs) : ConnectStruct → Bool :=
  a.overload.same a.signalMethod a.receiver a.slotMethod

def DisconnectArgs.hit (a : DisconnectArgs) : ConnectStruct → Bool :=
  isMatch a.signalBento a.receiver a.slotBento

def LibCall.sender : LibCall → SenderId
  | .connect a => a.sender
  | .disconnect a => a.sender

/-- The next access to the list of the sender, whose mutex is held. -/
inductive SenderJob
  | begin
  /-- The duplicate scan of `connect`. -/
  | scan (iter : Option Nat)
  | pushBack
  /-- The loop of `internal_disconnect`. -/
  | visit (iter : Option Nat) (retval : Bool)
  /-- The mutex of the receiver is held as well. -/
  | erase (iter : Nat) (receiver : ReceiverId)
  | next (iter : Nat)

/-- The next access to the list of a receiver, whose mutex is held as well. -/
inductive ReceiverJob
  | pushBack
  | begin (iter : Nat)
  | find (iter : Nat) (node : Option Nat)
  | erase (iter : Nat) (found : Option Nat)

/-- What a thread does next. A lock or unlock of a receiver comes with the
iterator of `internal_disconnect`, or without one in `connect`. -/
inductive Stage
  | lock
  | sender (q : SenderJob)
  | lockReceiver (receiver : ReceiverId) (iter : Option Nat)
  | receiver (receiver : ReceiverId) (q : ReceiverJob)
  | unlockReceiver (receiver : ReceiverId) (iter : Option Nat)
  | unlock (retval : Bool)

/-- The first access to the handle of the sender's list, which locks it. -/
def LibCall.first : LibCall → SenderJob
  | .connect a => if a.uniqueConnection then .begin else .pushBack
  | .disconnect _ => .begin

/-! ## The accesses to the lists -/

abbrev SenderNodes := NodeList ConnectStruct
abbrev ReceiverNodes := NodeList SenderId

/-- One access to the list of the sender. -/
def senderStep (c : LibCall) (l : SenderNodes) : SenderJob → Except Fault (SenderNodes × Stage)
  | .begin =>
    match c with
    | .connect _ => .ok (l, .sender (.scan l.head))
    | .disconnect _ => .ok (l, .sender (.visit l.head false))
  | .scan none => .ok (l, .sender .pushBack)
  | .scan (some n) => do
    let item ← l.deref n
    match c with
    | .connect a =>
      if a.same item.data then .ok (l, .unlock false) else .ok (l, .sender (.scan item.next))
    | .disconnect _ => .error .nullPointer
  | .pushBack =>
    match c with
    | .connect a => do
      let l ← l.pushBack a.item
      .ok (l, .lockReceiver a.receiver none)
    | .disconnect _ => .error .nullPointer
  | .visit none retval => .ok (l, .unlock retval)
  | .visit (some n) retval => do
    let temp ← l.deref n
    match c with
    | .disconnect a =>
      if a.hit temp.data then .ok (l, .lockReceiver temp.data.receiver (some n))
      else .ok (l, .sender (.visit temp.next retval))
    | .connect _ => .error .nullPointer
  | .erase n r => do
    let (_, _, l) ← l.unlink n
    .ok (l, .unlockReceiver r (some n))
  | .next n => do
    let temp ← l.deref n
    .ok (l, .sender (.visit temp.next true))

/-- One access to the list of a receiver. -/
def receiverStep (s : SenderId) (r : ReceiverId) (l : ReceiverNodes) :
    ReceiverJob → Except Fault (ReceiverNodes × Stage)
  | .pushBack => do
    let l ← l.pushBack s
    .ok (l, .unlockReceiver r none)
  | .begin n => .ok (l, .receiver r (.find n l.head))
  | .find n none => .ok (l, .receiver r (.erase n none))
  | .find n (some m) => do
    let c ← l.deref m
    if c.data = s then .ok (l, .receiver r (.erase n (some m)))
    else .ok (l, .receiver r (.find n c.next))
  | .erase _ none => .error .nullPointer
  | .erase n (some m) => do
    let (_, _, l) ← l.unlink m
    .ok (l, .sender (.erase n r))

/-! ## The machine -/

/-- A call of a thread that has ended; the result is `none` when it threw. -/
structure Finished where
  thread : ThreadId
  call : LibCall
  result : Option Bool
  deriving DecidableEq

structure Threads where
  /-- The objects; no thread ends one. -/
  world : World
  connectList : SenderId → SenderNodes
  possibleSenders : ReceiverId → ReceiverNodes
  /-- The mutex of each list, by the thread that holds it. -/
  connectMutex : SenderId → Option ThreadId := fun _ => none
  possibleMutex : ReceiverId → Option ThreadId := fun _ => none
  /-- The call that a thread is in. -/
  thread : ThreadId → Option (LibCall × Stage) := fun _ => none
  /-- The calls that have ended, the first one first; the code has no such thing. -/
  finished : List Finished := []

/-- Threads in the objects of a program. -/
def Threads.start (w : World) : Threads where
  world := w
  connectList s := (w.connectList s).toNodeList
  possibleSenders r := (w.possibleSenders r).toNodeList

/-- A thread begins a call, or makes its next step. -/
inductive ThreadEvent
  | call (c : LibCall)
  | go

/-- The objects of a call are alive. -/
def LibCall.Live (w : World) : LibCall → Prop
  | .connect a => (w.sender a.sender).isSome = true ∧ w.receiver a.receiver = true
  | .disconnect a => (w.sender a.sender).isSome = true

instance (w : World) (c : LibCall) : Decidable (c.Live w) := by
  cases c <;> unfold LibCall.Live <;> infer_instance

/-- Does `connect` get past its tests for null pointers? -/
def LibCall.accepts : LibCall → Bool
  | .connect a => a.overload.accepts a.signalMethod a.slotMethod
  | .disconnect _ => true

namespace Threads

def goto (τ : Threads) (t : ThreadId) (c : LibCall) (g : Stage) : Threads :=
  { τ with thread := Function.update τ.thread t (some (c, g)) }

def finish (τ : Threads) (t : ThreadId) (c : LibCall) (result : Option Bool) : Threads :=
  { τ with
    thread := Function.update τ.thread t none
    finished := τ.finished ++ [⟨t, c, result⟩] }

def setConnectList (τ : Threads) (s : SenderId) (l : SenderNodes) : Threads :=
  { τ with connectList := Function.update τ.connectList s l }

def setPossibleSenders (τ : Threads) (r : ReceiverId) (l : ReceiverNodes) : Threads :=
  { τ with possibleSenders := Function.update τ.possibleSenders r l }

def setConnectMutex (τ : Threads) (s : SenderId) (t : Option ThreadId) : Threads :=
  { τ with connectMutex := Function.update τ.connectMutex s t }

def setPossibleMutex (τ : Threads) (r : ReceiverId) (t : Option ThreadId) : Threads :=
  { τ with possibleMutex := Function.update τ.possibleMutex r t }

/-- What comes after the lock of a receiver's list. -/
def afterLock : Option Nat → ReceiverJob
  | none => .pushBack
  | some n => .begin n

/-- What comes after the unlock of a receiver's list. -/
def afterUnlock : Option Nat → Stage
  | none => .unlock true
  | some n => .sender (.next n)

/-- The next step of a thread that is in a call. -/
def goStep (τ : Threads) (t : ThreadId) (c : LibCall) : Stage → Except Stop Threads
  | .lock =>
    match τ.connectMutex c.sender with
    | none => .ok ((τ.setConnectMutex c.sender (some t)).goto t c (.sender c.first))
    | some _ => .error .illegal
  | .sender q =>
    match senderStep c (τ.connectList c.sender) q with
    | .ok (l, g) => .ok ((τ.setConnectList c.sender l).goto t c g)
    | .error u => .error (.fault u)
  | .lockReceiver r iter =>
    match τ.possibleMutex r with
    | none => .ok ((τ.setPossibleMutex r (some t)).goto t c (.receiver r (afterLock iter)))
    | some _ => .error .illegal
  | .receiver r q =>
    match receiverStep c.sender r (τ.possibleSenders r) q with
    | .ok (l, g) => .ok ((τ.setPossibleSenders r l).goto t c g)
    | .error u => .error (.fault u)
  | .unlockReceiver r iter => .ok ((τ.setPossibleMutex r none).goto t c (afterUnlock iter))
  | .unlock retval => .ok ((τ.setConnectMutex c.sender none).finish t c (some retval))

def step (τ : Threads) (x : ThreadId × ThreadEvent) : Except Stop Threads :=
  match τ.thread x.1, x.2 with
  | none, .call c =>
    if c.Live τ.world then
      if c.accepts then .ok (τ.goto x.1 c .lock) else .ok (τ.finish x.1 c none)
    else .error .illegal
  | some (c, g), .go => τ.goStep x.1 c g
  | _, _ => .error .illegal

/-- The connections of a signal, and the possible senders of a slot. -/
def conns (τ : Threads) (s : SenderId) : List ConnectStruct := (τ.connectList s).values

def possible (τ : Threads) (r : ReceiverId) : List SenderId := (τ.possibleSenders r).values

end Threads

end CsSignal
