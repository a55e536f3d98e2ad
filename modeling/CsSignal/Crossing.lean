-- Two threads, of which one destroys a slot while the other emits a signal that is
-- connected to it, disconnects that signal, or destroys it. A step is one call of a
-- mutex, one step of an iterator, one change of a list, or one call of a method of
-- the slot. What `activate` does with `beingDestroyed` meets no other thread here.
import CsSignal.Locked
import CsSignal.Activate
import CsSignal.Lib.Paths

namespace CsSignal

open LinkedCells Calls

abbrev firstThread : ThreadId := 0

abbrev secondThread : ThreadId := 1

/-! ## The loop of a destructor -/

/-- What a destructor does next. Its iterator stands on `item`, which names `peer`;
`iter` is the iterator in the list of the peer. -/
inductive Sweep
  | begin
  | visit (item : Option Nat)
  | lock (item peer : Nat)
  | first (item peer : Nat)
  | scan (item peer : Nat) (iter : Option Nat)
  | erase (item peer iter : Nat)
  | unlock (item peer : Nat)
  | next (item : Nat)
  /-- The end of the guard of its own list. -/
  | finish
  | done
  deriving DecidableEq

/-- The lists of the peers, and the threads that hold their mutexes. -/
structure Peers (β : Type) where
  list : Nat → NodeList β
  mutex : Nat → Option ThreadId

/-- What a destructor looks for: the peer that an item names, and the entries of the
peer that name the object. -/
structure Cleanup (α β : Type) where
  thread : ThreadId
  peer : α → Nat
  mine : β → Bool

/-- Does the item name the object? -/
def Cleanup.wants {α β : Type} (d : Cleanup α β) (target : Nat) (item : α) : Bool :=
  d.peer item == target

/-- `~SlotBase`, which the second thread runs. -/
def slotBase (r : ReceiverId) : Cleanup SenderId ConnectStruct where
  thread := secondThread
  peer s := s
  mine c := c.receiver == r

/-- `~SignalBase`, which the first thread runs. -/
def signalBase (s : SenderId) : Cleanup ConnectStruct SenderId where
  thread := firstThread
  peer c := c.receiver
  mine s' := s' == s

def Sweep.step {α β : Type} (d : Cleanup α β) (own : NodeList α) (ps : Peers β) :
    Sweep → Except Stop (Peers β × Sweep)
  | .begin => .ok (ps, .visit own.head)
  | .visit none => .ok (ps, .finish)
  | .visit (some n) =>
    match own.deref n with
    | .ok item => .ok (ps, .lock n (d.peer item.data))
    | .error u => .error (.fault u)
  | .lock n p =>
    match ps.mutex p with
    | none => .ok ({ ps with mutex := Function.update ps.mutex p (some d.thread) }, .first n p)
    | some _ => .error .illegal
  | .first n p => .ok (ps, .scan n p (ps.list p).head)
  | .scan n p none => .ok (ps, .unlock n p)
  | .scan n p (some k) =>
    match (ps.list p).deref k with
    | .ok iter => .ok (ps, if d.mine iter.data then .erase n p k else .scan n p iter.next)
    | .error u => .error (.fault u)
  | .erase n p k =>
    match (ps.list p).unlink k with
    | .ok (oldNext, _, l) =>
      .ok ({ ps with list := Function.update ps.list p l }, .scan n p oldNext)
    | .error u => .error (.fault u)
  | .unlock n p => .ok ({ ps with mutex := Function.update ps.mutex p none }, .next n)
  | .next n =>
    match own.deref n with
    | .ok item => .ok (ps, .visit item.next)
    | .error u => .error (.fault u)
  | .finish => .ok (ps, .done)
  | .done => .error .illegal

/-- The peer that the next step uses. -/
def Sweep.hand : Sweep → Option Nat
  | .lock _ p => some p
  | .first _ p => some p
  | .scan _ p _ => some p
  | .erase _ p _ => some p
  | .unlock _ p => some p
  | _ => none

/-! ## The loop of `activate` -/

/-- What `activate` does next; its iterator stands on `connection`. -/
inductive Emit
  | begin
  | visit (connection : Option Nat)
  | compareThreads (connection : Nat) (receiver : ReceiverId)
  | call (connection : Nat) (receiver : ReceiverId) (call : CallKind)
  | next (connection : Nat)
  | done
  deriving DecidableEq

/-- One step of `activate`, when `compareThreads` returns `receiverInSameThread`. -/
def Emit.step (signal : Bento) (l : SenderNodes) (receiverInSameThread : Bool) :
    Emit → Except Stop Emit
  | .begin => .ok (.visit l.head)
  | .visit none => .ok .done
  | .visit (some n) =>
    match l.deref n with
    | .ok connection =>
      .ok (if connection.data.signalMethod.eq signal then
        .compareThreads n connection.data.receiver else .next n)
    | .error u => .error (.fault u)
  | .compareThreads n r =>
    match l.deref n with
    | .ok connection => .ok (.call n r (State.callFor connection.data.type receiverInSameThread))
    | .error u => .error (.fault u)
  | .call n _ _ => .ok (.next n)
  | .next n =>
    match l.deref n with
    | .ok connection => .ok (.visit connection.next)
    | .error u => .error (.fault u)
  | .done => .error .illegal

/-- The receiver that the next step uses. -/
def Emit.hand : Emit → Option ReceiverId
  | .compareThreads _ r => some r
  | .call _ r _ => some r
  | _ => none

/-- The receiver whose list or handle the next step of `internal_disconnect` uses. -/
def Stage.hand : Stage → Option ReceiverId
  | .lockReceiver r _ => some r
  | .receiver r _ => some r
  | .unlockReceiver r _ => some r
  | _ => none

/-- The receiver whose handle the call has in use, or will use next. -/
def Stage.holds : Stage → Option ReceiverId
  | .lockReceiver r _ => some r
  | g => g.held

/-! ## The machine -/

/-- What the first thread does with the signal. -/
inductive SenderCall
  | emit (signal : Bento)
  | disconnect
  | destroy

/-- How far the first thread is. The stage of `internal_disconnect` is the one of
the thread in `Threads`. -/
inductive SenderWork
  | emit (signal : Bento) (g : Emit)
  | disconnect
  | destroy (w : Sweep)
  deriving DecidableEq

structure Crossing extends Threads where
  work : SenderWork
  /-- `~SlotBase` in the second thread. -/
  second : Sweep := .begin

inductive CrossingEvent
  /-- A step of the first thread; `compareThreads` returns the value. -/
  | first (receiverInSameThread : Bool)
  | second

/-- The call that disconnects all connections of a signal. -/
abbrev disconnectAll (s : SenderId) : LibCall := .disconnect ⟨s, none, none, none⟩

namespace Crossing

def start (w : World) (s : SenderId) : SenderCall → Crossing
  | .emit signal => { Threads.start w with work := .emit signal .begin }
  | .disconnect =>
    { (Threads.start w).goto firstThread (disconnectAll s) .lock with work := .disconnect }
  | .destroy => { Threads.start w with work := .destroy .begin }

/-- The next step of `internal_disconnect`, when it has one. -/
def stage (c : Crossing) : Option Stage := (c.thread firstThread).map Prod.snd

/-- The receiver that the next step of the first thread uses. -/
def hand (c : Crossing) : Option ReceiverId :=
  match c.work with
  | .emit _ g => g.hand
  | .disconnect => c.stage.bind Stage.hand
  | .destroy w => w.hand

def firstStep (s : SenderId) (c : Crossing) (receiverInSameThread : Bool) :
    Except Stop Crossing :=
  match c.work with
  | .emit signal g =>
    match g.step signal (c.connectList s) receiverInSameThread with
    | .ok g => .ok { c with work := .emit signal g }
    | .error e => .error e
  | .disconnect =>
    match c.thread firstThread with
    | some (call, g) =>
      match c.goStep firstThread call g with
      | .ok τ => .ok { c with toThreads := τ }
      | .error e => .error e
    | none => .error .illegal
  | .destroy w =>
    match w.step (signalBase s) (c.connectList s) ⟨c.possibleSenders, c.possibleMutex⟩ with
    | .ok (ps, w) =>
      .ok { c with possibleSenders := ps.list, possibleMutex := ps.mutex, work := .destroy w }
    | .error e => .error e

def secondStep (r : ReceiverId) (c : Crossing) : Except Stop Crossing :=
  match c.second.step (slotBase r) (c.possibleSenders r) ⟨c.connectList, c.connectMutex⟩ with
  | .ok (ps, w) => .ok { c with connectList := ps.list, connectMutex := ps.mutex, second := w }
  | .error e => .error e

/-- One step of one of the threads. An access to an object is a fault when its
destructor has ended. -/
def step (s : SenderId) (r : ReceiverId) (c : Crossing) : CrossingEvent → Except Stop Crossing
  | .first b =>
    if c.hand = some r ∧ c.second = .done then .error (.fault .destroyed) else c.firstStep s b
  | .second =>
    if c.second.hand = some s ∧ c.work = .destroy .done then .error (.fault .destroyed)
    else c.secondStep r

end Crossing

/-! ## What is still to come -/

/-- Where an iterator stands. -/
inductive Place
  | before
  | on (iter : Option Nat)
  | past (iter : Nat)
  | ended

def Sweep.place : Sweep → Place
  | .begin => .before
  | .visit item => .on item
  | .lock n _ => .past n
  | .first n _ => .past n
  | .scan n _ _ => .past n
  | .erase n _ _ => .past n
  | .unlock n _ => .past n
  | .next n => .past n
  | .finish => .ended
  | .done => .ended

def Emit.place : Emit → Place
  | .begin => .before
  | .visit connection => .on connection
  | .compareThreads n _ => .past n
  | .call n _ _ => .past n
  | .next n => .past n
  | .done => .ended

def Stage.place : Stage → Place
  | .lock => .before
  | .sender .begin => .before
  | .sender (.visit iter _) => .on iter
  | .sender (.erase n _) => .past n
  | .sender (.next n) => .past n
  | .lockReceiver _ (some n) => .past n
  | .receiver _ (.begin n) => .past n
  | .receiver _ (.find n _) => .past n
  | .receiver _ (.erase n _) => .past n
  | .unlockReceiver _ (some n) => .past n
  | _ => .ended

/-- Will an iterator that stands there meet an entry with the property? Before it
starts, the list is what it will see. -/
def Place.Meets {α : Type} (l : NodeList α) (want : α → Bool) : Place → Prop
  | .before => ∃ x ∈ l.toList, want x.2 = true
  | .on iter => Ahead l.node iter want
  | .past n => ∃ c, l.node n = some c ∧ Ahead l.node c.next want
  | .ended => False

/-- The connections on which the first thread turns to the receiver. -/
def SenderWork.wants (r : ReceiverId) : SenderWork → ConnectStruct → Bool
  | .emit signal _, connection => connection.signalMethod.eq signal && connection.receiver == r
  | _, connection => connection.receiver == r

namespace Crossing

/-- Where the first thread is in the connections of the signal. -/
def place (c : Crossing) : Place :=
  match c.work with
  | .emit _ g => g.place
  | .disconnect => (c.stage.map Stage.place).getD .ended
  | .destroy w => w.place

/-- The receiver that the first thread is at. -/
def holds (c : Crossing) : Option ReceiverId :=
  match c.work with
  | .emit _ g => g.hand
  | .disconnect => c.stage.bind Stage.holds
  | .destroy w => w.hand

/-- The first thread is at the receiver, or its iterator leads to a connection that
takes it there. -/
def HoldsReceiver (s : SenderId) (r : ReceiverId) (c : Crossing) : Prop :=
  c.holds = some r ∨ c.place ≠ .before ∧ c.place.Meets (c.connectList s) (c.work.wants r)

/-- The second thread is at the signal, or its iterator leads there. -/
def HoldsSender (s : SenderId) (r : ReceiverId) (c : Crossing) : Prop :=
  c.second.hand = some s ∨
    c.second.place ≠ .before ∧ c.second.place.Meets (c.possibleSenders r) ((slotBase r).wants s)

/-- No destructor ends while the other thread holds its object. -/
def Apart (s : SenderId) (r : ReceiverId) (c : Crossing) : CrossingEvent → Prop
  | .first _ => c.work = .destroy .finish → ¬ c.HoldsSender s r
  | .second => c.second = .finish → ¬ c.HoldsReceiver s r

end Crossing

end CsSignal
