-- One list that any number of handles use at the same time, one access to shared
-- memory a step: every load and store of an atomic, every compare-exchange, every
-- call of the mutex and of the allocator. A thread that has several handles open
-- is several handles here, in some of the orders.
import CsSignal.RcuList

namespace CsSignal

open LinkedCells

/-! ## What a handle is doing -/

abbrev Handle := Nat

/-- The loop that pushes an entry on the zombie stack. -/
inductive PushStage
  /-- Before `m_zombie_head.load()`. -/
  | load
  /-- Before the store to `next` of the new entry. -/
  | store (oldNext : Option Nat)
  /-- Before the compare-exchange. -/
  | cas (oldNext : Option Nat)

/-- A call of `push_back` or `erase` in progress, by what it does next. -/
inductive Job
  | none
  /-- Before the load of `m_tail`. -/
  | pushLoad (newNode : Nat)
  /-- Before the store of `m_head`, in an empty list. -/
  | pushHead (newNode : Nat)
  | pushBack (newNode oldTail : Nat)
  | pushNext (newNode oldTail : Nat)
  | pushTail (newNode : Nat)
  /-- Before `deleted` of the node is tested and set. -/
  | eraseTest (current : Nat) (assign : Bool) (oldNext : Option Nat)
  | eraseBack (current : Nat) (assign : Bool) (oldNext : Option Nat)
  | erasePrev (current : Nat) (assign : Bool) (oldNext oldPrev : Option Nat)
  | eraseNext (current : Nat) (assign : Bool) (oldNext oldPrev : Option Nat)
  /-- Before the allocation of the zombie entry. -/
  | eraseAlloc (current : Nat) (assign : Bool) (oldNext : Option Nat)
  | eraseLink (current : Nat) (assign : Bool) (oldNext : Option Nat) (newZombie : Nat)
      (stage : PushStage)

/-- A handle, by what it does next. `z` is the entry of its guard. -/
inductive Phase
  | idle
  | lock (write : Bool) (z : Nat) (stage : PushStage)
  | lockMutex (z : Nat)
  /-- The handle is accessed, and its iterator stands on `iter`. -/
  | active (write : Bool) (z : Nat) (iter : Option Nat) (job : Job)
  | unlockMutex (z : Nat)
  | unlock (z : Nat)
  | scanOwner (z : Nat) (cached_next : Option Nat) (n : Nat)
  | scanNext (z : Nat) (cached_next : Option Nat) (n : Nat)
  | sweepNode (z n : Nat)
  | sweepNext (z n : Nat)
  | sweepFree (z n : Nat) (next : Option Nat)
  | cut (z : Nat)
  | clear (z : Nat)

/-- What user code makes a handle do, or how its next step goes. -/
inductive Event (α : Type)
  | lock (write : Bool)
  | begin
  | read
  | next
  | pushBack (data : α)
  | erase (assign : Bool)
  | unlock
  /-- The next step of the call in progress. -/
  | go
  /-- The compare-exchange, and whether it succeeds. -/
  | swap (success : Bool)

/-! ## The state -/

structure SharedList (α : Type) where
  list : RcuList α := {}
  m_write_mutex : Option Handle := none
  phase : Handle → Phase := fun _ => .idle
  /-- How many entries were pushed; the code has no such thing. -/
  pushes : Nat := 0
  /-- The number of the push of an entry; the code has no such thing. -/
  stamp : Nat → Option Nat := fun _ => none
  /-- The number of the push that retired a node; the code has no such thing. -/
  retired : Nat → Option Nat := fun _ => none

/-- Why a handle can not make a step. -/
inductive Refusal
  /-- It is not its turn, or the mutex is locked. -/
  | illegal
  | fault (u : Fault)
  deriving DecidableEq, Repr

namespace SharedList

variable {α : Type}

def init : SharedList α := {}

def goto (σ : SharedList α) (h : Handle) (p : Phase) : SharedList α :=
  { σ with phase := Function.update σ.phase h p }

/-- An access to memory. -/
def access {β : Type} (r : Except Fault β) : Except Refusal β := r.mapError .fault

/-- Allocates and constructs an entry that is not yet pushed. -/
def allocZombie (σ : SharedList α) (owner : Bool) (zombieNode : Option Nat) : SharedList α :=
  { σ with list := { σ.list with
      zombie := Function.update σ.list.zombie σ.list.zombieCount (some ⟨none, owner, zombieNode⟩)
      zombieCount := σ.list.zombieCount + 1 } }

def allocNode (σ : SharedList α) (data : α) : SharedList α :=
  { σ with list := { σ.list with
      node := Function.update σ.list.node σ.list.nodeCount (some ⟨none, none, false, data⟩)
      nodeCount := σ.list.nodeCount + 1 } }

/-- The list with other nodes. -/
def withNodes (σ : SharedList α) (nl : NodeList α) : SharedList α :=
  { σ with list := { σ.list with toNodeList := nl } }

/-- Can the compare-exchange of the head succeed? It can when the head is the one
expected, or when that one was freed since and the new head is at its address. -/
def CanSwap (σ : SharedList α) (oldNext : Option Nat) : Prop :=
  σ.list.zombieHead = oldNext ∨
    (∃ e ∈ oldNext, (σ.list.zombie e).isNone = true) ∧ σ.list.zombieHead.isSome = true

instance (σ : SharedList α) (oldNext : Option Nat) : Decidable (σ.CanSwap oldNext) :=
  inferInstanceAs (Decidable (_ ∨ _))

/-! ## The steps -/

/-- The push of an entry; `none` says that it is pushed now. -/
def pushEntry (σ : SharedList α) (z : Nat) :
    PushStage → Event α → Except Refusal (SharedList α × Option PushStage)
  | .load, .go => .ok (σ, some (.store σ.list.zombieHead))
  | .store oldNext, .go => do
    let l ← access (σ.list.writeZombie z fun e => { e with next := oldNext })
    .ok ({ σ with list := l }, some (.cas oldNext))
  | .cas oldNext, .swap true =>
    if σ.CanSwap oldNext then do
      -- the pointer stored before is the address of the head now
      let l ← access (σ.list.writeZombie z fun e => { e with next := σ.list.zombieHead })
      .ok ({ σ with
        list := { l with zombieHead := some z }
        stamp := Function.update σ.stamp z (some σ.pushes)
        pushes := σ.pushes + 1 }, none)
    else .error .illegal
  | .cas _, .swap false => .ok (σ, some (.store σ.list.zombieHead))
  | _, _ => .error .illegal

/-- `rcu_read_lock`, and `rcu_write_lock` up to the mutex. -/
def lockStep (σ : SharedList α) (h : Handle) (write : Bool) (z : Nat) (stage : PushStage)
    (e : Event α) : Except Refusal (SharedList α) := do
  let (σ, stage) ← σ.pushEntry z stage e
  match stage with
  | some stage => .ok (σ.goto h (.lock write z stage))
  | none => .ok (σ.goto h (if write then .lockMutex z else .active false z none .none))

/-- The next step of `push_back` or of `erase`. -/
def jobStep (σ : SharedList α) (h : Handle) (z : Nat) (iter : Option Nat) (job : Job)
    (e : Event α) : Except Refusal (SharedList α) :=
  let nl := σ.list.toNodeList
  let stay (σ : SharedList α) (job : Job) := σ.goto h (.active true z iter job)
  match job, e with
  | .pushLoad newNode, .go =>
    match nl.tail with
    | none => .ok (stay σ (.pushHead newNode))
    | some oldTail => .ok (stay σ (.pushBack newNode oldTail))
  | .pushHead newNode, .go =>
    .ok (stay (σ.withNodes { nl with head := some newNode }) (.pushTail newNode))
  | .pushBack newNode oldTail, .go => do
    let nl ← access (nl.setBack newNode (some oldTail))
    .ok (stay (σ.withNodes nl) (.pushNext newNode oldTail))
  | .pushNext newNode oldTail, .go => do
    let nl ← access (nl.setNext oldTail (some newNode))
    .ok (stay (σ.withNodes nl) (.pushTail newNode))
  | .pushTail newNode, .go => .ok (stay (σ.withNodes { nl with tail := some newNode }) .none)
  | .eraseTest current assign oldNext, .go => do
    let c ← access (nl.deref current)
    if c.deleted then
      .ok (σ.goto h (.active true z (if assign then oldNext else iter) .none))
    else
      let nl ← access (nl.write current fun c => { c with deleted := true })
      .ok (stay (σ.withNodes nl) (.eraseBack current assign oldNext))
  | .eraseBack current assign oldNext, .go => do
    let c ← access (nl.deref current)
    .ok (stay σ (.erasePrev current assign oldNext c.back))
  | .erasePrev current assign oldNext oldPrev, .go => do
    let nl ← match oldPrev with
      | some p => access (nl.setNext p oldNext)
      | none => .ok { nl with head := oldNext }
    .ok (stay (σ.withNodes nl) (.eraseNext current assign oldNext oldPrev))
  | .eraseNext current assign oldNext oldPrev, .go => do
    let nl ← match oldNext with
      | some n => access (nl.setBack n oldPrev)
      | none => .ok { nl with tail := oldPrev }
    .ok (stay (σ.withNodes nl) (.eraseAlloc current assign oldNext))
  | .eraseAlloc current assign oldNext, .go =>
    .ok (stay (σ.allocZombie false (some current))
      (.eraseLink current assign oldNext σ.list.zombieCount .load))
  | .eraseLink current assign oldNext newZombie stage, e => do
    let (σ', stage) ← σ.pushEntry newZombie stage e
    match stage with
    | some stage => .ok (σ'.goto h (.active true z iter (.eraseLink current assign oldNext newZombie stage)))
    | none => .ok ({ σ' with retired := Function.update σ'.retired current (some σ.pushes) }.goto h
        (.active true z (if assign then oldNext else iter) .none))
  | _, _ => .error .illegal

/-- What a handle that is accessed can begin to do. -/
def activeStep (σ : SharedList α) (h : Handle) (write : Bool) (z : Nat) (iter : Option Nat) :
    Event α → Except Refusal (SharedList α)
  | .begin => .ok (σ.goto h (.active write z σ.list.head .none))
  | .read =>
    match iter with
    | some n => do
      let _ ← access (σ.list.deref n)
      .ok σ
    | none => .error .illegal
  | .next =>
    match iter with
    | some n => do
      let c ← access (σ.list.deref n)
      .ok (σ.goto h (.active write z c.next .none))
    | none => .error .illegal
  | .pushBack data =>
    if write then
      .ok ((σ.allocNode data).goto h (.active true z iter (.pushLoad σ.list.nodeCount)))
    else .error .illegal
  | .erase assign =>
    match iter, write with
    | some n, true => do
      let c ← access (σ.list.deref n)
      .ok (σ.goto h (.active true z iter (.eraseTest n assign c.next)))
    | _, _ => .error .illegal
  | .unlock => .ok (σ.goto h (if write then .unlockMutex z else .unlock z))
  | _ => .error .illegal

/-- The loop of `unlock` that frees, at the entry `n` or at its end. -/
def sweepAt (z : Nat) : Option Nat → Phase
  | some n => .sweepNode z n
  | none => .cut z

/-- The loop of `unlock` that looks for a guard, at the entry `n` or at its end. -/
def scanAt (z : Nat) (cached_next : Option Nat) : Option Nat → Phase
  | some n => .scanOwner z cached_next n
  | none => sweepAt z cached_next

/-- The next step of a handle. -/
def step (σ : SharedList α) (x : Handle × Event α) : Except Refusal (SharedList α) :=
  let (h, e) := x
  match σ.phase h, e with
  | .idle, .lock write =>
    .ok ((σ.allocZombie true none).goto h (.lock write σ.list.zombieCount .load))
  | .lock write z stage, e => σ.lockStep h write z stage e
  | .lockMutex z, .go =>
    match σ.m_write_mutex with
    | none => .ok ({ σ with m_write_mutex := some h }.goto h (.active true z none .none))
    | some _ => .error .illegal
  | .active write z iter .none, e => σ.activeStep h write z iter e
  | .active _ z iter job, e => σ.jobStep h z iter job e
  | .unlockMutex z, .go => .ok ({ σ with m_write_mutex := none }.goto h (.unlock z))
  | .unlock z, .go => do
    let c ← access (σ.list.derefZombie z)
    .ok (σ.goto h (scanAt z c.next c.next))
  | .scanOwner z cached_next n, .go => do
    let c ← access (σ.list.derefZombie n)
    .ok (σ.goto h (if c.owner then .clear z else .scanNext z cached_next n))
  | .scanNext z cached_next n, .go => do
    let c ← access (σ.list.derefZombie n)
    .ok (σ.goto h (scanAt z cached_next c.next))
  | .sweepNode z n, .go => do
    let c ← access (σ.list.derefZombie n)
    let l ← access (σ.list.freeZombieNode c)
    .ok ({ σ with list := l }.goto h (.sweepNext z n))
  | .sweepNext z n, .go => do
    let c ← access (σ.list.derefZombie n)
    .ok (σ.goto h (.sweepFree z n c.next))
  | .sweepFree z n next, .go => do
    let l ← access (σ.list.freeZombie n)
    .ok ({ σ with list := l }.goto h (sweepAt z next))
  | .cut z, .go => do
    let l ← access (σ.list.writeZombie z fun e => { e with next := none })
    .ok ({ σ with list := l }.goto h (.clear z))
  | .clear z, .go => do
    let l ← access (σ.list.writeZombie z fun e => { e with owner := false })
    .ok ({ σ with list := l }.goto h .idle)
  | _, _ => .error .illegal

/-! ## What the steps are -/

theorem step_idle {σ : SharedList α} {h : Handle} {write : Bool} (hp : σ.phase h = .idle) :
    σ.step (h, .lock write) =
      .ok ((σ.allocZombie true none).goto h (.lock write σ.list.zombieCount .load)) := by
  simp only [step, hp]

theorem jobStep_eraseLink {σ : SharedList α} {h : Handle} {z current newZombie : Nat}
    {iter oldNext : Option Nat} {assign : Bool} {stage : PushStage} (e : Event α) :
    σ.jobStep h z iter (.eraseLink current assign oldNext newZombie stage) e = (do
      let (σ', stage) ← σ.pushEntry newZombie stage e
      match stage with
      | some stage => .ok (σ'.goto h
          (.active true z iter (.eraseLink current assign oldNext newZombie stage)))
      | none => .ok ({ σ' with retired := Function.update σ'.retired current (some σ.pushes) }.goto h
          (.active true z (if assign then oldNext else iter) .none))) := by
  cases e <;> simp only [jobStep]

end SharedList

end CsSignal
