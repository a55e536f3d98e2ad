-- The list of `cs_rcu_list.h`: its nodes, its zombie stack and its guards, each
-- function as one call. A pointer is a number that is never used twice, and a
-- cell that was freed reads as a fault.
import CsSignal.Lib.LinkedCells

namespace CsSignal

open LinkedCells

/-- What the C++ standard leaves undefined and a run must never meet. -/
inductive Fault
  /-- A node or a zombie entry is used after it was freed, or freed twice. -/
  | freed
  /-- The end iterator is dereferenced. -/
  | nullPointer
  /-- A method or a field of an object is used after its destructor ended. -/
  | destroyed
  /-- A mutex is locked by the thread that holds it. -/
  | relocked
  /-- An exception leaves a destructor, which calls `std::terminate`. -/
  | terminated
  /-- A loop ran longer than its list: no fault of the code, and never met. -/
  | fuel
  deriving DecidableEq, Repr

theorem ok_bind {ε α β : Type} (a : α) (f : α → Except ε β) : (Except.ok a >>= f) = f a := rfl

theorem error_bind {ε α β : Type} (e : ε) (f : α → Except ε β) :
    ((Except.error e : Except ε α) >>= f) = .error e := rfl

theorem bind_ok {ε β γ : Type} {x : Except ε β} {k : β → Except ε γ} {c : γ}
    (h : x >>= k = .ok c) : ∃ b, x = .ok b ∧ k b = .ok c := by
  cases x with
  | error e => cases h
  | ok b => exact ⟨b, rfl, h⟩

theorem mapError_ok {ε ε' β : Type} {x : Except ε β} {g : ε → ε'} {b : β}
    (h : x.mapError g = .ok b) : x = .ok b := by
  cases x with
  | error e => cases h
  | ok b' =>
    cases h
    rfl

/-! ## The nodes -/

/-- The node half of `rcu_list`: `m_head`, `m_tail` and the nodes on the heap. -/
structure NodeList (α : Type) where
  head : Option Nat := none
  tail : Option Nat := none
  node : Heap α := fun _ => none
  /-- The address that the allocator gives next. -/
  nodeCount : Nat := 0

namespace NodeList

variable {α : Type}

/-- Reads through a node pointer. -/
def deref (l : NodeList α) (n : Nat) : Except Fault (Node α) :=
  match l.node n with
  | some c => .ok c
  | none => .error .freed

/-- Writes through a node pointer. -/
def write (l : NodeList α) (n : Nat) (f : Node α → Node α) : Except Fault (NodeList α) :=
  match l.node n with
  | some c => .ok { l with node := Function.update l.node n (some (f c)) }
  | none => .error .freed

def setNext (l : NodeList α) (n : Nat) (v : Option Nat) : Except Fault (NodeList α) :=
  l.write n fun c => { c with next := v }

def setBack (l : NodeList α) (n : Nat) (v : Option Nat) : Except Fault (NodeList α) :=
  l.write n fun c => { c with back := v }

def pushBack (l : NodeList α) (data : α) : Except Fault (NodeList α) := do
  let newNode := l.nodeCount
  let l := { l with
    node := Function.update l.node newNode (some ⟨none, none, false, data⟩)
    nodeCount := newNode + 1 }
  match l.tail with
  | none => .ok { l with head := some newNode, tail := some newNode }
  | some oldTail =>
    let l ← l.setBack newNode (some oldTail)
    let l ← l.setNext oldTail (some newNode)
    .ok { l with tail := some newNode }

def pushFront (l : NodeList α) (data : α) : Except Fault (NodeList α) := do
  let newNode := l.nodeCount
  let l := { l with
    node := Function.update l.node newNode (some ⟨none, none, false, data⟩)
    nodeCount := newNode + 1 }
  match l.head with
  | none => .ok { l with head := some newNode, tail := some newNode }
  | some oldHead =>
    let l ← l.setNext newNode (some oldHead)
    let l ← l.setBack oldHead (some newNode)
    .ok { l with head := some newNode }

/-- What `erase` does before it allocates the zombie entry: the node after
`iter`, whether the node was still in the list, and the list without it. -/
def unlink (l : NodeList α) (iter : Nat) : Except Fault (Option Nat × Bool × NodeList α) := do
  let cur ← l.deref iter
  let oldNext := cur.next
  if cur.deleted then
    .ok (oldNext, false, l)
  else
    let l ← l.write iter fun c => { c with deleted := true }
    let oldPrev := cur.back
    let l ← match oldPrev with
      | some p => l.setNext p oldNext
      | none => .ok { l with head := oldNext }
    let l ← match oldNext with
      | some n => l.setBack n oldPrev
      | none => .ok { l with tail := oldPrev }
    .ok (oldNext, true, l)

/-- The first node from `iter` on whose data has the property. -/
def find (l : NodeList α) (p : α → Bool) : Nat → Option Nat → Except Fault (Option Nat)
  | _, none => .ok none
  | 0, some _ => .error .fuel
  | fuel + 1, some n => do
    let c ← l.deref n
    if p c.data then .ok (some n) else l.find p fuel c.next

/-- The entries of the list, as a walk from the head meets them. -/
def toList (l : NodeList α) : List (Nat × α) := walk l.node l.nodeCount l.head

/-- The values of the list, in order. -/
def values (l : NodeList α) : List α := l.toList.map Prod.snd

end NodeList

/-! ## The zombie stack -/

/-- An entry of the zombie stack: a guard, which has an owner until it unlocks,
or a node that was erased. The code only ever asks whether there is an owner. -/
structure ZombieListNode where
  next : Option Nat
  owner : Bool
  zombieNode : Option Nat

structure RcuList (α : Type) extends NodeList α where
  zombieHead : Option Nat := none
  zombie : Nat → Option ZombieListNode := fun _ => none
  zombieCount : Nat := 0

namespace RcuList

variable {α : Type}

/-- Pushes an entry on the zombie stack. -/
def pushZombie (l : RcuList α) (owner : Bool) (zombieNode : Option Nat) : RcuList α :=
  { l with
    zombie := Function.update l.zombie l.zombieCount (some ⟨l.zombieHead, owner, zombieNode⟩)
    zombieHead := some l.zombieCount
    zombieCount := l.zombieCount + 1 }

/-- `rcu_guard::rcu_read_lock`. The guard keeps the pointer to its entry. -/
def rcuReadLock (l : RcuList α) : Nat × RcuList α :=
  (l.zombieCount, l.pushZombie true none)

def derefZombie (l : RcuList α) (z : Nat) : Except Fault ZombieListNode :=
  match l.zombie z with
  | some e => .ok e
  | none => .error .freed

def writeZombie (l : RcuList α) (z : Nat) (f : ZombieListNode → ZombieListNode) :
    Except Fault (RcuList α) :=
  match l.zombie z with
  | some e => .ok { l with zombie := Function.update l.zombie z (some (f e)) }
  | none => .error .freed

def freeNode (l : RcuList α) (n : Nat) : Except Fault (RcuList α) :=
  match l.node n with
  | some _ => .ok { l with node := Function.update l.node n none }
  | none => .error .freed

def freeZombie (l : RcuList α) (z : Nat) : Except Fault (RcuList α) :=
  match l.zombie z with
  | some _ => .ok { l with zombie := Function.update l.zombie z none }
  | none => .error .freed

/-- Frees the node of a zombie entry, when it has one. -/
def freeZombieNode (l : RcuList α) (e : ZombieListNode) : Except Fault (RcuList α) :=
  match e.zombieNode with
  | some d => l.freeNode d
  | none => .ok l

/-- The first loop of `rcu_guard::unlock`: is no guard among the entries from `n` on? -/
def scanLast (l : RcuList α) : Nat → Option Nat → Except Fault Bool
  | _, none => .ok true
  | 0, some _ => .error .fuel
  | fuel + 1, some n => do
    let e ← l.derefZombie n
    if e.owner then .ok false else l.scanLast fuel e.next

/-- The second loop of `rcu_guard::unlock`: frees the entries from `n` on. -/
def freeFrom : Nat → Option Nat → RcuList α → Except Fault (RcuList α)
  | _, none, l => .ok l
  | 0, some _, _ => .error .fuel
  | fuel + 1, some n, l => do
    let e ← l.derefZombie n
    let l ← l.freeZombieNode e
    let l ← l.freeZombie n
    freeFrom fuel e.next l

/-- `rcu_guard::unlock`, with the entry of the guard. -/
def unlock (l : RcuList α) (m_zombie : Nat) : Except Fault (RcuList α) := do
  let e ← l.derefZombie m_zombie
  let last ← l.scanLast l.zombieCount e.next
  let l ← if last then do
      let l ← freeFrom l.zombieCount e.next l
      l.writeZombie m_zombie fun e => { e with next := none }
    else .ok l
  l.writeZombie m_zombie fun e => { e with owner := false }

def pushBack (l : RcuList α) (data : α) : Except Fault (RcuList α) := do
  let nl ← l.toNodeList.pushBack data
  .ok { l with toNodeList := nl }

def pushFront (l : RcuList α) (data : α) : Except Fault (RcuList α) := do
  let nl ← l.toNodeList.pushFront data
  .ok { l with toNodeList := nl }

/-- `erase`, with the node that follows. A node that was erased before stays as it is. -/
def erase (l : RcuList α) (iter : Nat) : Except Fault (Option Nat × RcuList α) := do
  let (oldNext, erased, nl) ← l.toNodeList.unlink iter
  let l := { l with toNodeList := nl }
  .ok (oldNext, if erased then l.pushZombie false (some iter) else l)

/-- The first loop of `~rcu_list`: frees the nodes from `n` on. -/
def freeNodesFrom : Nat → Option Nat → RcuList α → Except Fault (RcuList α)
  | _, none, l => .ok l
  | 0, some _, _ => .error .fuel
  | fuel + 1, some n, l => do
    let c ← l.deref n
    let l ← l.freeNode n
    freeNodesFrom fuel c.next l

/-- The second loop of `~rcu_list`: frees the entries from `zn` on, up to the
first one that has an owner. -/
def freeUnowned : Nat → Option Nat → RcuList α → Except Fault (RcuList α)
  | _, none, l => .ok l
  | 0, some _, _ => .error .fuel
  | fuel + 1, some zn, l => do
    let e ← l.derefZombie zn
    if e.owner then .ok l
    else
      let l ← l.freeZombieNode e
      let l ← l.freeZombie zn
      freeUnowned fuel e.next l

/-- `~rcu_list`. What the first active guard still needs stays allocated. -/
def destroy (l : RcuList α) : Except Fault (RcuList α) := do
  let l ← freeNodesFrom l.nodeCount l.head l
  freeUnowned l.zombieCount l.zombieHead l

end RcuList

end CsSignal
