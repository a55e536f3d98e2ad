-- A queued connection beside a direct one. The direct slot runs in `activate`, with
-- the callable and the data that it finds there; the queued one runs from a
-- `PendingSlot`, with a copy of the callable and a copy of the data.
import CsSignal.DataPack
import CsSignal.Context

namespace CsSignal

variable {V G : Type} {n : Nat}

/-! ## The callable of a connection -/

/-- A `Bento` of a slot, with the state that a lambda has captured. -/
inductive Callable (G : Type)
  | function (ptr : Nat)
  | method (ptr : Nat)
  | lambda (captured : G)
  | mutableLambda (captured : G)
  deriving DecidableEq, Repr

namespace Callable

/-- `clone`: another `Bento` with the same contents. -/
def clone : Callable G → Callable G
  | function p => function p
  | method p => method p
  | lambda g => lambda g
  | mutableLambda g => mutableLambda g

/-- What a call leaves of the callable; `effect` is what the body of a mutable
lambda does to the captured state. -/
def called (effect : G → List (Option (Content V)) → G) (args : List (Option (Content V))) :
    Callable G → Callable G
  | mutableLambda g => mutableLambda (effect g args)
  | b => b

theorem clone_eq (b : Callable G) : b.clone = b := by
  cases b <;> rfl

end Callable

/-! ## The emissions -/

/-- When the slot of a queued connection runs: in the default `queueSlot`, or
later, in a thread with its own current sender, beside changed objects. -/
inductive Moment (V : Type)
  | inQueueSlot
  | later (current : Option SenderId) (st : Store V)

/-- An emission: its arguments, and the objects at its begin and at the turn of
the connection. -/
structure Occasion (S : Signature n V) where
  args : Fin n → Argument V
  passes : ∀ i, (args i).passing = (S.types i).passing
  lvalues : ∀ i, (args i).rvalue = false
  atStart : Store V
  atTurn : Store V
  moment : Moment V

/-- A connection of a signal. -/
structure Link (n : Nat) (V G : Type) where
  sender : SenderId
  receiver : ReceiverId
  signature : Signature n V
  /-- The number of parameters of the slot. -/
  takes : Nat
  invokes : signature.Invokes takes
  effect : G → List (Option (Content V)) → G
  packOrder : Order n
  queuedOrder : Order n

/-- What can be seen of a call of a slot. -/
structure SlotRun (V G : Type) where
  receiver : ReceiverId
  slot : Callable G
  args : List (Option (Content V))
  /-- The result of `sender()` inside the slot. -/
  sender : Option SenderId
  deriving DecidableEq

section

variable {S : Signature n V}

/-- The objects when the pending slot runs. -/
def Occasion.objects (t : Occasion S) : Store V :=
  match t.moment with
  | .inQueueSlot => t.atTurn
  | .later _ st => st

/-- The current sender of the thread that runs the pending slot; `activate` has
set that of its own thread. -/
def Occasion.current (t : Occasion S) (sender : SenderId) : Option SenderId :=
  match t.moment with
  | .inQueueSlot => some sender
  | .later current _ => current

end

namespace Link

variable (L : Link n V G)

/-- The data pack of an emission. -/
def dataPack (t : Occasion L.signature) : TeaCupData n V :=
  (TeaCupData.make false t.args L.packOrder t.atStart).1

/-- The data of the `PendingSlot`. -/
def teaCup (t : Occasion L.signature) : TeaCupData n V :=
  (TeaCupData.make true t.args L.queuedOrder t.atTurn).1

end Link

/-- While a slot is called directly, and while `queueSlot` is called, the current
sender of the thread is the sender. -/
theorem sender_in_slot {allocs : Option Nat} {as : List Action} {σ : State} {f : Frame}
    {rest : List Frame} (hr : run (State.start allocs) as = .ok σ)
    (hm : Runs.Meets step Unbroken (State.start allocs) as) (hst : σ.stack = f :: rest)
    (hslot : f.call.isSlot = true) :
    σ.threadLocal_currentSender = some f.activation.sender := by
  have h := (contexts_start allocs).run hm hr
  obtain ⟨hcells, _⟩ : Nested _ (f :: rest) σ.cells := hst ▸ h.nested
  rw [Frame.cells_own fun hc => by rw [hc] at hslot; cases hslot] at hcells
  exact congrArg Prod.fst hcells

/-! ## Where the two agree -/

/-- What the classes make of the `T` of an argument. -/
def Link.passed (L : Link n V G) (a : Argument V) (st : Store V) : Option (Content V) :=
  L.signature.through L.takes (some ((st a.object).map a.made))

/-- The two slots of an emission see the same: a by-value argument is passed on as the same
value before and after, a reference binds to its argument, which is no more than the `T`
that is copied from it, and the thread that runs the pending slot is in an activation
of the sender. -/
structure Occasion.Agrees (L : Link n V G) (t : Occasion L.signature) : Prop where
  unchanged : ∀ i : Fin n, i.val < L.takes → (t.args i).passing = .byValue →
    L.passed (t.args i) t.atTurn = L.passed (t.args i) t.atStart
  binds : ∀ i : Fin n, i.val < L.takes → (t.args i).passing = .constRef →
    (t.args i).binds = true ∧
      (t.atTurn (t.args i).object).map (t.args i).made = t.atTurn (t.args i).object
  sender : t.current L.sender = some L.sender

/-- The arguments as they are when the loop comes to the connection. -/
def Occasion.arguments (L : Link n V G) (t : Occasion L.signature) : List (Option (Content V)) :=
  ((List.finRange n).take L.takes).map fun i => L.passed (t.args i) t.atTurn

theorem initAll_lvalues {args : Fin n → Argument V} (h : ∀ i, (args i).rvalue = false)
    (is : List (Fin n)) (st : Store V) : initAll args is st = st := by
  funext o
  rw [initAll_apply, if_neg]
  rintro ⟨j, _, hc, _⟩
  simp [Argument.consumes, h j] at hc

/-- The copy has the arguments, whenever it is read. -/
theorem Occasion.queued_args (L : Link n V G) (t : Occasion L.signature) :
    L.signature.callArgs (L.teaCup t) t.objects L.takes = t.arguments L := by
  unfold Signature.callArgs Occasion.arguments Link.teaCup Link.passed
  refine List.map_congr_left fun i _ => congrArg _ ?_
  have h := initAll_lvalues t.lvalues L.queuedOrder.list t.atTurn
  have hread := TeaCupData.read_copied t.args L.queuedOrder t.atTurn t.objects i L.queuedOrder
  rwa [h] at hread

/-- The data pack has them where nothing was changed, no temporary was made and nothing is
lost in a copy. -/
theorem Occasion.direct_args (L : Link n V G) (t : Occasion L.signature) :
    L.signature.callArgs (L.dataPack t) t.atTurn L.takes = t.arguments L ↔
      (∀ i : Fin n, i.val < L.takes → (t.args i).passing = .byValue →
        L.passed (t.args i) t.atTurn = L.passed (t.args i) t.atStart) ∧
      ∀ i : Fin n, i.val < L.takes → (t.args i).passing = .constRef →
        (t.args i).binds = true ∧
          (t.atTurn (t.args i).object).map (t.args i).made = t.atTurn (t.args i).object := by
  unfold Signature.callArgs Occasion.arguments Link.dataPack
  rw [List.map_inj_left, ← forall_and]
  refine forall_congr' fun i => ?_
  rw [mem_take_finRange, ← imp_and]
  refine imp_congr_right fun hi => ?_
  rw [TeaCupData.read_shared, initAll_lvalues t.lvalues]
  cases hp : (t.args i).passing with
  | byValue => exact ⟨fun h => ⟨fun _ => h.symm, fun h => nomatch h⟩, fun h => (h.1 rfl).symm⟩
  | constRef =>
    have hthrough := Signature.through_constRef (t.passes i ▸ hp) hi
    rw [Link.passed, hthrough, hthrough]
    cases hb : (t.args i).binds with
    | false => simp
    | true => simpa using eq_comm

/-- The two calls of one emission are the same. -/
theorem Occasion.agrees_iff (L : Link n V G) (t : Occasion L.signature) (b : Callable G) :
    (⟨L.receiver, b.clone, L.signature.callArgs (L.teaCup t) t.objects L.takes,
        t.current L.sender⟩ : SlotRun V G) =
      ⟨L.receiver, b, L.signature.callArgs (L.dataPack t) t.atTurn L.takes, some L.sender⟩ ↔
        t.Agrees L := by
  rw [SlotRun.mk.injEq, t.queued_args, Callable.clone_eq]
  constructor
  · rintro ⟨_, _, hargs, hsender⟩
    obtain ⟨h1, h2⟩ := (t.direct_args L).mp hargs.symm
    exact ⟨h1, h2, hsender⟩
  · intro h
    exact ⟨rfl, rfl, ((t.direct_args L).mpr ⟨h.unchanged, h.binds⟩).symm, h.sender⟩

section

variable (L : Link n V G) (b : Callable G) (t : Occasion L.signature)
  (ts : List (Occasion L.signature))

end

end CsSignal
