-- The arguments of an emission. `activate` forwards the same arguments into its
-- data pack, and again for every queued or blocking connection; a forward may take
-- the value out of the argument.
import CsSignal.Activate
import CsSignal.LeadingArguments

namespace CsSignal

variable {V : Type} {n : Nat}

/-! ## Arguments -/

/-- What an object holds. -/
inductive Content (V : Type)
  | value (v : V)
  | movedFrom
  deriving DecidableEq, Repr

/-- What another object holds that is made from one. -/
def Content.map (f : V → V) : Content V → Content V
  | .value v => .value (f v)
  | .movedFrom => .movedFrom

/-- The objects that arguments refer to. -/
abbrev Store (V : Type) := Nat → Content V

/-- How the signal declares a parameter: as `T`, or as `const T &`. -/
inductive Passing
  | byValue
  | constRef
  deriving DecidableEq, Repr

def Ty.passing : Ty → Passing
  | .ref _ => .constRef
  | _ => .byValue

/-- An argument of `activate`, with the parameter of the signal that it is for. -/
structure Argument (V : Type) where
  passing : Passing
  /-- Two arguments may be the same object. -/
  object : Nat
  rvalue : Bool
  /-- Is the value gone from an rvalue of this type once a `T` was made from it? -/
  moves : Bool
  /-- Does a `const T &` bind to the object itself? Otherwise a `T` is made for it. -/
  binds : Bool
  /-- The value of a `T` that is made from the object: it may be of another type, and a
  `const T &` may bind to an object of a class that is derived from `T`. -/
  made : V → V

/-- A parameter of the constructor of `TeaCup_Data`. -/
inductive CtorParam (V : Type)
  | value (c : Content V)
  | object (object : Nat)
  /-- A reference to an object that is made for the call of the constructor. -/
  | temporary (c : Content V)

namespace Argument

/-- The objects after `std::forward` was used to make a `T`. -/
def forwarded (a : Argument V) (st : Store V) : Store V :=
  if a.rvalue && a.moves then Function.update st a.object .movedFrom else st

/-- The initialization of a parameter by `std::forward<Ts>(Vs)`. -/
def init (a : Argument V) (st : Store V) : CtorParam V × Store V :=
  match a.passing, a.binds with
  | .byValue, _ => (.value ((st a.object).map a.made), a.forwarded st)
  | .constRef, true => (.object a.object, st)
  | .constRef, false => (.temporary ((st a.object).map a.made), a.forwarded st)

/-- What the slot should see of the object: the object itself, or the `T` that is made of it. -/
def seen (a : Argument V) (v : V) : V :=
  match a.passing, a.binds with
  | .constRef, true => v
  | _, _ => a.made v

/-- Does a forward take the value out of the argument? -/
def consumes (a : Argument V) : Bool :=
  a.rvalue && a.moves && (a.passing == .byValue || !a.binds)

theorem init_store (a : Argument V) (st : Store V) :
    (a.init st).2 = if a.consumes then Function.update st a.object .movedFrom else st := by
  unfold init consumes forwarded
  cases a.passing <;> cases a.binds <;> simp

end Argument

/-- The `T` that is copied from a parameter, inside the constructor. -/
def CtorParam.copy (made : V → V) (st : Store V) : CtorParam V → Content V
  | .value c => c
  | .object o => (st o).map made
  | .temporary c => c

theorem Argument.init_copy (a : Argument V) (st : Store V) :
    (a.init st).1.copy a.made st = (st a.object).map a.made := by
  unfold Argument.init
  split <;> rfl

/-- The order in which the parameters of a call are initialized; the language
leaves it to the compiler. -/
structure Order (n : Nat) where
  list : List (Fin n)
  nodup : list.Nodup
  all : ∀ i, i ∈ list

/-- The parameters that are initialized before one of them. -/
def Order.before (order : Order n) (i : Fin n) : List (Fin n) := order.list.takeWhile (· ≠ i)

/-- The objects after some of the parameters were initialized. -/
def initAll (args : Fin n → Argument V) (is : List (Fin n)) (st : Store V) : Store V :=
  is.foldl (fun st i => ((args i).init st).2) st

/-! ## The data of a signal -/

/-- A member of the tuple `m_data`. -/
inductive Member (n : Nat) (V : Type)
  | own (c : Content V)
  | object (object : Nat)
  /-- A reference to an object that is gone. -/
  | temporary
  /-- A reference into `m_copyOfData`. -/
  | copyOfData (i : Fin n)
  deriving DecidableEq, Repr

/-- `TeaCup_Data<Ts...>`. -/
structure TeaCupData (n : Nat) (V : Type) where
  m_copyOfData : Option (Fin n → Content V)
  m_data : Fin n → Member n V

namespace TeaCupData

/-- The member of `std::tuple<Ts...> (Vs...)` that a parameter makes, as it is
after the call of the constructor. -/
def ofParam : CtorParam V → Member n V
  | .value c => .own c
  | .object o => .object o
  | .temporary _ => .temporary

/-- The member that `convert_tuple` makes from the copy. -/
def ofCopy (passing : Passing) (copy : Fin n → Content V) (i : Fin n) : Member n V :=
  match passing with
  | .byValue => .own (copy i)
  | .constRef => .copyOfData i

/-- `TeaCup_Data(needs_copying, std::forward<Ts>(Vs)...)`, and what it leaves of
the objects. -/
def make (needs_copying : Bool) (args : Fin n → Argument V) (order : Order n) (st : Store V) :
    TeaCupData n V × Store V :=
  let Vs := fun i => ((args i).init (initAll args (order.before i) st)).1
  let st' := initAll args order.list st
  if needs_copying then
    let copy := fun i => (Vs i).copy (args i).made st'
    (⟨some copy, fun i => ofCopy (args i).passing copy i⟩, st')
  else (⟨none, fun i => ofParam (Vs i)⟩, st')

/-- What a member refers to, if it is there. -/
def deref (d : TeaCupData n V) (st : Store V) : Member n V → Option (Content V)
  | .own c => some c
  | .object o => some (st o)
  | .temporary => none
  | .copyOfData i => d.m_copyOfData.map fun copy => copy i

def read (d : TeaCupData n V) (st : Store V) (i : Fin n) : Option (Content V) :=
  d.deref st (d.m_data i)

end TeaCupData

/-! ## The classes of the data -/

/-- The parameters of a signal; the class for its data can be compiled. -/
structure Signature (n : Nat) (V : Type) where
  types : Fin n → Ty
  rules : TupleRules (Option (Content V))
  wellFormed : TeaCup.WellFormed rules (List.ofFn types)

namespace Signature

variable (S : Signature n V)

/-- What a slot with so many parameters is called with; `none` when the cast is null. -/
def received (d : TeaCupData n V) (st : Store V) (takes : Nat) :
    Option (List (Option (Content V))) :=
  (teaCupData S.rules (List.ofFn S.types) ((List.finRange n).map (d.read st))).bind fun dataPack =>
    dataPack.slotArgs S.rules ((List.ofFn S.types).take takes)

/-- A slot with so many parameters can be connected, and its call can be compiled. -/
structure Invokes (takes : Nat) : Prop where
  le : takes ≤ n
  first : takes = 1 → (S.rules.first (List.ofFn S.types)).isSome = true

/-- What the classes make of a value, on its way to a slot with so many parameters. -/
def through (takes : Nat) (value : Option (Content V)) : Option (Content V) :=
  if takes = 1 then (S.rules.first (List.ofFn S.types)).elim value fun f => f value else value

/-- What it is called with, then. -/
def callArgs (d : TeaCupData n V) (st : Store V) (takes : Nat) : List (Option (Content V)) :=
  ((List.finRange n).take takes).map fun i => S.through takes (d.read st i)

variable {S}

theorem through_of_ne {takes : Nat} (h : takes ≠ 1) (value : Option (Content V)) :
    S.through takes value = value := if_neg h

/-- The classes hand a reference on as it is. -/
theorem through_constRef {takes : Nat} {i : Fin n} (hp : (S.types i).passing = .constRef)
    (hi : i.val < takes) (value : Option (Content V)) : S.through takes value = value := by
  unfold through
  split
  · rename_i hone
    obtain ⟨m, rfl⟩ : ∃ m, n = m + 1 := ⟨n - 1, by have := i.isLt; omega⟩
    obtain rfl : i = 0 := Fin.ext (show i.val = 0 by omega)
    rw [List.ofFn_succ]
    cases ht : S.types 0 with
    | ref name => rw [TupleRules.first_of_ref, Option.elim_some, id]
    | _ => rw [ht] at hp; cases hp
  · rfl

/-- The slot is called, with what the classes make of the leading values. -/
theorem received_eq {takes : Nat} (h : S.Invokes takes) (d : TeaCupData n V) (st : Store V) :
    S.received d st takes = some (S.callArgs d st takes) := by
  unfold callArgs
  set values := (List.finRange n).map (d.read st) with hvalues
  have hwf : (teaCupData S.rules (List.ofFn S.types) values).isSome = true :=
    TeaCup.teaCupData_isSome.mpr S.wellFormed
  obtain ⟨cup, hcup⟩ := Option.isSome_iff_exists.mp hwf
  have hlen : values.length = (List.ofFn S.types).length := by simp [hvalues]
  rw [received, hcup, Option.bind_some]
  by_cases hone : takes = 1
  · subst hone
    obtain ⟨f, hf⟩ := Option.isSome_iff_exists.mp (h.first rfl)
    have hthrough : S.through 1 = f := by
      funext value
      rw [through, if_pos rfl, hf, Option.elim_some]
    obtain ⟨m, rfl⟩ : ∃ m, n = m + 1 := ⟨n - 1, by have := h.le; omega⟩
    rw [hvalues, List.ofFn_succ, List.finRange_succ, List.map_cons] at hcup hlen
    rw [hthrough, List.ofFn_succ, List.take_succ_cons, List.take_zero,
      slotArgs_first hcup (Nat.succ.inj hlen), ← List.ofFn_succ, hf, List.finRange_succ]
    rfl
  · have htake : ((List.ofFn S.types).take takes).length = takes := by
      rw [List.length_take, List.length_ofFn]
      exact Nat.min_eq_left h.le
    have hslot := slotArgs_several hcup hlen (List.take_prefix takes _) (by rwa [htake])
    rw [hslot, htake, hvalues, ← List.map_take]
    simp only [through_of_ne hone]

end Signature

/-! ## An emission, and the slots that run later -/

/-- A call of `activate`, with what the compiler and the receivers do. -/
structure Emission (n : Nat) (V : Type) where
  signal_Bento : Bento
  signature : Signature n V
  args : Fin n → Argument V
  passes : ∀ i, (args i).passing = (signature.types i).passing
  /-- For `dataPack`, and for the data of a queued and of a blocking connection. -/
  packOrder : Order n
  queuedOrder : Order n
  blockingOrder : Order n
  /-- The number of parameters of a slot. -/
  takes : Bento → Nat
  invokes : ∀ slotMethod, signature.Invokes (takes slotMethod)
  /-- Does `queueSlot` return only after a blocking slot has run? -/
  blocks : ReceiverId → Bool

/-- A `PendingSlot` that a receiver keeps. -/
structure PendingSlot (n : Nat) (V : Type) where
  m_receiver : ReceiverId
  m_slot_Bento : Bento
  m_teaCup_Data : TeaCupData n V

/-- A call of a slot. -/
structure SlotCall (V : Type) where
  receiver : ReceiverId
  slotMethod : Bento
  args : List (Option (Content V))

/-- The objects, the locals of `activate`, and what became of its connections. -/
structure Delivery (n : Nat) (V : Type) where
  store : Store V
  dataPack : TeaCupData n V
  /-- The connections to come, with what `compareThreads` will return. -/
  rest : List (ConnectStruct × Bool)
  /-- Has `activate` not returned? -/
  inside : Bool := true
  pending : List (PendingSlot n V) := []
  calls : List (SlotCall V) := []

inductive DeliveryAction (V : Type)
  /-- The loop goes through the next connection. -/
  | next
  /-- Somebody calls `operator()` of a `PendingSlot`. -/
  | run (k : Nat)
  | leave
  /-- Somebody changes an object. -/
  | change (object : Nat) (c : Content V)

namespace Delivery

/-- A slot is invoked with data; it is skipped if the cast of the data is null. -/
def invoke (e : Emission n V) (σ : Delivery n V) (receiver : ReceiverId) (slotMethod : Bento)
    (data : TeaCupData n V) : Delivery n V :=
  match e.signature.received data σ.store (e.takes slotMethod) with
  | some args => { σ with calls := σ.calls ++ [⟨receiver, slotMethod, args⟩] }
  | none => σ

/-- `PendingSlot::operator()`. -/
def runPending (e : Emission n V) (σ : Delivery n V) (p : PendingSlot n V) : Delivery n V :=
  σ.invoke e p.m_receiver p.m_slot_Bento p.m_teaCup_Data

/-- The body of the loop. -/
def deliver (e : Emission n V) (σ : Delivery n V) (c : ConnectStruct) (sameThread : Bool) :
    Delivery n V :=
  match State.callFor c.type sameThread with
  | .queueSlot .queuedConnection =>
    let (data, st) := TeaCupData.make true e.args e.queuedOrder σ.store
    { σ with store := st, pending := σ.pending ++ [⟨c.receiver, c.slotMethod, data⟩] }
  | .queueSlot _ =>
    let (data, st) := TeaCupData.make false e.args e.blockingOrder σ.store
    let σ' := { σ with store := st }
    if e.blocks c.receiver then σ'.runPending e ⟨c.receiver, c.slotMethod, data⟩
    else { σ' with pending := σ'.pending ++ [⟨c.receiver, c.slotMethod, data⟩] }
  | _ => σ.invoke e c.receiver c.slotMethod σ.dataPack

/-- The emission begins: the data pack is made. -/
def start (e : Emission n V) (conns : List (ConnectStruct × Bool)) (st : Store V) : Delivery n V :=
  let (data, st') := TeaCupData.make false e.args e.packOrder st
  { store := st', dataPack := data, rest := conns }

/-- One step. An argument may be changed by others only after `activate` has
returned, which it may also do early. -/
def step (e : Emission n V) (σ : Delivery n V) : DeliveryAction V → Except Unit (Delivery n V)
  | .next =>
    match σ.inside, σ.rest with
    | true, (c, sameThread) :: rest =>
      let σ' := { σ with rest := rest }
      if c.signalMethod.eq e.signal_Bento then .ok (σ'.deliver e c sameThread) else .ok σ'
    | _, _ => .error ()
  | .run k =>
    match σ.pending[k]? with
    | some p => .ok (σ.runPending e p)
    | none => .error ()
  | .leave => .ok { σ with inside := false }
  | .change o c =>
    if σ.inside then .error () else .ok { σ with store := Function.update σ.store o c }

end Delivery

/-! ## What the forwards leave -/

/-- The objects when `activate` is called: all of them hold values. -/
def valuesAt (values : Nat → V) : Store V := fun o => .value (values o)

/-- One of the parameters takes the value out of an object. -/
def Emptied (args : Fin n → Argument V) (is : List (Fin n)) (o : Nat) : Prop :=
  ∃ j ∈ is, (args j).consumes = true ∧ (args j).object = o

instance (args : Fin n → Argument V) (is : List (Fin n)) (o : Nat) :
    Decidable (Emptied args is o) :=
  inferInstanceAs (Decidable (∃ j ∈ is, _))

theorem initAll_apply (args : Fin n → Argument V) (is : List (Fin n)) (st : Store V) (o : Nat) :
    initAll args is st o = if Emptied args is o then .movedFrom else st o := by
  induction is generalizing st with
  | nil => simp [initAll, Emptied]
  | cons i is ih =>
    have hstep : initAll args (i :: is) st = initAll args is ((args i).init st).2 := rfl
    rw [hstep, ih, Argument.init_store]
    have hiff : Emptied args (i :: is) o ↔
        ((args i).consumes = true ∧ (args i).object = o) ∨ Emptied args is o := by
      simp [Emptied]
    by_cases hi : (args i).consumes = true ∧ (args i).object = o
    · rw [if_pos (hiff.mpr (Or.inl hi)), if_pos hi.1, ← hi.2, Function.update_self, ite_self]
    · have hrest : Emptied args (i :: is) o ↔ Emptied args is o := hiff.trans (or_iff_right hi)
      simp only [hrest]
      congr 1
      split
      · rename_i hc
        rw [Function.update_of_ne fun ho => hi ⟨hc, ho.symm⟩]
      · rfl

theorem Emptied.mono {args : Fin n → Argument V} {is js : List (Fin n)} {o : Nat}
    (h : Emptied args is o) (hsub : ∀ i ∈ is, i ∈ js) : Emptied args js o := by
  obtain ⟨j, hj, hc⟩ := h
  exact ⟨j, hsub j hj, hc⟩

/-- After the first forward of all arguments, further ones change nothing. -/
theorem initAll_again (args : Fin n → Argument V) (order : Order n) (is : List (Fin n))
    (st : Store V) : initAll args is (initAll args order.list st) = initAll args order.list st := by
  funext o
  rw [initAll_apply, initAll_apply]
  by_cases h : Emptied args is o
  · rw [if_pos h, if_pos (h.mono fun i _ => order.all i)]
  · rw [if_neg h]

/-- The value of an object is what it was when no parameter took it. -/
theorem initAll_value (args : Fin n → Argument V) (is : List (Fin n)) (values : Nat → V) (o : Nat) :
    initAll args is (valuesAt values) o = .value (values o) ↔ ¬ Emptied args is o := by
  rw [initAll_apply]
  by_cases h : Emptied args is o <;> simp [h, valuesAt]

namespace TeaCupData

variable (args : Fin n → Argument V) (order : Order n) (st st' : Store V) (i : Fin n)

/-- The data of a queued connection is its own copy of the arguments, each as a `T`. -/
theorem read_copied (first : Order n) :
    (make true args order (initAll args first.list st)).1.read st' i =
      some ((initAll args first.list st (args i).object).map (args i).made) := by
  have hcopy := (args i).init_copy (initAll args first.list st)
  rw [← hcopy]
  simp only [make, if_true, read, initAll_again]
  cases (args i).passing <;> rfl

/-- The data that is not copied: a value is read when the data is made, a
reference when the slot runs. -/
theorem read_shared : (make false args order st).1.read st' i =
    match (args i).passing, (args i).binds with
    | .byValue, _ => some ((initAll args (order.before i) st (args i).object).map (args i).made)
    | .constRef, true => some (st' (args i).object)
    | .constRef, false => none := by
  simp only [make, Bool.false_eq_true, if_false, read, Argument.init]
  cases (args i).passing <;> cases (args i).binds <;> rfl

theorem make_store (b : Bool) :
    (make b args order st).2 = initAll args order.list st := by
  unfold make
  cases b <;> rfl

end TeaCupData

/-! ## Which slots receive the arguments -/

namespace Emission

variable (e : Emission n V)

/-- The data for a call, when the emission begins with the objects `st`. -/
def dataFor (st : Store V) (call : CallKind) : TeaCupData n V :=
  match call with
  | .queueSlot .queuedConnection =>
    (TeaCupData.make true e.args e.queuedOrder (initAll e.args e.packOrder.list st)).1
  | .queueSlot _ =>
    (TeaCupData.make false e.args e.blockingOrder (initAll e.args e.packOrder.list st)).1
  | _ => (TeaCupData.make false e.args e.packOrder st).1

/-- May the slot of a call run after the loop has gone on? -/
def late (c : ConnectStruct) (call : CallKind) : Bool :=
  match call with
  | .queueSlot .queuedConnection => true
  | .queueSlot _ => !e.blocks c.receiver
  | _ => false

/-- The parameters that are initialized before a `T` for a call is made from an argument. -/
def madeAfter (call : CallKind) (i : Fin n) : List (Fin n) :=
  match call with
  | .queueSlot _ => e.packOrder.list
  | _ => e.packOrder.before i

/-- A `T` that is made once some parameters have been initialized reaches the slot with
the value of the argument. -/
def Conveys (values : Nat → V) (slotMethod : Bento) (is : List (Fin n)) (i : Fin n) : Prop :=
  let a := e.args i
  let c : Content V := if Emptied e.args is a.object then .movedFrom else .value (values a.object)
  e.signature.through (e.takes slotMethod) (some (c.map a.made)) =
    some (.value (a.made (values a.object)))

/-- No forward takes the value of the argument before the slot of the call reads it, and
no conversion changes it. -/
def Keeps (values : Nat → V) (c : ConnectStruct) (call : CallKind) (i : Fin n) : Prop :=
  let a := e.args i
  match a.passing with
  | .byValue => e.Conveys values c.slotMethod (e.madeAfter call i) i
  | .constRef => ¬ Emptied e.args e.packOrder.list a.object ∧
    if call = .queueSlot .queuedConnection then
      a.binds = true → a.made (values a.object) = values a.object
    else a.binds = true ∧ e.late c call = false

/-- The same for all parameters of all slots of the signal. -/
def Delivers (values : Nat → V) (conns : List (ConnectStruct × Bool)) : Prop :=
  ∀ p ∈ conns, p.1.signalMethod.eq e.signal_Bento = true →
    ∀ i : Fin n, i.val < e.takes p.1.slotMethod →
      e.Keeps values p.1 (State.callFor p.1.type p.2) i

/-- What a slot receives when every parameter has the value of its argument. -/
def arguments (values : Nat → V) (slotMethod : Bento) : List (Option (Content V)) :=
  ((List.finRange n).take (e.takes slotMethod)).map fun i =>
    some (.value ((e.args i).seen (values (e.args i).object)))

variable {e} {values : Nat → V} {c : ConnectStruct} {call : CallKind} {i : Fin n}

theorem dataFor_byValue (hp : (e.args i).passing = .byValue) (st0 st : Store V) :
    (e.dataFor st0 call).read st i = some
      ((initAll e.args (e.madeAfter call i) st0 (e.args i).object).map (e.args i).made) := by
  unfold dataFor madeAfter
  split
  · rw [TeaCupData.read_copied]
  · simp only [TeaCupData.read_shared, hp, initAll_again]
  · rename_i hq hd
    cases call with
    | queueSlot type => exact absurd rfl (hd type)
    | _ => simp only [TeaCupData.read_shared, hp]

theorem dataFor_constRef (hp : (e.args i).passing = .constRef) (st0 st : Store V) :
    (e.dataFor st0 call).read st i =
      if call = .queueSlot .queuedConnection then
        some ((initAll e.args e.packOrder.list st0 (e.args i).object).map (e.args i).made)
      else if (e.args i).binds = true then some (st (e.args i).object)
      else none := by
  unfold dataFor
  split
  · rw [TeaCupData.read_copied, if_pos rfl]
  · rename_i type hq
    rw [if_neg (by simpa using hq)]
    cases hb : (e.args i).binds <;> simp [TeaCupData.read_shared, hp, hb]
  · rename_i hq hd
    rw [if_neg hq]
    cases hb : (e.args i).binds <;> simp [TeaCupData.read_shared, hp, hb]

/-- A slot sees the value of an argument, if it runs beside the objects `st`. -/
def Reads (e : Emission n V) (values : Nat → V) (c : ConnectStruct) (call : CallKind)
    (st : Store V) (i : Fin n) : Prop :=
  e.signature.through (e.takes c.slotMethod) ((e.dataFor (valuesAt values) call).read st i) =
    some (.value ((e.args i).seen (values (e.args i).object)))

/-- Of a `T` that was made it does not matter when the slot runs. -/
theorem reads_byValue (hp : (e.args i).passing = .byValue) (st : Store V) :
    e.Reads values c call st i ↔ e.Keeps values c call i := by
  unfold Reads Keeps Conveys Argument.seen
  rw [dataFor_byValue hp, initAll_apply]
  simp only [hp, valuesAt]

theorem reads_constRef (hp : (e.args i).passing = .constRef) (hi : i.val < e.takes c.slotMethod)
    (st : Store V) :
    e.Reads values c call st i ↔
      if call = .queueSlot .queuedConnection then
        ¬ Emptied e.args e.packOrder.list (e.args i).object ∧ ((e.args i).binds = true →
          (e.args i).made (values (e.args i).object) = values (e.args i).object)
      else (e.args i).binds = true ∧ st (e.args i).object = .value (values (e.args i).object) := by
  unfold Reads Argument.seen
  rw [Signature.through_constRef (e.passes i ▸ hp) hi, dataFor_constRef hp, initAll_apply]
  split
  · by_cases hem : Emptied e.args e.packOrder.list (e.args i).object <;>
      cases hb : (e.args i).binds <;> simp [hem, hp, valuesAt, Content.map]
  · cases hb : (e.args i).binds <;> simp [hp]

theorem reads_of_keeps (h : e.Keeps values c call i) (hi : i.val < e.takes c.slotMethod)
    {st : Store V}
    (hst : st = initAll e.args e.packOrder.list (valuesAt values) ∨ e.late c call = true) :
    e.Reads values c call st i := by
  cases hp : (e.args i).passing with
  | byValue => exact (reads_byValue hp st).mpr h
  | constRef =>
    simp only [Keeps, hp] at h
    rw [reads_constRef hp hi]
    split
    · rename_i hq
      rw [if_pos hq] at h
      exact h
    · rename_i hq
      rw [if_neg hq] at h
      obtain ⟨hem, hb, hlate⟩ := h
      refine ⟨hb, ?_⟩
      rw [hst.resolve_right (by simp [hlate])]
      exact (initAll_value _ _ _ _).mpr hem

/-- The other direction needs two moments only: before `activate` returns, and
after the object was emptied. -/
theorem keeps_of_reads (hi : i.val < e.takes c.slotMethod)
    (hnow : e.Reads values c call (initAll e.args e.packOrder.list (valuesAt values)) i)
    (hlate : e.late c call = true → ∃ st : Store V, st (e.args i).object = .movedFrom ∧
      e.Reads values c call st i) : e.Keeps values c call i := by
  cases hp : (e.args i).passing with
  | byValue => exact (reads_byValue hp _).mp hnow
  | constRef =>
    simp only [Keeps, hp]
    rw [reads_constRef hp hi] at hnow
    split at hnow
    · rename_i hq
      rw [if_pos hq]
      exact hnow
    · rename_i hq
      rw [if_neg hq]
      rw [initAll_value] at hnow
      refine ⟨hnow.2, hnow.1, ?_⟩
      by_contra hl
      obtain ⟨st, hst, hread⟩ := hlate (by simpa using hl)
      rw [reads_constRef hp hi, if_neg hq, hst] at hread
      cases hread.2

end Emission

/-! ## The runs -/

namespace Delivery

variable {e : Emission n V} {conns : List (ConnectStruct × Bool)} {st : Store V}

/-- Everything was made from the objects `st`, for connections of the list. -/
structure Sound (e : Emission n V) (conns : List (ConnectStruct × Bool)) (st : Store V)
    (σ : Delivery n V) : Prop where
  store : σ.inside = true → σ.store = initAll e.args e.packOrder.list st
  dataPack : σ.dataPack = (TeaCupData.make false e.args e.packOrder st).1
  rest : ∀ p ∈ σ.rest, p ∈ conns
  pending : ∀ p ∈ σ.pending, ∃ c b, (c, b) ∈ conns ∧ c.signalMethod.eq e.signal_Bento = true ∧
    e.late c (State.callFor c.type b) = true ∧
    p = ⟨c.receiver, c.slotMethod, e.dataFor st (State.callFor c.type b)⟩
  calls : ∀ call ∈ σ.calls, ∃ c b st', (c, b) ∈ conns ∧
    c.signalMethod.eq e.signal_Bento = true ∧
    (st' = initAll e.args e.packOrder.list st ∨ e.late c (State.callFor c.type b) = true) ∧
    call = ⟨c.receiver, c.slotMethod,
      e.signature.callArgs (e.dataFor st (State.callFor c.type b)) st' (e.takes c.slotMethod)⟩

theorem invoke_eq (e : Emission n V) (σ : Delivery n V) (receiver : ReceiverId)
    (slotMethod : Bento) (data : TeaCupData n V) :
    σ.invoke e receiver slotMethod data = { σ with calls := σ.calls ++
      [⟨receiver, slotMethod, e.signature.callArgs data σ.store (e.takes slotMethod)⟩] } := by
  rw [invoke, Signature.received_eq (e.invokes slotMethod)]

theorem sound_start : (start e conns st).Sound e conns st where
  store _ := TeaCupData.make_store e.args e.packOrder st false
  dataPack := rfl
  rest p hp := hp
  pending p hp := by cases hp
  calls call hc := by cases hc

/-- What the body of the loop does: the slot runs now, or is left to run later. -/
theorem deliver_eq {σ : Delivery n V} (hst : σ.store = initAll e.args e.packOrder.list st)
    (hpack : σ.dataPack = (TeaCupData.make false e.args e.packOrder st).1) (c : ConnectStruct)
    (b : Bool) :
    σ.deliver e c b =
      if e.late c (State.callFor c.type b) then
        { σ with pending := σ.pending ++
          [⟨c.receiver, c.slotMethod, e.dataFor st (State.callFor c.type b)⟩] }
      else σ.invoke e c.receiver c.slotMethod (e.dataFor st (State.callFor c.type b)) := by
  unfold deliver Emission.late Emission.dataFor
  have hsame : ∀ (b : Bool) (order : Order n),
      (TeaCupData.make b e.args order σ.store).2 = σ.store := fun b order => by
    rw [TeaCupData.make_store, hst, initAll_again]
  split
  · simp only [hsame, if_true, ← hst]
  · simp only [hsame, runPending, ← hst]
    cases hb : e.blocks c.receiver <;> simp
  · simp [hpack]

theorem Sound.invoke {σ : Delivery n V} (h : σ.Sound e conns st) {c : ConnectStruct} {b : Bool}
    (hc : (c, b) ∈ conns) (hm : c.signalMethod.eq e.signal_Bento = true)
    (hst : σ.store = initAll e.args e.packOrder.list st ∨
      e.late c (State.callFor c.type b) = true) :
    (σ.invoke e c.receiver c.slotMethod (e.dataFor st (State.callFor c.type b))).Sound
      e conns st := by
  rw [invoke_eq]
  refine { h with calls := fun call hcall => ?_ }
  rcases List.mem_append.mp hcall with hcall | hcall
  · exact h.calls call hcall
  · exact ⟨c, b, σ.store, hc, hm, hst, List.mem_singleton.mp hcall⟩

theorem Sound.step {σ σ' : Delivery n V} {a : DeliveryAction V} (h : σ.Sound e conns st)
    (hs : σ.step e a = .ok σ') : σ'.Sound e conns st := by
  cases a with
  | next =>
    simp only [Delivery.step] at hs
    split at hs
    · rename_i c b rest hin hrest
      have h1 : Sound e conns st { σ with rest := rest } :=
        { h with rest := fun p hp => h.rest p (hrest ▸ List.mem_cons_of_mem _ hp) }
      have hc : (c, b) ∈ conns := h.rest _ (hrest ▸ List.mem_cons_self)
      split at hs
      · rename_i hm
        simp only [Except.ok.injEq] at hs
        rw [deliver_eq (h1.store hin) h1.dataPack] at hs
        subst hs
        split
        · rename_i hlate
          refine { h1 with pending := fun p hp => ?_ }
          rcases List.mem_append.mp hp with hp | hp
          · exact h1.pending p hp
          · exact ⟨c, b, hc, hm, hlate, List.mem_singleton.mp hp⟩
        · exact h1.invoke hc hm (Or.inl (h1.store hin))
      · cases hs
        exact h1
    · cases hs
  | run k =>
    simp only [Delivery.step] at hs
    split at hs
    · rename_i p hp
      cases hs
      obtain ⟨c, b, hc, hm, hlate, rfl⟩ := h.pending p (List.mem_of_getElem? hp)
      exact h.invoke hc hm (Or.inr hlate)
    · cases hs
  | leave =>
    cases hs
    exact { h with store := fun hin => nomatch hin }
  | change o c =>
    simp only [Delivery.step] at hs
    split at hs
    · cases hs
    · rename_i hin
      cases hs
      exact { h with store := fun hin' => absurd hin' hin }

theorem sound_run {σ : Delivery n V} {as : List (DeliveryAction V)}
    (hr : Runs.run (step e) (start e conns st) as = .ok σ) : σ.Sound e conns st :=
  Runs.run_keeps (fun _ _ _ h hs => h.step hs) hr sound_start

theorem step_next {σ : Delivery n V} {c : ConnectStruct} {b : Bool}
    {rest : List (ConnectStruct × Bool)} (hin : σ.inside = true) (hrest : σ.rest = (c, b) :: rest) :
    σ.step e .next = .ok
      (if c.signalMethod.eq e.signal_Bento then deliver e { σ with rest := rest } c b
        else { σ with rest := rest }) := by
  obtain ⟨store, dataPack, rest', inside, pending, calls⟩ := σ
  cases hin
  cases hrest
  simp only [step]
  split <;> rfl

theorem deliver_frame (e : Emission n V) (σ : Delivery n V) (c : ConnectStruct) (b : Bool) :
    (σ.deliver e c b).inside = σ.inside ∧ (σ.deliver e c b).rest = σ.rest := by
  unfold deliver
  split
  · exact ⟨rfl, rfl⟩
  · dsimp only [runPending]
    rw [invoke_eq]
    split <;> exact ⟨rfl, rfl⟩
  · rw [invoke_eq]
    exact ⟨rfl, rfl⟩

/-- The loop can go on to any connection. -/
theorem reach_connection {σ : Delivery n V} {pre post : List (ConnectStruct × Bool)}
    (hin : σ.inside = true) (hrest : σ.rest = pre ++ post) :
    ∃ as σ', Runs.run (step e) σ as = .ok σ' ∧ σ'.inside = true ∧ σ'.rest = post := by
  induction pre generalizing σ with
  | nil => exact ⟨[], σ, rfl, hin, hrest⟩
  | cons p pre ih =>
    obtain ⟨c, b⟩ := p
    have hs := step_next (e := e) hin hrest
    set σ1 := if c.signalMethod.eq e.signal_Bento then
      deliver e { σ with rest := pre ++ post } c b else { σ with rest := pre ++ post }
    have h1 : σ1.inside = true ∧ σ1.rest = pre ++ post := by
      obtain ⟨hd1, hd2⟩ := deliver_frame e { σ with rest := pre ++ post } c b
      by_cases hm : c.signalMethod.eq e.signal_Bento = true
      · simp only [σ1, if_pos hm]
        exact ⟨hd1.trans hin, hd2⟩
      · simp only [σ1, if_neg hm]
        exact ⟨hin, trivial⟩
    obtain ⟨as, σ', hr, h⟩ := ih h1.1 h1.2
    exact ⟨.next :: as, σ', Runs.run_cons.mpr ⟨σ1, hs, hr⟩, h⟩

/-- The slot of a matching connection runs at once, or is left to run later. -/
theorem reach_slot (st : Store V) {c : ConnectStruct} {b : Bool} (hc : (c, b) ∈ conns)
    (hm : c.signalMethod.eq e.signal_Bento = true) :
    ∃ as σ, Runs.run (step e) (start e conns st) as = .ok σ ∧
      σ.store = initAll e.args e.packOrder.list st ∧
      if e.late c (State.callFor c.type b) = true then
        ⟨c.receiver, c.slotMethod, e.dataFor st (State.callFor c.type b)⟩ ∈ σ.pending
      else ⟨c.receiver, c.slotMethod, e.signature.callArgs
        (e.dataFor st (State.callFor c.type b)) σ.store (e.takes c.slotMethod)⟩ ∈ σ.calls := by
  obtain ⟨pre, post, rfl⟩ := List.append_of_mem hc
  obtain ⟨as, σ, hr, hin, hrest⟩ := reach_connection (e := e)
    (show (start e (pre ++ (c, b) :: post) st).inside = true from rfl) rfl
  have hS := sound_run hr
  have hnext := step_next (e := e) hin hrest
  have hst := hS.store hin
  rw [if_pos hm, deliver_eq (by exact hst) (by exact hS.dataPack), invoke_eq] at hnext
  refine ⟨as ++ [.next], _, Runs.run_append.mpr ⟨σ, hr, Runs.run_cons.mpr ⟨_, hnext, rfl⟩⟩, ?_⟩
  split
  · exact ⟨hst, List.mem_append_right _ (List.mem_singleton.mpr rfl)⟩
  · exact ⟨hst, List.mem_append_right _ (List.mem_singleton.mpr rfl)⟩

/-- A slot that was left to run later can run in any state. -/
theorem run_pending {σ0 σ : Delivery n V} {as : List (DeliveryAction V)} {p : PendingSlot n V}
    (hr : Runs.run (step e) σ0 as = .ok σ) (hp : p ∈ σ.pending) :
    ∃ bs σ', Runs.run (step e) σ0 bs = .ok σ' ∧ ⟨p.m_receiver, p.m_slot_Bento,
      e.signature.callArgs p.m_teaCup_Data σ.store (e.takes p.m_slot_Bento)⟩ ∈ σ'.calls := by
  obtain ⟨k, hk⟩ := List.mem_iff_getElem?.mp hp
  have hs : σ.step e (.run k) = .ok (σ.runPending e p) := by simp only [step, hk]
  rw [runPending, invoke_eq] at hs
  exact ⟨as ++ [.run k], _, Runs.run_append.mpr ⟨σ, hr, Runs.run_cons.mpr ⟨_, hs, rfl⟩⟩,
    List.mem_append_right _ (List.mem_singleton.mpr rfl)⟩

end Delivery

theorem mem_take_finRange {k : Nat} {i : Fin n} : i ∈ (List.finRange n).take k ↔ i.val < k := by
  rw [List.mem_take_iff_getElem]
  constructor
  · rintro ⟨j, hj, rfl⟩
    simp at hj ⊢
    exact hj.1
  · intro h
    exact ⟨i.val, by simp [h], by simp⟩

theorem Emission.callArgs_eq_arguments {e : Emission n V} {values : Nat → V} {c : ConnectStruct}
    {call : CallKind} {st : Store V} :
    e.signature.callArgs (e.dataFor (valuesAt values) call) st (e.takes c.slotMethod) =
        e.arguments values c.slotMethod ↔
      ∀ i : Fin n, i.val < e.takes c.slotMethod → e.Reads values c call st i := by
  unfold Signature.callArgs Emission.arguments
  rw [List.map_inj_left]
  simp only [mem_take_finRange]
  rfl

/-- In every run, every slot call has the values that the arguments had when
`activate` was called, exactly if no argument is emptied before a slot reads it, and
no object that is made of one on the way has another value. -/
theorem arguments_kept (e : Emission n V) (conns : List (ConnectStruct × Bool))
    (values : Nat → V) :
    (∀ as σ, Runs.run (Delivery.step e) (Delivery.start e conns (valuesAt values)) as = .ok σ →
      ∀ call ∈ σ.calls, call.args = e.arguments values call.slotMethod) ↔
        e.Delivers values conns := by
  constructor
  · rintro h ⟨c, b⟩ hc hm i hi
    obtain ⟨as, σ, hr, hst, hslot⟩ := Delivery.reach_slot (valuesAt values) hc hm
    have hnow : e.Reads values c (State.callFor c.type b) σ.store i := by
      split at hslot
      · obtain ⟨bs, σ', hr', hcall⟩ := Delivery.run_pending hr hslot
        exact Emission.callArgs_eq_arguments.mp (h bs σ' hr' _ hcall) i hi
      · exact Emission.callArgs_eq_arguments.mp (h _ _ hr _ hslot) i hi
    rw [hst] at hnow
    refine Emission.keeps_of_reads hi hnow fun hlate => ?_
    -- the slot runs after `activate` has returned and the object was emptied
    rw [if_pos hlate] at hslot
    let σ1 : Delivery n V := { σ with inside := false }
    let σ2 : Delivery n V :=
      { σ1 with store := Function.update σ.store (e.args i).object .movedFrom }
    have hleave : σ.step e .leave = .ok σ1 := rfl
    have hchange : σ1.step e (.change (e.args i).object .movedFrom) = .ok σ2 := rfl
    have hend : Runs.run (Delivery.step e) σ2 [] = .ok σ2 := rfl
    have hr2 := Runs.run_append.mpr
      ⟨σ, hr, Runs.run_cons.mpr ⟨σ1, hleave, Runs.run_cons.mpr ⟨σ2, hchange, hend⟩⟩⟩
    obtain ⟨bs, σ', hr', hcall⟩ := Delivery.run_pending hr2 hslot
    exact ⟨σ2.store, Function.update_self _ _ _,
      Emission.callArgs_eq_arguments.mp (h bs σ' hr' _ hcall) i hi⟩
  · intro h as σ hr call hcall
    obtain ⟨c, b, st', hc, hm, hst, rfl⟩ := (Delivery.sound_run hr).calls call hcall
    exact Emission.callArgs_eq_arguments.mpr fun i hi =>
      Emission.reads_of_keeps (h (c, b) hc hm i hi) hi hst

/-- One parameter of a plain type. -/
def onePlain : Signature 1 Nat where
  types _ := .other 0
  rules := plainTypes
  wellFormed := plainTypes_wellFormed (by simp)

/-- A temporary for a parameter that is taken by value. -/
def temporaryArgument : Emission 1 Nat where
  signal_Bento := .method 0 (some 1)
  signature := onePlain
  args _ := ⟨.byValue, 0, true, true, true, id⟩
  passes _ := rfl
  packOrder := ⟨[0], by decide, by decide⟩
  queuedOrder := ⟨[0], by decide, by decide⟩
  blockingOrder := ⟨[0], by decide, by decide⟩
  takes _ := 1
  invokes _ := ⟨Nat.le_refl 1, fun _ => rfl⟩
  blocks _ := true

/-- A queued slot receives what the first forward left of the temporary. -/
theorem arguments_lost :
    ∃ σ : Delivery 1 Nat, Runs.run (Delivery.step temporaryArgument)
        (Delivery.start temporaryArgument
          [(⟨.method 0 (some 1), 0, .method 1 (some 1), .queuedConnection⟩, true)]
          (valuesAt fun _ => 7)) [.next, .run 0] = .ok σ ∧
      ¬ ∀ call ∈ σ.calls, call.args = temporaryArgument.arguments (fun _ => 7) call.slotMethod := by
  refine ⟨_, rfl, fun h => ?_⟩
  rw [Delivery.runPending, Delivery.invoke_eq] at h
  have := h _ (List.mem_append_right _ (List.mem_singleton.mpr rfl))
  exact absurd this (by decide)

end CsSignal
