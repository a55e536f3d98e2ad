-- The types of the parameters, as the templates see them: the check of `connect`,
-- which strips two lists from the front, the templates that take the last type of a
-- list away, and what the constructors of `std::tuple` do with the values.
import Mathlib.Data.List.Infix

namespace CsSignal

/-- A parameter type, as far as the templates look into it. -/
inductive Ty
  | other (name : Nat)
  /-- A reference type, but no rvalue reference. -/
  | ref (name : Nat)
  | tuple (types : List Ty)
  deriving Repr

mutual

/-- `std::is_same`. -/
def Ty.decEq : (t t' : Ty) → Decidable (t = t')
  | .other n, .other n' => decidable_of_iff (n = n') (by simp)
  | .ref n, .ref n' => decidable_of_iff (n = n') (by simp)
  | .tuple ts, .tuple ts' =>
    match Ty.decEqList ts ts' with
    | isTrue h => isTrue (by rw [h])
    | isFalse h => isFalse (by simp [h])
  | .other _, .ref _ | .other _, .tuple _ | .ref _, .other _ | .ref _, .tuple _
  | .tuple _, .other _ | .tuple _, .ref _ => isFalse (by simp)

def Ty.decEqList : (ts ts' : List Ty) → Decidable (ts = ts')
  | [], [] => isTrue rfl
  | [], _ :: _ => isFalse (by simp)
  | _ :: _, [] => isFalse (by simp)
  | t :: ts, t' :: ts' =>
    match Ty.decEq t t', Ty.decEqList ts ts' with
    | isTrue h, isTrue h' => isTrue (by rw [h, h'])
    | isFalse h, _ => isFalse (by simp [h])
    | _, isFalse h => isFalse (by simp [h])

end

instance : DecidableEq Ty := Ty.decEq

/-! ## The check of `connect` -/

/-- `cs_check_connect_args` for two lists of parameters; `none` when the call does
not compile: no specialization is left, or two of them are, the one for equal first
types and one of those that answer false. -/
def csCheckConnectArgs : List Ty → List Ty → Option Bool
  | _, [] => some true
  | [], _ :: _ => some false
  | t :: argsX, t' :: argsY =>
    let mismatch := argsX.length < argsY.length ∨
      argsX.length = argsY.length ∧ t :: argsX ≠ t' :: argsY
    if t = t' then
      if mismatch then none else csCheckConnectArgs argsX argsY
    else if mismatch then some false
    else none

/-- The check accepts the lists that begin the list of the signal, and no others. -/
theorem csCheckConnectArgs_iff (ts us : List Ty) :
    csCheckConnectArgs ts us = some true ↔ us <+: ts := by
  induction ts generalizing us with
  | nil => cases us <;> simp [csCheckConnectArgs]
  | cons t ts ih =>
    cases us with
    | nil => simp [csCheckConnectArgs]
    | cons u us =>
      unfold csCheckConnectArgs
      rw [List.cons_prefix_cons]
      dsimp only
      by_cases h : t = u
      · subst h
        rw [if_pos rfl]
        split
        · rename_i hmis
          refine iff_of_false (by simp) fun ⟨_, hp⟩ => ?_
          rcases hmis with hlt | ⟨hlen, hne⟩
          · exact absurd hp.length_le (Nat.not_le.mpr hlt)
          · exact hne (by rw [hp.eq_of_length hlen.symm])
        · rw [ih]
          simp
      · rw [if_neg h]
        have h' : ¬ u = t := fun he => h he.symm
        split <;> simp [h']

/-! ## The templates that take the last type away -/

/-- `prePend`, which is defined for a second argument that is a tuple. -/
def prePend (t : Ty) : Ty → Option Ty
  | .tuple ts => some (.tuple (t :: ts))
  | _ => none

def strip : Ty → Option Ty
  | .tuple (t1 :: t2 :: ts) => do
    let t ← strip (.tuple (t2 :: ts))
    prePend t1 t
  | _ => some (.tuple [])
termination_by t => sizeOf t

def removeLastType (ts : List Ty) : Option Ty := strip (.tuple ts)

/-- The numbers of the class `makeIntValues<max, vs...>`. -/
def makeIntValues : Nat → List Nat → List Nat
  | 0, vs => vs
  | max + 1, vs => makeIntValues max (max :: vs)

theorem strip_tuple (ts : List Ty) : strip (.tuple ts) = some (.tuple ts.dropLast) := by
  induction ts with
  | nil => simp [strip]
  | cons t ts ih =>
    cases ts with
    | nil => simp [strip]
    | cons t2 ts =>
      rw [strip, ih]
      rfl

theorem removeLastType_eq (ts : List Ty) : removeLastType ts = some (.tuple ts.dropLast) :=
  strip_tuple ts

theorem sizeOf_dropLast (t : Ty) (ts : List Ty) : sizeOf (t :: ts).dropLast < sizeOf (t :: ts) := by
  induction ts generalizing t with
  | nil =>
    simp only [List.dropLast_singleton, List.nil.sizeOf_spec, List.cons.sizeOf_spec]
    omega
  | cons t2 ts ih =>
    have := ih t2
    simp only [List.dropLast_cons_cons, List.cons.sizeOf_spec] at this ⊢
    omega

theorem sizeOf_lt_tuple (us : List Ty) : sizeOf us < sizeOf [Ty.tuple us] := by
  simp only [List.cons.sizeOf_spec, Ty.tuple.sizeOf_spec]
  omega

theorem makeIntValues_eq (max : Nat) (vs : List Nat) :
    makeIntValues max vs = List.range max ++ vs := by
  induction max generalizing vs with
  | zero => rfl
  | succ max ih => rw [makeIntValues, ih, List.range_succ, List.append_assoc, List.singleton_append]

/-! ## What the constructors of `std::tuple` do -/

variable {V : Type}

/-- What the types of a program say about it. -/
structure TupleRules (V : Type) where
  /-- Can an object of the type be copied? Of a reference type, the object it refers to. -/
  copies : Ty → Bool
  /-- Can it be copied where `explicit` constructors do not count? -/
  copiesImplicitly : Ty → Bool
  /-- The one value of a `std::tuple<T>` that is made, implicitly, from a `std::tuple<T &>`:
  the same one, or that of a `T` which is made from the tuple itself, if there is such a
  constructor, as for `std::any`. -/
  ofReference : Ty → Option (V → V)
  /-- The one value of a `std::tuple<T>` that another `std::tuple` converts to. -/
  conv : List Ty → Ty → Option (List V → V)

namespace TupleRules

variable (R : TupleRules V)

/-- `std::tuple<T>` from the tuple of a reference; for a reference type it is the same type. -/
def single : Ty → Option (V → V)
  | .ref _ => some id
  | t => R.ofReference t

def converts : Ty → Bool
  | .ref _ => true
  | t => R.copiesImplicitly t

/-- `std::tuple<ts...>` from the `std::tuple` of references that `std::forward_as_tuple`
returns. Several values are copied one by one. -/
def fromReferences : List Ty → Option (List V → List V)
  | [] => some id
  | [t] => (R.single t).map List.map
  | ts => if ts.all R.converts then some id else none

/-- The implicit conversion of a `std::tuple` to another one. Only the one from a nested tuple
to the list inside it occurs, and back; it takes a constructor for one element. -/
def convert (rs ts : List Ty) : Option (List V → List V) :=
  if rs = ts then some id
  else
    match ts with
    | [t] => (R.conv rs t).map fun f values => [f values]
    | _ => none

theorem convert_self (ts : List Ty) : R.convert ts ts = some id := if_pos rfl

theorem convert_single {rs : List Ty} {t : Ty} (hne : rs ≠ [t]) :
    R.convert rs [t] = (R.conv rs t).map fun f values => [f values] := if_neg hne

theorem convert_several {rs ts : List Ty} (hne : rs ≠ ts) (hts : ts.length ≠ 1) :
    R.convert rs ts = none := by
  match ts with
  | [] => exact if_neg hne
  | [t] => exact absurd rfl hts
  | _ :: _ :: _ => exact if_neg hne

theorem fromReferences_several {ts : List Ty} {f : List V → List V} (hts : ts.length ≠ 1)
    (hf : R.fromReferences ts = some f) : f = id := by
  match ts with
  | [] => exact (Option.some.inj hf).symm
  | [t] => exact absurd rfl hts
  | t :: t2 :: ts =>
    simp only [fromReferences] at hf
    split at hf
    · exact (Option.some.inj hf).symm
    · cases hf

theorem fromReferences_length {ts : List Ty} {f : List V → List V}
    (hf : R.fromReferences ts = some f) (values : List V) : (f values).length = values.length := by
  by_cases hts : ts.length = 1
  · obtain ⟨t, rfl⟩ := List.length_eq_one_iff.mp hts
    obtain ⟨g, _, rfl⟩ := Option.map_eq_some_iff.mp hf
    exact List.length_map _
  · rw [R.fromReferences_several hts hf, id]

end TupleRules

end CsSignal
