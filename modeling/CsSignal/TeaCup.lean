-- The data pack of an emission. A slot may take fewer parameters than its signal, so
-- the classes that hold the data strip the list of types from the back, one base
-- after the other.
import CsSignal.TupleTypes

namespace CsSignal

variable {V : Type}

/-! ## The classes that hold the data -/

/-- `internalRemoveData`, which returns a `std::tuple<us...>` of the values at the numbers of
its `intValues`; `none` when it does not compile. -/
def internalRemoveData (R : TupleRules V) (vs : List Nat) (us : List Ty) :
    Option (List V → Option (List V)) :=
  (R.fromReferences us).map fun f tupleValue => (vs.mapM fun v => tupleValue[v]?).map f

/-- `funcRemoveData`, for a value of the type `std::tuple<ts...>`. -/
def funcRemoveData (R : TupleRules V) (ts : List Ty) : Option (List V → Option (List V)) :=
  match removeLastType ts with
  | some (.tuple us) => internalRemoveData R (makeIntValues (ts.length - 1) []) us
  | _ => none

theorem mapM_getElem (n : Nat) (xs : List V) (h : n ≤ xs.length) :
    (List.range n).mapM (fun v => xs[v]?) = some (xs.take n) := by
  induction n with
  | zero => rfl
  | succ n ih =>
    have hx : xs[n]? = some xs[n] := List.getElem?_eq_getElem h
    rw [List.range_succ, List.mapM_append, ih (by omega), List.take_add_one, hx]
    simp only [List.mapM_cons, hx, List.mapM_nil, Option.toList_some]
    rfl

theorem funcRemoveData_isSome (R : TupleRules V) (ts : List Ty) :
    (funcRemoveData R ts).isSome = (R.fromReferences ts.dropLast).isSome := by
  rw [funcRemoveData, removeLastType_eq]
  exact Option.isSome_map

theorem funcRemoveData_eq {R : TupleRules V} {ts : List Ty} {remove : List V → Option (List V)}
    (hr : funcRemoveData R ts = some remove) : ∃ f, R.fromReferences ts.dropLast = some f ∧
      ∀ xs : List V, xs.length = ts.length → remove xs = some (f (xs.take ts.dropLast.length)) := by
  rw [funcRemoveData, removeLastType_eq] at hr
  obtain ⟨f, hf, rfl⟩ := Option.map_eq_some_iff.mp hr
  refine ⟨f, hf, fun xs hlen => ?_⟩
  dsimp only
  rw [makeIntValues_eq, List.append_nil, mapM_getElem _ _ (by omega), List.length_dropLast]
  rfl

/-- A callable that returns a `std::tuple`: the types, and the values of a call. -/
structure Lambda (V : Type) where
  result : List Ty
  call : Unit → Option (List V)

/-- An object of a class `TeaCup<Ts...>`, with its base. -/
inductive TeaCup (V : Type)
  /-- Specialization 2, no arguments. -/
  | empty
  /-- The class template. -/
  | data (ts : List Ty) (m_lambda : Unit → Option (List V)) (base : TeaCup V)
  /-- Specialization 3, one argument that is a tuple type. -/
  | ofTuple (ts : List Ty) (base : TeaCup V)

/-- A `std::function<std::tuple<Ts...> ()>` that holds a callable. -/
def toFunction (R : TupleRules V) (ts : List Ty) (lambda : Lambda V) :
    Option (Unit → Option (List V)) :=
  (R.convert lambda.result ts).map fun f () => (lambda.call ()).map f

namespace TeaCup

/-- The constructors; `none` when a class of the chain is not well formed. The
base of the class template is `TeaCup` of a tuple type, so it is specialization
3, which hands the callable on to the shorter list. -/
def make (R : TupleRules V) (ts : List Ty) (lambda : Lambda V) : Option (TeaCup V) :=
  match ts with
  | [] => some .empty
  | [.tuple us] => do
    let base ← make R us lambda
    some (.ofTuple us base)
  | t :: rest => do
    let m_lambda ← toFunction R (t :: rest) lambda
    let remove ← funcRemoveData R (t :: rest)
    match _h : removeLastType (t :: rest) with
    | some (.tuple us) =>
      let base ← make R us ⟨us, fun () => (m_lambda ()).bind remove⟩
      some (.data (t :: rest) m_lambda (.ofTuple us base))
    | _ => none
termination_by sizeOf ts
decreasing_by
  · simp
    omega
  · rw [removeLastType_eq] at _h
    cases _h
    exact sizeOf_dropLast t rest

/-- `dynamic_cast` to `TeaCup<us...>`. -/
def dynamicCast : TeaCup V → List Ty → Option (TeaCup V)
  | .empty, us => if us = [] then some .empty else none
  | .data ts f base, us => if us = ts then some (.data ts f base) else base.dynamicCast us
  | .ofTuple ts base, us =>
    if us = [.tuple ts] then some (.ofTuple ts base) else base.dynamicCast us

/-- `getData`: the types of the tuple that it returns, and the values. -/
def getData : TeaCup V → Option (List Ty × List V)
  | .empty => some ([], [])
  | .data ts f _ => (f ()).map fun values => (ts, values)
  | .ofTuple _ base => base.getData

end TeaCup

/-- `TeaCup_Data<Ts...>`: it copies its data, and its base is built from a callable that
returns them. -/
def teaCupData (R : TupleRules V) (ts : List Ty) (args : List V) : Option (TeaCup V) :=
  if ts.all R.copies then TeaCup.make R ts ⟨ts, fun () => some args⟩ else none

/-- `std::tuple<us...> &&args = teaCup->getData()`, where `teaCup` is the cast of the data pack;
`none` when the cast is null, and when the tuple does not convert. -/
def TeaCup.slotArgs (R : TupleRules V) (dataPack : TeaCup V) (us : List Ty) : Option (List V) :=
  (dataPack.dynamicCast us).bind fun teaCup =>
    teaCup.getData.bind fun data => (R.convert data.1 us).map fun f => f data.2

/-! ## The chain of bases -/

/-- The way the classes are derived, as an induction: no types, one tuple type,
or a list that loses its last type. -/
theorem chain_induction {P : List Ty → Prop} (nil : P []) (tuple : ∀ us, P us → P [.tuple us])
    (data : ∀ ts, ts ≠ [] → (∀ us, ts ≠ [.tuple us]) → P ts.dropLast → P ts) (ts : List Ty) :
    P ts := by
  match ts with
  | [] => exact nil
  | [.tuple us] => exact tuple us (chain_induction nil tuple data us)
  | [.other n] => exact data _ (by simp) (by simp) nil
  | [.ref n] => exact data _ (by simp) (by simp) nil
  | t :: t2 :: rest =>
    exact data _ (by simp) (by simp) (chain_induction nil tuple data (t :: t2 :: rest).dropLast)
termination_by sizeOf ts
decreasing_by
  · exact sizeOf_lt_tuple us
  · exact sizeOf_dropLast t (t2 :: rest)

/-- The list inside tuple types of one element that are nested in each other. -/
def core : List Ty → List Ty
  | [.tuple us] => core us
  | ts => ts
termination_by ts => sizeOf ts

theorem core_tuple (us : List Ty) : core [.tuple us] = core us := by
  rw [core]

theorem core_of_ne {ts : List Ty} (hts : ∀ us, ts ≠ [.tuple us]) : core ts = ts := by
  rw [core]
  rintro us rfl
  exact hts us rfl

theorem sizeOf_core_le (ts : List Ty) : sizeOf (core ts) ≤ sizeOf ts := by
  induction ts using chain_induction with
  | nil => rw [core_of_ne fun us h => by cases h]
  | tuple us ih =>
    rw [core_tuple]
    exact Nat.le_trans ih (Nat.le_of_lt (sizeOf_lt_tuple us))
  | data ts _ hts _ => rw [core_of_ne hts]

namespace TeaCup

variable {R : TupleRules V} {ts us : List Ty} {lambda : Lambda V} {cup : TeaCup V}

theorem make_nil : make R [] lambda = some .empty := by
  rw [make]

theorem make_tuple : make R [.tuple us] lambda = (make R us lambda).map (.ofTuple us) := by
  rw [make]
  cases make R us lambda <;> rfl

/-- A class of the template is made of its function and of the class for the shorter list. -/
theorem make_data (hne : ts ≠ []) (hts : ∀ us, ts ≠ [.tuple us]) :
    make R ts lambda = (toFunction R ts lambda).bind fun m_lambda =>
      (funcRemoveData R ts).bind fun remove =>
        (make R ts.dropLast ⟨ts.dropLast, fun () => (m_lambda ()).bind remove⟩).map fun base =>
          .data ts m_lambda (.ofTuple ts.dropLast base) := by
  cases ts with
  | nil => exact absurd rfl hne
  | cons t rest =>
    rw [make]
    · cases toFunction R (t :: rest) lambda with
      | none => rfl
      | some f =>
        cases funcRemoveData R (t :: rest) with
        | none => rfl
        | some remove =>
          simp only [Option.bind_eq_bind, Option.bind_some]
          split
          · rename_i us h
            rw [removeLastType_eq] at h
            cases h
            cases make R (t :: rest).dropLast _ <;> rfl
          · rename_i hno
            exact absurd (removeLastType_eq (t :: rest)) (hno _)
    · rintro us rfl rfl
      exact hts us rfl

theorem make_data_some (hne : ts ≠ []) (hts : ∀ us, ts ≠ [.tuple us]) :
    make R ts lambda = some cup ↔ ∃ m_lambda remove base, toFunction R ts lambda = some m_lambda ∧
      funcRemoveData R ts = some remove ∧
      make R ts.dropLast ⟨ts.dropLast, fun () => (m_lambda ()).bind remove⟩ = some base ∧
      cup = .data ts m_lambda (.ofTuple ts.dropLast base) := by
  rw [make_data hne hts]
  simp only [Option.bind_eq_some_iff, Option.map_eq_some_iff]
  constructor
  · rintro ⟨f, hf, remove, hr, base, hb, rfl⟩
    exact ⟨f, remove, base, hf, hr, hb, rfl⟩
  · rintro ⟨f, remove, base, hf, hr, hb, rfl⟩
    exact ⟨f, hf, remove, hr, base, hb, rfl⟩

/-- The lists that have a class in the chain though they do not begin `ts`, and
the one that begins it but whose class is the specialization for a tuple. -/
inductive Hidden : List Ty → List Ty → Prop
  /-- The class that only marks a shorter list. -/
  | marker {ts p : List Ty} (hp : p <+: ts) (hne : p ≠ ts) : Hidden ts [.tuple p]
  | first (us rest : List Ty) : Hidden (.tuple us :: rest) [.tuple us]
  | inside {us ts rest : List Ty} (hp : us <+: ts) (hne : us ≠ []) : Hidden (.tuple ts :: rest) us
  | deeper {us ts rest : List Ty} (h : Hidden ts us) : Hidden (.tuple ts :: rest) us

theorem prefix_iff_dropLast (hne : ts ≠ []) : us <+: ts ↔ us = ts ∨ us <+: ts.dropLast := by
  conv_lhs => rw [← List.dropLast_concat_getLast hne]
  rw [List.prefix_concat_iff, List.dropLast_concat_getLast hne]

theorem dropLast_ne_self (hne : ts ≠ []) : ts.dropLast ≠ ts := fun h => by
  have hlen := congrArg List.length h
  have hpos := List.length_pos_of_ne_nil hne
  rw [List.length_dropLast] at hlen
  omega

/-- The first type of a list that is no single tuple stays when the last one goes. -/
theorem cons_dropLast {t : Ty} {rest : List Ty} (hts : ∀ us, t :: rest ≠ [.tuple us])
    (ht : ∃ us, t = .tuple us) : (t :: rest).dropLast = t :: rest.dropLast := by
  obtain ⟨us, rfl⟩ := ht
  cases rest with
  | nil => exact absurd rfl (hts us)
  | cons t2 rest => rfl

theorem Hidden.append {xs : List Ty} (h : Hidden ts us) : Hidden (ts ++ xs) us := by
  cases h with
  | marker hp hne =>
    refine .marker (hp.trans (List.prefix_append _ _)) fun he => hne ?_
    have hlen := hp.length_le
    rw [he, List.length_append] at hlen
    have hxs : xs = [] := List.length_eq_zero_iff.mp (by omega)
    rw [he, hxs, List.append_nil]
  | first us rest => exact .first us _
  | inside hp hne => exact .inside hp hne
  | deeper h => exact .deeper h

theorem Hidden.ne_nil (h : Hidden ts us) : us ≠ [] := by
  induction h with
  | marker => exact List.cons_ne_nil _ _
  | first => exact List.cons_ne_nil _ _
  | inside _ hne => exact hne
  | deeper _ ih => exact ih

theorem hidden_iff (hne : ts ≠ []) (hts : ∀ us, ts ≠ [.tuple us]) :
    Hidden ts us ↔ us = [.tuple ts.dropLast] ∨ Hidden ts.dropLast us := by
  constructor
  · intro h
    cases h with
    | @marker _ p hp hpne =>
      rcases (prefix_iff_dropLast hne).mp hp with h | h
      · exact absurd h hpne
      · by_cases he : p = ts.dropLast
        · exact Or.inl (by rw [he])
        · exact Or.inr (.marker h he)
    | first us rest =>
      rw [cons_dropLast hts ⟨us, rfl⟩]
      exact Or.inr (.first us _)
    | inside hp hne =>
      rw [cons_dropLast hts ⟨_, rfl⟩]
      exact Or.inr (.inside hp hne)
    | deeper h =>
      rw [cons_dropLast hts ⟨_, rfl⟩]
      exact Or.inr (.deeper h)
  · rintro (rfl | h)
    · exact .marker (List.dropLast_prefix ts) (dropLast_ne_self hne)
    · rw [← List.dropLast_concat_getLast hne]
      exact h.append

theorem hidden_tuple_iff {ts : List Ty} : us <+: [.tuple ts] ∨ Hidden [.tuple ts] us ↔
    us = [.tuple ts] ∨ us <+: ts ∨ Hidden ts us := by
  constructor
  · rintro (h | h)
    · rcases (prefix_iff_dropLast (by simp)).mp h with h | h
      · exact Or.inl h
      · rw [List.prefix_nil.mp h]
        exact Or.inr (Or.inl (List.nil_prefix))
    · cases h with
      | @marker _ p hp hpne =>
        rcases (prefix_iff_dropLast (by simp)).mp hp with h | h
        · exact absurd h hpne
        · rw [List.prefix_nil.mp h]
          cases ts with
          | nil => exact Or.inl rfl
          | cons t ts => exact Or.inr (Or.inr (.marker List.nil_prefix (by simp)))
      | first us rest => exact Or.inl rfl
      | inside hp hne => exact Or.inr (Or.inl hp)
      | deeper h => exact Or.inr (Or.inr h)
  · rintro (rfl | h | h)
    · exact Or.inl (List.prefix_refl _)
    · by_cases hus : us = []
      · rw [hus]
        exact Or.inl List.nil_prefix
      · exact Or.inr (.inside h hus)
    · exact Or.inr (.deeper h)

/-- A class is a base of `TeaCup<ts...>` for the lists that begin `ts`, and for
the hidden ones. -/
theorem dynamicCast_iff (hmake : make R ts lambda = some cup) :
    (cup.dynamicCast us).isSome = true ↔ us <+: ts ∨ Hidden ts us := by
  induction ts using chain_induction generalizing lambda cup with
  | nil =>
    rw [make_nil] at hmake
    cases hmake
    have hno : ¬ Hidden [] us := by
      rintro ⟨hp, hne⟩
      exact hne (List.prefix_nil.mp hp)
    by_cases h : us = [] <;> simp [dynamicCast, h, hno]
  | tuple ts ih =>
    rw [make_tuple, Option.map_eq_some_iff] at hmake
    obtain ⟨base, hbase, rfl⟩ := hmake
    rw [hidden_tuple_iff, ← ih hbase]
    by_cases h : us = [.tuple ts] <;> simp [dynamicCast, h]
  | data ts hne hts ih =>
    obtain ⟨f, remove, base, _, _, hbase, rfl⟩ := (make_data_some hne hts).mp hmake
    rw [prefix_iff_dropLast hne, hidden_iff hne hts, or_or_or_comm, ← ih hbase]
    by_cases h : us = ts
    · simp [dynamicCast, h]
    · simp only [dynamicCast, if_neg h]
      by_cases h' : us = [.tuple ts.dropLast] <;> simp [h, h']

/-! ## Which classes are well formed -/

/-- A callable that returns a nested tuple type is taken by the function for the list
inside it, or by none, when that list is empty. -/
def Opens (R : TupleRules V) (rs us : List Ty) : Prop :=
  core us = [] ∨ ∃ t, core us = [t] ∧ (R.conv rs t).isSome = true

/-- Every shorter list is made from references. -/
def Strips (R : TupleRules V) (ts : List Ty) : Prop :=
  ∀ p, p <+: ts → p ≠ ts → (R.fromReferences p).isSome = true

theorem strips_nil : Strips R [] := fun _ hp hne => absurd (List.prefix_nil.mp hp) hne

theorem strips_single (t : Ty) : Strips R [t] := fun p hp hne => by
  rcases (prefix_iff_dropLast (List.cons_ne_nil _ _)).mp hp with h | h
  · exact absurd h hne
  · rw [List.prefix_nil.mp h]
    rfl

theorem strips_iff (hne : ts ≠ []) :
    Strips R ts ↔ (R.fromReferences ts.dropLast).isSome = true ∧ Strips R ts.dropLast := by
  constructor
  · refine fun h => ⟨h _ (List.dropLast_prefix ts) (dropLast_ne_self hne), fun p hp _ => ?_⟩
    refine h p (hp.trans (List.dropLast_prefix ts)) fun he => ?_
    have hlen := hp.length_le
    have hpos := List.length_pos_of_ne_nil hne
    rw [he, List.length_dropLast] at hlen
    omega
  · rintro ⟨hlast, h⟩ p hp hpne
    have hp := ((prefix_iff_dropLast hne).mp hp).resolve_left hpne
    by_cases he : p = ts.dropLast
    · rw [he]
      exact hlast
    · exact h p hp he

/-- The class for a list inside the tuple type that the callable returns. -/
theorem make_inside (hsize : sizeOf us < sizeOf lambda.result) :
    (make R us lambda).isSome = true ↔ Opens R lambda.result us := by
  induction us using chain_induction with
  | nil =>
    rw [make_nil]
    exact iff_of_true rfl (Or.inl (core_of_ne fun us h => by cases h))
  | tuple us ih =>
    have hsize' := Nat.lt_trans (sizeOf_lt_tuple us) hsize
    rw [make_tuple, Option.isSome_map, ih hsize']
    unfold Opens
    rw [core_tuple]
  | data us hne hts _ =>
    have hres : lambda.result ≠ us := fun he => by
      rw [he] at hsize
      exact Nat.lt_irrefl _ hsize
    unfold Opens
    rw [core_of_ne hts, make_data hne hts, toFunction]
    by_cases hlen : us.length = 1
    · obtain ⟨t, rfl⟩ := List.length_eq_one_iff.mp hlen
      obtain ⟨remove, hremove⟩ := Option.isSome_iff_exists.mp
        ((funcRemoveData_isSome R [t]).trans rfl)
      rw [R.convert_single hres, hremove]
      cases hc : R.conv lambda.result t with
      | none => simp [hc]
      | some f => simp [hc, make_nil]
    · rw [R.convert_several hres hlen]
      refine iff_of_false Bool.false_ne_true fun h => ?_
      rcases h with h | ⟨t, h, _⟩
      · exact hne h
      · exact hlen (congrArg List.length h)

/-- An object can be made from a callable that returns its own list. -/
theorem make_own (hres : lambda.result = ts) : (make R ts lambda).isSome = true ↔
    Strips R ts ∧ ∀ us, ts.head? = some (.tuple us) → Opens R [.tuple us] us := by
  induction ts using chain_induction generalizing lambda with
  | nil =>
    rw [make_nil]
    exact iff_of_true rfl ⟨strips_nil, fun us h => by cases h⟩
  | tuple us _ =>
    have hsize : sizeOf us < sizeOf lambda.result := hres ▸ sizeOf_lt_tuple us
    rw [make_tuple, Option.isSome_map, make_inside hsize, hres]
    refine ⟨fun h => ⟨strips_single _, fun us' he => ?_⟩, fun h => h.2 us rfl⟩
    cases he
    exact h
  | data ts hne hts ih =>
    have hhead : (∀ us, ts.dropLast.head? = some (.tuple us) → Opens R [.tuple us] us) ↔
        ∀ us, ts.head? = some (.tuple us) → Opens R [.tuple us] us := by
      cases ts with
      | nil => exact absurd rfl hne
      | cons t rest =>
        cases t with
        | tuple us => rw [cons_dropLast hts ⟨us, rfl⟩, List.head?_cons, List.head?_cons]
        | _ => cases rest <;> simp
    rw [make_data hne hts, toFunction, hres, TupleRules.convert_self, strips_iff hne, ← hhead,
      and_assoc, ← funcRemoveData_isSome]
    cases funcRemoveData R ts with
    | none => simp
    | some remove =>
      simp only [Option.map_some, Option.bind_some, Option.isSome_map, Option.isSome_some, true_and]
      exact ih rfl

/-- What the class of a signal has to meet. -/
structure WellFormed (R : TupleRules V) (ts : List Ty) : Prop where
  copies : ∀ t ∈ ts, R.copies t = true
  strips : Strips R ts
  opens : ∀ us, ts.head? = some (.tuple us) → Opens R [.tuple us] us

theorem make_of_teaCupData {args : List V} (h : teaCupData R ts args = some cup) :
    make R ts ⟨ts, fun () => some args⟩ = some cup := by
  unfold teaCupData at h
  split at h
  · exact h
  · cases h

theorem teaCupData_isSome {args : List V} :
    (teaCupData R ts args).isSome = true ↔ WellFormed R ts := by
  have hmake : (make R ts ⟨ts, fun () => some args⟩).isSome = true ↔ _ := make_own rfl
  unfold teaCupData
  by_cases hall : ts.all R.copies = true
  · rw [if_pos hall, hmake]
    exact ⟨fun h => ⟨List.all_eq_true.mp hall, h.1, h.2⟩, fun h => ⟨h.strips, h.opens⟩⟩
  · rw [if_neg hall]
    exact iff_of_false Bool.false_ne_true fun h => hall (List.all_eq_true.mpr h.copies)

end TeaCup

end CsSignal
