-- What a slot with fewer parameters than its signal is called with: the base that the
-- cast finds, and the values that this base returns.
import CsSignal.TeaCup

namespace CsSignal

variable {V : Type}

namespace TeaCup

variable {R : TupleRules V} {ts us : List Ty} {lambda : Lambda V} {cup : TeaCup V}

/-! ## The values -/

/-- Every object has `TeaCup<>` as a base. -/
theorem dynamicCast_nil (hmake : make R ts lambda = some cup) :
    cup.dynamicCast [] = some .empty := by
  induction ts using chain_induction generalizing lambda cup with
  | nil =>
    rw [make_nil] at hmake
    cases hmake
    rfl
  | tuple ts ih =>
    rw [make_tuple, Option.map_eq_some_iff] at hmake
    obtain ⟨base, hbase, rfl⟩ := hmake
    simp [dynamicCast, ih hbase]
  | data ts hne hts ih =>
    obtain ⟨f, remove, base, _, _, hbase, rfl⟩ := (make_data_some hne hts).mp hmake
    simp [dynamicCast, Ne.symm hne, ih hbase]

/-- The values of a shorter list: a single one that is left may have been made from the tuple. -/
def stripped (R : TupleRules V) (ts us : List Ty) (values : List V) : List V :=
  if us = ts then values else (R.fromReferences us).elim values fun f => f values

theorem stripped_self {values : List V} : stripped R ts ts values = values := if_pos rfl

theorem stripped_several {values : List V} (hus : us.length ≠ 1) :
    stripped R ts us values = values := by
  unfold stripped
  split
  · rfl
  · cases hf : R.fromReferences us with
    | none => rfl
    | some f => rw [R.fromReferences_several hus hf, Option.elim_some, id]

theorem stripped_length (values : List V) :
    (stripped R ts us values).length = values.length := by
  unfold stripped
  split
  · rfl
  · cases hf : R.fromReferences us with
    | none => rfl
    | some f => exact R.fromReferences_length hf values

/-- Stripping twice is stripping once. -/
theorem stripped_stripped {p : List Ty} {args : List V} (hus : us <+: p) (hp : p <+: ts)
    (hlen : args.length = ts.length) :
    stripped R p us ((stripped R ts p (args.take p.length)).take us.length) =
      stripped R ts us (args.take us.length) := by
  have hlep := hp.length_le
  by_cases hup : us = p
  · have hall : (stripped R ts p (args.take p.length)).length = p.length := by
      rw [stripped_length, List.length_take, hlen]
      omega
    rw [hup, stripped_self, List.take_of_length_le (Nat.le_of_eq hall)]
  · have hlt : us.length < p.length :=
      Nat.lt_of_le_of_ne hus.length_le fun h => hup (hus.eq_of_length h)
    have hut : us ≠ ts := fun h => by
      rw [h] at hlt
      omega
    by_cases hone : p.length = 1
    · have hnil : us = [] := List.length_eq_zero_iff.mp (by omega)
      have hempty : ∀ q, stripped R q [] ([] : List V) = [] := fun q =>
        stripped_several Nat.zero_ne_one
      rw [hnil, List.length_nil, List.take_zero, List.take_zero, hempty, hempty]
    · rw [stripped_several hone, List.take_take, Nat.min_eq_left hus.length_le, stripped, stripped,
        if_neg hup, if_neg hut]

/-- The class that holds values, and its base, in which the last one is missing. -/
theorem make_values {args : List V} (hlen : args.length = ts.length) (hne : ts ≠ [])
    (hts : ∀ us, ts ≠ [.tuple us]) (hmake : make R ts ⟨ts, fun () => some args⟩ = some cup) :
    ∃ base, make R ts.dropLast ⟨ts.dropLast, fun () =>
        some (stripped R ts ts.dropLast (args.take ts.dropLast.length))⟩ = some base ∧
      cup = .data ts (fun () => some args) (.ofTuple ts.dropLast base) := by
  obtain ⟨m_lambda, remove, base, hf, hr, hbase, rfl⟩ := (make_data_some hne hts).mp hmake
  obtain ⟨f, href, hremove⟩ := funcRemoveData_eq hr
  rw [toFunction, R.convert_self] at hf
  cases hf
  refine ⟨base, ?_, rfl⟩
  rw [stripped, if_neg (dropLast_ne_self hne), href, Option.elim_some, ← hbase]
  simp only [Option.map_some, id, Option.bind_some, hremove args hlen]

theorem ne_tuple_dropLast (hus : us <+: ts) (hts : ∀ xs, ts ≠ [.tuple xs]) :
    us ≠ [.tuple ts.dropLast] := by
  rintro rfl
  obtain ⟨rest, he⟩ := hus
  generalize hp : ts.dropLast = p at he
  subst he
  cases rest with
  | nil => exact hts _ rfl
  | cons t rest =>
    have hsize := congrArg sizeOf hp
    simp only [List.singleton_append, List.dropLast_cons_cons, List.cons.sizeOf_spec,
      Ty.tuple.sizeOf_spec] at hsize
    omega

/-- The base for a list that begins the list of the signal returns the leading values, or was
built from a callable that returns them. -/
theorem cast_of_begins {args : List V} (hlen : args.length = ts.length)
    (hmake : make R ts ⟨ts, fun () => some args⟩ = some cup) (hus : us <+: ts) :
    ∃ base, cup.dynamicCast us = some base ∧
      make R us ⟨us, fun () => some (stripped R ts us (args.take us.length))⟩ = some base := by
  induction ts using chain_induction generalizing cup args with
  | nil =>
    rw [List.prefix_nil.mp hus]
    exact ⟨.empty, dynamicCast_nil hmake, make_nil⟩
  | tuple ts _ =>
    rcases (prefix_iff_dropLast (by simp)).mp hus with rfl | h
    · rw [stripped_self, ← hlen, List.take_length]
      rw [make_tuple, Option.map_eq_some_iff] at hmake
      obtain ⟨base, hbase, rfl⟩ := hmake
      exact ⟨_, if_pos rfl, by rw [make_tuple, hbase]; rfl⟩
    · rw [List.prefix_nil.mp h]
      exact ⟨.empty, dynamicCast_nil hmake, make_nil⟩
  | data ts hne hts ih =>
    obtain ⟨base, hbase, rfl⟩ := make_values hlen hne hts hmake
    rcases (prefix_iff_dropLast hne).mp hus with rfl | h
    · rw [stripped_self, ← hlen, List.take_length]
      exact ⟨_, if_pos rfl, hmake⟩
    · have hlast := List.dropLast_prefix ts
      have hself := dropLast_ne_self hne
      obtain ⟨b, hcast, hb⟩ := ih (by
        rw [stripped_length, List.length_take, hlen]
        exact Nat.min_eq_left hlast.length_le) hbase h
      rw [stripped_stripped h hlast hlen] at hb
      refine ⟨b, ?_, hb⟩
      have hts' : us ≠ ts := fun he => hself (List.IsPrefix.eq_of_length hlast
        (Nat.le_antisymm hlast.length_le (he ▸ h.length_le)))
      rw [dynamicCast, if_neg hts', dynamicCast, if_neg (ne_tuple_dropLast hus hts), hcast]

/-- An object that was built from its own values returns them, except where its class is the
specialization for a tuple. -/
theorem getData_own {values : List V} (hus : ∀ xs, us ≠ [.tuple xs])
    (hlen : values.length = us.length) {base : TeaCup V}
    (hmake : make R us ⟨us, fun () => some values⟩ = some base) :
    base.getData = some (us, values) := by
  by_cases hne : us = []
  · subst hne
    rw [make_nil] at hmake
    cases hmake
    rw [List.length_eq_zero_iff.mp hlen]
    rfl
  · obtain ⟨b, _, rfl⟩ := make_values hlen hne hus hmake
    rfl

/-- The object inside that specialization returns the list at the core. -/
theorem getData_inside {values : List V} (hsize : sizeOf us < sizeOf lambda.result)
    (hcall : lambda.call () = some values) (hmake : make R us lambda = some cup) :
    (core us = [] ∧ cup.getData = some ([], [])) ∨
      ∃ t f, core us = [t] ∧ R.conv lambda.result t = some f ∧
        cup.getData = some ([t], [f values]) := by
  induction us using chain_induction generalizing cup with
  | nil =>
    rw [make_nil] at hmake
    cases hmake
    exact Or.inl ⟨core_of_ne (by simp), rfl⟩
  | tuple us ih =>
    rw [make_tuple, Option.map_eq_some_iff] at hmake
    obtain ⟨base, hbase, rfl⟩ := hmake
    have hinner := ih (Nat.lt_trans (sizeOf_lt_tuple us) hsize) hbase
    rw [core_tuple]
    exact hinner
  | data us hne hts _ =>
    have hres : lambda.result ≠ us := fun he => by
      rw [he] at hsize
      exact Nat.lt_irrefl _ hsize
    obtain ⟨m_lambda, remove, base, hf, _, _, rfl⟩ := (make_data_some hne hts).mp hmake
    rw [core_of_ne hts]
    by_cases hlen : us.length = 1
    · obtain ⟨t, rfl⟩ := List.length_eq_one_iff.mp hlen
      rw [toFunction, R.convert_single hres, Option.map_map] at hf
      obtain ⟨f, hc, rfl⟩ := Option.map_eq_some_iff.mp hf
      exact Or.inr ⟨t, f, rfl, hc, by simp [getData, hcall]⟩
    · rw [toFunction, R.convert_several hres hlen] at hf
      cases hf

theorem getData_of_begins {args : List V} (hlen : args.length = ts.length)
    (hmake : make R ts ⟨ts, fun () => some args⟩ = some cup) (hus : us <+: ts)
    (hvis : ∀ xs, us ≠ [.tuple xs]) : ∃ base, cup.dynamicCast us = some base ∧
      base.getData = some (us, stripped R ts us (args.take us.length)) := by
  obtain ⟨base, hcast, hbase⟩ := cast_of_begins hlen hmake hus
  refine ⟨base, hcast, getData_own hvis ?_ hbase⟩
  rw [stripped_length, List.length_take, hlen]
  exact Nat.min_eq_left hus.length_le

theorem sizeOf_of_begins {p : List Ty} (hp : p <+: ts) (hne : p ≠ ts) :
    sizeOf p + 2 ≤ sizeOf ts := by
  induction p generalizing ts with
  | nil =>
    cases ts with
    | nil => exact absurd rfl hne
    | cons t ts =>
      have ht : 0 < sizeOf t := by
        cases t <;> simp only [Ty.other.sizeOf_spec, Ty.ref.sizeOf_spec, Ty.tuple.sizeOf_spec]
          <;> omega
      have hts : 0 < sizeOf ts := by
        cases ts <;> simp only [List.nil.sizeOf_spec, List.cons.sizeOf_spec] <;> omega
      simp only [List.nil.sizeOf_spec, List.cons.sizeOf_spec]
      omega
  | cons t p ih =>
    cases ts with
    | nil => exact absurd hp (by simp)
    | cons t' ts =>
      obtain ⟨rfl, hp'⟩ := List.cons_prefix_cons.mp hp
      have := ih hp' fun h => hne (by rw [h])
      simp only [List.cons.sizeOf_spec]
      omega

theorem Hidden.sizeOf_le (h : Hidden ts us) : sizeOf us ≤ sizeOf ts + 1 := by
  induction h with
  | marker hp hne =>
    have := sizeOf_of_begins hp hne
    simp only [List.nil.sizeOf_spec, List.cons.sizeOf_spec, Ty.tuple.sizeOf_spec]
    omega
  | first us rest =>
    simp only [List.nil.sizeOf_spec, List.cons.sizeOf_spec, Ty.tuple.sizeOf_spec]
    omega
  | @inside us ts rest hp hne =>
    have : sizeOf us ≤ sizeOf ts := by
      by_cases h : us = ts
      · rw [h]
      · exact Nat.le_of_add_right_le (sizeOf_of_begins hp h)
    simp only [List.cons.sizeOf_spec, Ty.tuple.sizeOf_spec]
    omega
  | deeper h ih =>
    simp only [List.cons.sizeOf_spec, Ty.tuple.sizeOf_spec]
    omega

/-- A hidden list that begins the list of the signal is its first type, a tuple. -/
theorem Hidden.of_begins (h : Hidden ts us) (hp : us <+: ts) : ∃ xs, us = [.tuple xs] := by
  have hbig : ∀ {xs rest : List Ty}, us <+: .tuple xs :: rest → us ≠ [] →
      sizeOf us ≤ sizeOf xs + 1 → False := by
    intro xs rest hp hne hsize
    obtain ⟨t, us', rfl⟩ := List.exists_cons_of_ne_nil hne
    obtain ⟨rfl, _⟩ := List.cons_prefix_cons.mp hp
    simp only [List.cons.sizeOf_spec, Ty.tuple.sizeOf_spec] at hsize
    omega
  cases h with
  | @marker _ p _ _ => exact ⟨p, rfl⟩
  | first us rest => exact ⟨us, rfl⟩
  | @inside _ ts rest hi hne =>
    refine (hbig hp hne ?_).elim
    by_cases h : us = ts
    · rw [h]
      exact Nat.le_succ _
    · have := sizeOf_of_begins hi h
      omega
  | @deeper _ ts rest h =>
    refine (hbig hp ?_ h.sizeOf_le).elim
    rintro rfl
    exact h.ne_nil rfl

/-- The first type of a list, if it is a tuple, is always hidden. -/
theorem Hidden.of_first {xs : List Ty} (hp : [.tuple xs] <+: ts) : Hidden ts [.tuple xs] := by
  obtain ⟨rest, rfl⟩ := hp
  exact .first xs rest

end TeaCup

/-! ## Slots with fewer parameters -/

open TeaCup

/-- A slot with the parameters `us` at a signal with the parameters `ts`: the
classes are well formed, the check and the cast accept the slot when `us` begins
`ts`, and then `getData` returns the leading arguments. -/
structure LeadingArguments (R : TupleRules V) (ts us : List Ty) : Prop where
  wellFormed : ∀ args, (teaCupData R ts args).isSome = true
  accepted : csCheckConnectArgs ts us = some true ↔ us <+: ts
  cast : ∀ args cup, teaCupData R ts args = some cup →
    ((cup.dynamicCast us).isSome = true ↔ us <+: ts)
  data : ∀ args cup, args.length = ts.length → teaCupData R ts args = some cup → us <+: ts →
    ∃ base, cup.dynamicCast us = some base ∧ base.getData = some (us, args.take us.length)

/-- The first value of several is the same when it is the only one that is left. -/
def KeepsFirst (R : TupleRules V) (ts us : List Ty) : Prop :=
  ∀ t f, us = [t] → us <+: ts → us ≠ ts → R.single t = some f → ∀ v, f v = v

theorem stripped_of_keepsFirst {R : TupleRules V} {ts us : List Ty} (h : KeepsFirst R ts us)
    (hus : us <+: ts) {values : List V} (hlen : values.length = us.length) :
    stripped R ts us values = values := by
  by_cases hone : us.length = 1
  · obtain ⟨t, rfl⟩ := List.length_eq_one_iff.mp hone
    obtain ⟨v, rfl⟩ := List.length_eq_one_iff.mp hlen
    unfold stripped
    split
    · rfl
    · rename_i hne
      cases hs : R.single t with
      | none => simp [TupleRules.fromReferences, hs]
      | some f => simp [TupleRules.fromReferences, hs, h t f rfl hus hne hs v]
  · exact stripped_several hone

theorem LeadingArguments.visible [Inhabited V] {R : TupleRules V} {ts us : List Ty}
    (h : LeadingArguments R ts us) : ¬ Hidden ts us := by
  intro hhid
  let args : List V := List.replicate ts.length default
  have hlen : args.length = ts.length := List.length_replicate
  obtain ⟨cup, hcup⟩ := Option.isSome_iff_exists.mp (h.wellFormed args)
  have hmake := make_of_teaCupData hcup
  have hus := (h.cast args cup hcup).mp ((dynamicCast_iff hmake).mpr (Or.inr hhid))
  -- the list is a single tuple type, whose class returns the list at its core
  obtain ⟨xs, rfl⟩ := hhid.of_begins hus
  obtain ⟨base, hcast, hbase⟩ := cast_of_begins hlen hmake hus
  obtain ⟨base', hcast', hget⟩ := h.data args cup hlen hcup hus
  obtain rfl : base = base' := Option.some.inj (hcast.symm.trans hcast')
  rw [make_tuple, Option.map_eq_some_iff] at hbase
  obtain ⟨b, hb, rfl⟩ := hbase
  have hsize := sizeOf_lt_tuple xs
  have hcore : core xs = [.tuple xs] := by
    rcases getData_inside hsize rfl hb with ⟨hc, hget'⟩ | ⟨t, f, hc, _, hget'⟩ <;>
    · rw [hc]
      exact (Prod.mk.inj (Option.some.inj (hget'.symm.trans hget))).1
  have hle := sizeOf_core_le xs
  rw [hcore] at hle
  omega

theorem LeadingArguments.keepsFirst [Inhabited V] {R : TupleRules V} {ts us : List Ty}
    (h : LeadingArguments R ts us) : KeepsFirst R ts us := by
  rintro t f rfl hus hne hf v
  obtain ⟨rest, rfl⟩ := hus
  have hus : [t] <+: [t] ++ rest := List.prefix_append _ _
  let args : List V := v :: List.replicate rest.length default
  have hlen : args.length = ([t] ++ rest).length := by simp [args]
  obtain ⟨cup, hcup⟩ := Option.isSome_iff_exists.mp (h.wellFormed args)
  have hvis : ∀ xs, [t] ≠ [.tuple xs] := fun xs he => by
    cases he
    exact h.visible (.of_first hus)
  obtain ⟨base, hcast, hget⟩ := getData_of_begins hlen (make_of_teaCupData hcup) hus hvis
  obtain ⟨base', hcast', hget'⟩ := h.data args cup hlen hcup hus
  obtain rfl : base = base' := Option.some.inj (hcast.symm.trans hcast')
  have hvalues := (Prod.mk.inj (Option.some.inj (hget.symm.trans hget'))).2
  rw [stripped, if_neg hne, TupleRules.fromReferences, hf] at hvalues
  exact (List.cons.inj hvalues).1

/-- The two recursions agree, and the slot gets the leading arguments, exactly
for the lists whose class is well formed, none of which is hidden, and whose first
value is not made from a tuple. -/
theorem leading_arguments [Inhabited V] (R : TupleRules V) (ts us : List Ty) :
    LeadingArguments R ts us ↔ WellFormed R ts ∧ ¬ Hidden ts us ∧ KeepsFirst R ts us := by
  constructor
  · exact fun h => ⟨teaCupData_isSome.mp (h.wellFormed []), h.visible, h.keepsFirst⟩
  · rintro ⟨hwf, hvis, hfirst⟩
    refine ⟨fun args => teaCupData_isSome.mpr hwf, csCheckConnectArgs_iff ts us,
      fun args cup hcup => ?_, fun args cup hlen hcup hus => ?_⟩
    · rw [dynamicCast_iff (make_of_teaCupData hcup)]
      exact or_iff_left hvis
    · have hne : ∀ xs, us ≠ [.tuple xs] := by
        rintro xs rfl
        exact hvis (.of_first hus)
      obtain ⟨base, hcast, hget⟩ := getData_of_begins hlen (make_of_teaCupData hcup) hus hne
      refine ⟨base, hcast, ?_⟩
      rw [hget, stripped_of_keepsFirst hfirst hus]
      rw [List.length_take, hlen]
      exact Nat.min_eq_left hus.length_le

/-- Types that copy, and convert to themselves only. -/
def plainTypes : TupleRules V where
  copies _ := true
  copiesImplicitly _ := true
  ofReference _ := some id
  conv _ _ := none

theorem plainTypes_wellFormed {ts : List Ty} (hts : ∀ us, ts.head? ≠ some (.tuple us)) :
    WellFormed (plainTypes : TupleRules V) ts where
  copies _ _ := rfl
  strips p _ _ := by
    have hconverts : ∀ t, (plainTypes : TupleRules V).converts t = true := fun t => by
      cases t <;> rfl
    match p with
    | [] => rfl
    | [t] => cases t <;> rfl
    | t :: t2 :: ts => simp [TupleRules.fromReferences, hconverts]
  opens us h := absurd h (hts us)

/-- A signal with three parameters, the second one a tuple, and a slot with two. -/
theorem leading_arguments_two :
    LeadingArguments (plainTypes : TupleRules Nat) [.other 0, .tuple [.other 1], .ref 2]
      [.other 0, .tuple [.other 1]] := by
  refine (leading_arguments plainTypes _ _).mpr ⟨plainTypes_wellFormed (by simp), ?_, ?_⟩
  · exact fun h => nomatch h
  · exact fun _ _ h => nomatch h

/-- The class for a signal whose one parameter is a tuple is not well formed, and
the class for one plain parameter can be cast to that of an empty tuple. -/
theorem leading_arguments_tuple :
    ¬ LeadingArguments (plainTypes : TupleRules Nat) [.tuple [.other 0]] [.tuple [.other 0]] ∧
      ¬ LeadingArguments (plainTypes : TupleRules Nat) [.other 0] [.tuple []] := by
  constructor
  · intro h
    have hopens := (teaCupData_isSome.mp (h.wellFormed [0])).opens _ rfl
    rw [Opens, core_of_ne (by simp)] at hopens
    simp [plainTypes] at hopens
  · intro h
    obtain ⟨cup, hcup⟩ := Option.isSome_iff_exists.mp (h.wellFormed [0])
    have hno := (h.cast [0] cup hcup).mp ((dynamicCast_iff (make_of_teaCupData hcup)).mpr
      (Or.inr (.marker List.nil_prefix (by simp))))
    exact absurd hno (by simp)

/-! ## The arguments of a call -/

namespace TupleRules

/-- What becomes of a single value on its way through the specialization for a tuple. -/
def reopened (R : TupleRules V) : Ty → Option (V → V)
  | .tuple us =>
    match core us with
    | [] => (R.conv [] (.tuple us)).map fun close _ => close []
    | [t] => do
      let inner ← R.conv [.tuple us] t
      let close ← R.conv [t] (.tuple us)
      some fun v => close [inner [v]]
    | _ => none
  | _ => some id

/-- What becomes of the first value when a slot takes no other one. -/
def first (R : TupleRules V) : List Ty → Option (V → V)
  | [] => none
  | t :: rest =>
    (if rest = [] then some id else R.single t).bind fun strip =>
      (R.reopened t).map fun reopen => reopen ∘ strip

theorem first_of_ref (R : TupleRules V) (name : Nat) (rest : List Ty) :
    R.first (.ref name :: rest) = some id := by
  rw [first]
  split <;> rfl

theorem reopened_of_nil {R : TupleRules V} {us : List Ty} (h : core us = []) :
    R.reopened (.tuple us) = (R.conv [] (.tuple us)).map fun close _ => close [] := by
  rw [reopened, h]

theorem reopened_of_single {R : TupleRules V} {us : List Ty} {t : Ty} {inner : List V → V}
    (h : core us = [t]) (hinner : R.conv [.tuple us] t = some inner) :
    R.reopened (.tuple us) =
      (R.conv [t] (.tuple us)).map fun close v => close [inner [v]] := by
  rw [reopened, h]
  simp only [hinner, Option.bind_eq_bind, Option.bind_some]
  cases R.conv [t] (.tuple us) <;> rfl

end TupleRules

/-- A slot with several parameters, or none, is called with the leading values. -/
theorem slotArgs_several {R : TupleRules V} {ts us : List Ty} {args : List V} {cup : TeaCup V}
    (hcup : teaCupData R ts args = some cup) (hlen : args.length = ts.length) (hus : us <+: ts)
    (hone : us.length ≠ 1) : cup.slotArgs R us = some (args.take us.length) := by
  have hne : ∀ xs, us ≠ [.tuple xs] := fun xs he => hone (by rw [he]; rfl)
  obtain ⟨base, hcast, hget⟩ := getData_of_begins hlen (make_of_teaCupData hcup) hus hne
  rw [stripped_several hone] at hget
  simp [slotArgs, hcast, hget, R.convert_self]

/-- The data that the specialization for a tuple returns, as that tuple again. -/
theorem getData_reopened {R : TupleRules V} {us : List Ty} {v : V} {base : TeaCup V}
    (hmake : make R us ⟨[.tuple us], fun () => some [v]⟩ = some base) :
    (base.getData.bind fun data => (R.convert data.1 [.tuple us]).map fun f => f data.2) =
      (R.reopened (.tuple us)).map fun f => [f v] := by
  have hsize := sizeOf_lt_tuple us
  have hle := sizeOf_core_le us
  rcases getData_inside hsize rfl hmake with ⟨hc, hget⟩ | ⟨t, inner, hc, hinner, hget⟩
  · rw [hget, Option.bind_some, R.convert_single (by simp), TupleRules.reopened_of_nil hc,
      Option.map_map, Option.map_map]
    rfl
  · have hne : [t] ≠ [.tuple us] := fun he => by
      rw [hc, he] at hle
      omega
    rw [hget, Option.bind_some, R.convert_single hne, TupleRules.reopened_of_single hc hinner,
      Option.map_map, Option.map_map]
    rfl

/-- Where the cast of the data pack was built from a single value. -/
theorem slotArgs_of_single {R : TupleRules V} {t : Ty} {v : V} {cup base : TeaCup V}
    (hcast : cup.dynamicCast [t] = some base)
    (hmake : make R [t] ⟨[t], fun () => some [v]⟩ = some base) :
    cup.slotArgs R [t] = (R.reopened t).map fun f => [f v] := by
  rw [slotArgs, hcast, Option.bind_some]
  by_cases htuple : ∃ us, t = .tuple us
  · obtain ⟨us, rfl⟩ := htuple
    rw [make_tuple, Option.map_eq_some_iff] at hmake
    obtain ⟨b, hb, rfl⟩ := hmake
    exact (getData_reopened hb :)
  · have hlen : [v].length = [t].length := rfl
    have hget := getData_own (fun us he => htuple ⟨us, (List.cons.inj he).1⟩) hlen hmake
    have hreopened : R.reopened t = some id := by
      cases t with
      | tuple us => exact absurd ⟨us, rfl⟩ htuple
      | _ => rfl
    rw [hget, hreopened, Option.bind_some, R.convert_self]
    rfl

/-- A slot with one parameter is called with the first value, or with what was made of it. -/
theorem slotArgs_first {R : TupleRules V} {t : Ty} {rest : List Ty} {v : V} {args : List V}
    {cup : TeaCup V} (hcup : teaCupData R (t :: rest) (v :: args) = some cup)
    (hlen : args.length = rest.length) :
    cup.slotArgs R [t] = (R.first (t :: rest)).map fun f => [f v] := by
  have hus : [t] <+: t :: rest := List.prefix_append [t] rest
  have hlen' : (v :: args).length = (t :: rest).length := congrArg (· + 1) hlen
  obtain ⟨base, hcast, hbase⟩ := cast_of_begins hlen' (make_of_teaCupData hcup) hus
  rw [List.length_singleton, List.take_succ_cons, List.take_zero] at hbase
  by_cases hrest : rest = []
  · subst hrest
    rw [stripped_self] at hbase
    rw [slotArgs_of_single hcast hbase, TupleRules.first, if_pos rfl, Option.bind_some,
      Option.map_map]
    rfl
  · have hne : [t] ≠ t :: rest := fun he => hrest (List.cons.inj he).2.symm
    have hwf := teaCupData_isSome.mp (Option.isSome_of_mem hcup)
    obtain ⟨f, hf⟩ := Option.isSome_iff_exists.mp (hwf.strips _ hus hne)
    obtain ⟨strip, hstrip, rfl⟩ := Option.map_eq_some_iff.mp hf
    rw [stripped, if_neg hne, hf, Option.elim_some, List.map_singleton] at hbase
    rw [slotArgs_of_single hcast hbase, TupleRules.first, if_neg hrest, hstrip, Option.bind_some,
      Option.map_map]
    rfl

end CsSignal
