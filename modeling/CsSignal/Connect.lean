-- What `connect` does to the lists of both sides.
import CsSignal.Disconnect

namespace CsSignal

open LinkedCells Calls RcuList

/-! ## The two appends -/

/-- A call of `connect` between `s` and `r`; `added` is the entry it appends. -/
structure ConnectDone (s : SenderId) (r : ReceiverId) (added : Option ConnectStruct)
    (w w' : World) : Prop where
  objects : SameObjects w w'
  allocs : w.allocs = none → w'.allocs = none
  own : ListStep (w.connectList s) (w'.connectList s)
  live : (w'.connectList s).toList = (w.connectList s).toList ++
    added.toList.map fun item => ((w.connectList s).nodeCount, item)
  count : (w'.connectList s).nodeCount = (w.connectList s).nodeCount + added.toList.length
  others : ∀ s', s' ≠ s → w'.connectList s' = w.connectList s'
  slots : w'.SlotsSound
  possible : w'.possible r = w.possible r ++ added.toList.map fun _ => s
  possible_ne : ∀ r', r' ≠ r → w'.possibleSenders r' = w.possibleSenders r'

/-- The append at the receiver, in a handle of its own. -/
theorem pushPossible_run {w : World} {s : SenderId} {r : ReceiverId} (hr : w.receiver r = true)
    (hR : Guarded (w.possibleSenders r) []) (ha : w.enough 2) :
    ∃ lR, (possibleSendersOf r).withHandle ((possibleSendersOf r).pushBack s) w =
        .returned () ((possibleSendersOf r).set (w.spend 2) lR) ∧
      Guarded lR [] ∧ lR.values = w.possible r ++ [s] := by
  let R := possibleSendersOf r
  obtain ⟨zr, hRr, _, _⟩ := id hR
  let w1 := R.set (w.spend 1) (R.get w).rcuReadLock.2
  have hg1 : R.get w1 = (R.get w).rcuReadLock.2 := R.get_set _ _
  have hR1 : Rep (R.get w1) (w.possibleSenders r).toList ((R.get w).guardEntry :: zr) := by
    rw [hg1]
    exact hRr.lock
  obtain ⟨l2, hrun2, hl2, hgrown, _⟩ := hR1.grown_pushBack s
  rw [hg1] at hgrown
  have hbody := R.pushBack_run (w := w1) hr
    ((R.enough_set).mpr (World.enough_spend (World.enough_mono ha (by omega)))) hrun2
  have hg2 : R.get (R.set (w1.spend 1) l2) = l2 := R.get_set _ _
  obtain ⟨lR, hun, hlR, hguard, _⟩ := hR.handle hgrown
  refine ⟨lR, ?_, hguard, ?_⟩
  · have := R.withHandle_run _ hr (World.enough_mono ha (by omega)) hbody (by rw [hg2]; exact hun)
    refine this.trans (congrArg (Outcome.returned ()) ?_)
    rw [R.set_set, ← R.set_spend, R.set_set, World.spend_spend]
  · rw [values_eq_of_toList (hlR.trans hl2), List.map_append]
    rfl

theorem addConnection_run {w : World} {s : SenderId} {r : ReceiverId} {sig slot : Bento}
    {type : ConnectionKind} {zs : List Entry} (hs : (w.sender s).isSome = true)
    (hr : w.receiver r = true) (hS : Rep (w.connectList s) (w.connectList s).toList zs)
    (hR : Guarded (w.possibleSenders r) []) (ha : w.enough 3) :
    ∃ lS lR, addConnection s sig r slot type w =
        .returned () ((possibleSendersOf r).set ((connectListOf s).set (w.spend 3) lS) lR) ∧
      (w.connectList s).pushBack ⟨sig, r, slot, type⟩ = .ok lS ∧
      Guarded lR [] ∧ lR.values = w.possible r ++ [s] := by
  obtain ⟨lS, hrunS, _⟩ := hS.grown_pushBack ⟨sig, r, slot, type⟩
  have h1 := (connectListOf s).pushBack_run (w := w) hs (World.enough_mono ha (by omega)) hrunS
  obtain ⟨lR, hrunR, hguard, hvals⟩ := pushPossible_run
    (w := (connectListOf s).set (w.spend 1) lS) (s := s) hr hR
    (((connectListOf s).enough_set).mpr (World.enough_spend ha))
  refine ⟨lS, lR, ?_, hrunS, hguard, hvals⟩
  unfold addConnection
  rw [bind_returned h1, hrunR, ← (connectListOf s).set_spend, World.spend_spend]

/-! ## The call -/

/-- The duplicate scan of `connect`. -/
theorem scanDuplicate_run {w : World} {s : SenderId} (same : ConnectStruct → Bool) {zs : List Entry}
    (hs : (w.sender s).isSome = true) (hS : Rep (w.connectList s) (w.connectList s).toList zs)
    (uniqueConnection : Bool) :
    ∃ found, scanDuplicate same s uniqueConnection w = .returned found w ∧
      found.isSome = (uniqueConnection && (w.conns s).any same) := by
  cases uniqueConnection with
  | false => exact ⟨none, rfl, rfl⟩
  | true =>
    let S := connectListOf s
    have hhead : (w.connectList s).head = (w.connectList s).toList.head?.map Prod.fst :=
      hS.nodes.head_eq
    have hfind := S.find_run (w := w) (p := same) hs (show Rep _ ([] ++ _) _ from hS)
      hS.nodes.length_le
    refine ⟨((w.connectList s).toList.find? fun x => same x.2).map Prod.fst, ?_, ?_⟩
    · rw [scanDuplicate, if_pos rfl, bind_returned (S.bound_run (w := w) hs), bind_returned (S.begin_run (w := w) hs)]
      show S.find same (w.connectList s).nodeCount (w.connectList s).head w = _
      rw [hhead]
      exact hfind
    · rw [Option.isSome_map, List.isSome_find?, Bool.true_and, World.conns, NodeList.values,
        List.any_map]
      rfl

section

variable {w : World} {same : ConnectStruct → Bool} {s : SenderId} {r : ReceiverId} {sig slot : Bento}
  {type : ConnectionKind} {uniqueConnection : Bool} {cs : List Cursor}

/-- A call of `connect` that finds the connection and appends nothing. -/
theorem connectUnless_found (hs : (w.sender s).isSome = true) (hS : Guarded (w.connectList s) cs)
    (hR : w.SlotsSound) (ha : w.enough 1)
    (hdup : (uniqueConnection && (w.conns s).any same) = true) :
    ∃ w', connectUnless same s sig r slot type uniqueConnection w = .returned false w' ∧
      ConnectDone s r none w w' := by
  let S := connectListOf s
  obtain ⟨zs, hrep, _, _⟩ := id hS
  let w1 := S.set (w.spend 1) (w.connectList s).rcuReadLock.2
  have hg1 : w1.connectList s = (w.connectList s).rcuReadLock.2 := S.get_set _ _
  have hlive1 : (w1.connectList s).toList = (w.connectList s).toList := by
    rw [hg1]
    exact hrep.lock.toList_eq
  have hr1 : Rep (w1.connectList s) (w1.connectList s).toList ((w.connectList s).guardEntry :: zs) := by
    rw [hlive1, hg1]
    exact hrep.lock
  obtain ⟨found, hscan, hfound⟩ := scanDuplicate_run (w := w1) same hs hr1 uniqueConnection
  rw [show w1.conns s = w.conns s from congrArg (List.map Prod.snd) hlive1, hdup] at hfound
  obtain ⟨l3, hun, hl3, hstep, hcount⟩ := hS.lookStep
  have hget : (S.set w1 l3).connectList s = l3 := S.get_set _ _
  refine ⟨S.set w1 l3, ?_, ⟨rfl, rfl, rfl, rfl, rfl, rfl⟩, fun ha => ?_, ?_, ?_, ?_, ?_, hR, ?_,
    fun _ _ => rfl⟩
  · refine S.withHandle_run _ hs ha ?_
      (by show (w1.connectList s).unlock _ = _; rw [hg1]; exact hun)
    refine (bind_returned hscan).trans ?_
    simp [hfound]
  · simp only [S, w1, connectListOf, World.spend, ha, Option.map_none]
  · rw [hget]
    exact hstep
  · rw [hget, hl3]
    simp
  · rw [hget, hcount]
    rfl
  · intro s' hs'
    simp only [S, w1, connectListOf, Function.update_of_ne hs', World.spend]
  · simp [World.possible, S, w1, connectListOf, World.spend]

/-- A call of `connect` that appends on both sides. -/
theorem connectUnless_added (hs : (w.sender s).isSome = true) (hr : w.receiver r = true)
    (hS : Guarded (w.connectList s) cs) (hR : w.SlotsSound) (ha : w.enough 4)
    (hdup : (uniqueConnection && (w.conns s).any same) = false) :
    ∃ w', connectUnless same s sig r slot type uniqueConnection w = .returned true w' ∧
      ConnectDone s r (some ⟨sig, r, slot, type⟩) w w' := by
  let S := connectListOf s
  let R := possibleSendersOf r
  obtain ⟨zs, hrep, _, _⟩ := id hS
  let w1 := S.set (w.spend 1) (w.connectList s).rcuReadLock.2
  have hg1 : w1.connectList s = (w.connectList s).rcuReadLock.2 := S.get_set _ _
  have hlive1 : (w1.connectList s).toList = (w.connectList s).toList := by
    rw [hg1]
    exact hrep.lock.toList_eq
  have hr1 : Rep (w1.connectList s) (w1.connectList s).toList ((w.connectList s).guardEntry :: zs) := by
    rw [hlive1, hg1]
    exact hrep.lock
  obtain ⟨found, hscan, hfound⟩ := scanDuplicate_run (w := w1) same hs hr1 uniqueConnection
  rw [show w1.conns s = w.conns s from congrArg (List.map Prod.snd) hlive1, hdup] at hfound
  obtain ⟨lS, lR, hadd, hpush, hguard, hvals⟩ := addConnection_run (w := w1) (s := s) (r := r)
    hs hr hr1 (hR r hr) ((S.enough_set).mpr (World.enough_spend ha))
  obtain ⟨lS', l3, hpush', hun, hl3, hstep, hcount⟩ := hS.pushStep ⟨sig, r, slot, type⟩
  rw [hg1, hpush', Except.ok.injEq] at hpush
  subst hpush
  set w2 := R.set (S.set (w1.spend 3) lS') lR with hw2
  have hget2 : w2.connectList s = lS' := by
    show (S.set (w1.spend 3) lS').connectList s = lS'
    exact S.get_set _ _
  have hget : (S.set w2 l3).connectList s = l3 := S.get_set _ _
  refine ⟨S.set w2 l3, ?_, ⟨rfl, rfl, rfl, rfl, rfl, rfl⟩, fun ha => ?_, ?_, ?_, ?_, ?_, ?_, ?_, ?_⟩
  · refine S.withHandle_run _ hs (World.enough_mono ha (by omega)) ?_
      (by show (w2.connectList s).unlock _ = _; rw [hget2]; exact hun)
    refine (bind_returned hscan).trans ?_
    simp only [hfound, Bool.false_eq_true, if_false]
    rw [bind_returned hadd]
    rfl
  · simp only [hw2, R, S, w1, connectListOf, possibleSendersOf, World.spend, ha, Option.map_none]
  · rw [hget]
    exact hstep
  · rw [hget, hl3]
    simp
  · rw [hget, hcount]
    simp
  · intro s' hs'
    simp only [hw2, R, S, w1, connectListOf, possibleSendersOf, Function.update_of_ne hs', World.spend]
  · intro r' hr'
    by_cases hrr : r' = r
    · subst hrr
      show Guarded (R.get w2) []
      rw [hw2, R.get_set]
      exact hguard
    · have : w2.possibleSenders r' = w.possibleSenders r' := by
        simp only [hw2, R, S, w1, connectListOf, possibleSendersOf, Function.update_of_ne hrr,
          World.spend]
      show Guarded (w2.possibleSenders r') []
      rw [this]
      exact hR r' hr'
  · show (R.get w2).values = _
    rw [hw2, R.get_set, hvals]
    rfl
  · intro r' hrr
    show w2.possibleSenders r' = _
    simp only [hw2, R, S, w1, connectListOf, possibleSendersOf, Function.update_of_ne hrr,
      World.spend]

end

theorem connectUnless_run {w : World} (same : ConnectStruct → Bool) {s : SenderId} {r : ReceiverId}
    (sig slot : Bento) (type : ConnectionKind) (uniqueConnection : Bool) {cs : List Cursor}
    (hs : (w.sender s).isSome = true) (hr : w.receiver r = true) (hS : Guarded (w.connectList s) cs)
    (hR : w.SlotsSound)
    (ha : w.enough (if uniqueConnection && (w.conns s).any same then 1 else 4)) :
    ∃ w', connectUnless same s sig r slot type uniqueConnection w =
        .returned (!(uniqueConnection && (w.conns s).any same)) w' ∧
      ConnectDone s r (if uniqueConnection && (w.conns s).any same then none
        else some ⟨sig, r, slot, type⟩) w w' := by
  cases hdup : uniqueConnection && (w.conns s).any same with
  | true =>
    rw [hdup] at ha
    exact connectUnless_found hs hS hR ha hdup
  | false =>
    rw [hdup] at ha
    exact connectUnless_added hs hr hS hR ha hdup

theorem ConnectDone.conns {s : SenderId} {r : ReceiverId} {added : Option ConnectStruct}
    {w w' : World} (h : ConnectDone s r added w w') : w'.conns s = w.conns s ++ added.toList := by
  rw [World.conns, NodeList.values, h.live, List.map_append, List.map_map]
  exact congrArg _ (List.map_id'' (fun _ => rfl) _)

theorem ConnectDone.conns_ne {s s' : SenderId} {r : ReceiverId} {added : Option ConnectStruct}
    {w w' : World} (h : ConnectDone s r added w w') (hs : s' ≠ s) : w'.conns s' = w.conns s' := by
  rw [World.conns, h.others s' hs]
  rfl

theorem ConnectDone.listsStep {s : SenderId} {r : ReceiverId} {added : Option ConnectStruct}
    {w w' : World} (h : ConnectDone s r added w w') : ListsStep w w' := by
  intro s' _ _
  by_cases hss : s' = s
  · exact hss ▸ h.own
  · rw [h.others s' hss]
    exact .refl _

theorem ConnectDone.booked {s : SenderId} {r : ReceiverId} {added : Option ConnectStruct}
    {w w' : World} (h : ConnectDone s r added w w') (hadd : ∀ c ∈ added, c.receiver = r)
    (hs : (w.sender s).isSome = true) (hr : w.receiver r = true) (hB : w.Booked) : w'.Booked := by
  have hne : ∀ r', r' ≠ r → w'.possible r' = w.possible r' := fun r' hrr => by
    rw [World.possible, h.possible_ne r' hrr]
    rfl
  refine ⟨fun s' r' hs' hr' => ?_, fun s' hs' c hc => ?_, fun r' hr' s' hs' => ?_⟩
  · rw [h.objects.sender] at hs'
    rw [h.objects.receiver] at hr'
    have h0 := hB.counts s' r' hs' hr'
    by_cases hss : s' = s <;> by_cases hrr : r' = r
    · subst hss hrr
      rw [h.conns, h.possible, List.countP_append, List.count_append, h0]
      cases added with
      | none => rfl
      | some c => simp [hadd c rfl]
    · subst hss
      rw [h.conns, hne r' hrr, List.countP_append, h0]
      cases added with
      | none => rfl
      | some c => simpa [hadd c rfl] using Ne.symm hrr
    · subst hrr
      rw [h.conns_ne hss, h.possible, List.count_append, h0]
      cases added with
      | none => rfl
      | some c => simp [Ne.symm hss]
    · rw [h.conns_ne hss, hne r' hrr, h0]
  · rw [h.objects.sender] at hs'
    rw [h.objects.receiver]
    by_cases hss : s' = s
    · subst hss
      rw [h.conns, List.mem_append] at hc
      rcases hc with hc | hc
      · exact hB.receivers _ hs' c hc
      · rw [hadd c (by simpa using hc)]
        exact hr
    · rw [h.conns_ne hss] at hc
      exact hB.receivers s' hs' c hc
  · rw [h.objects.receiver] at hr'
    rw [h.objects.sender]
    by_cases hrr : r' = r
    · subst hrr
      rw [h.possible, List.mem_append] at hs'
      rcases hs' with hs' | hs'
      · exact hB.senders _ hr' s' hs'
      · obtain ⟨_, _, rfl⟩ := List.mem_map.mp hs'
        exact hs
    · rw [hne r' hrr] at hs'
      exact hB.senders r' hr' s' hs'

/-! ## The overloads -/

/-- The test of an overload for a connection that is there already. -/
def Overload.same (o : Overload) (sig : Bento) (r : ReceiverId) (slot : Bento) :
    ConnectStruct → Bool :=
  match o with
  | .methodSlot => sameConnection sig r slot
  | .lambdaSlot => sameSignal sig r
  | .bento => sameConnection sig r slot

/-- How many Bento objects an overload makes. -/
def Overload.bentos : Overload → Nat
  | .bento => 0
  | _ => 2

/-- Does an overload take these pointers? -/
def Overload.accepts (o : Overload) (sig slot : Bento) : Bool :=
  match o with
  | .methodSlot => !sig.isNull && !slot.isNull
  | .lambdaSlot => !sig.isNull
  | .bento => true

/-- An overload refuses null pointers, or makes its Bento objects and goes on. -/
theorem connect_eq (o : Overload) (s : SenderId) (sig : Bento) (r : ReceiverId) (slot : Bento)
    (type : ConnectionKind) (u : Bool) {w : World} :
    (o.accepts sig slot = false ∧
      ∃ what, connect o s sig r slot type u w = .thrown (.invalidArgument what) w) ∨
    o.accepts sig slot = true ∧ (w.enough o.bentos →
      connect o s sig r slot type u w =
        connectUnless (o.same sig r slot) s sig r slot type u (w.spend o.bentos)) := by
  have htwo : ∀ f : Op Bool, w.enough 2 →
      (do allocate; allocate; f : Op Bool) w = f (w.spend 2) := by
    intro f ha
    rw [bind_returned (allocate_run (World.enough_mono ha (by omega))),
      bind_returned (allocate_run (World.enough_spend (m := 1) ha)), World.spend_spend]
  cases o with
  | methodSlot =>
    by_cases h1 : sig.isNull
    · exact Or.inl ⟨by simp [Overload.accepts, h1], _, by simp only [connect, connectMethod, h1, if_true]; rfl⟩
    · by_cases h2 : slot.isNull
      · exact Or.inl ⟨by simp [Overload.accepts, h2], _, by
          simp only [connect, connectMethod, h1, h2, if_true, if_false, Bool.false_eq_true]; rfl⟩
      · refine Or.inr ⟨by simp [Overload.accepts, h1, h2], fun ha => ?_⟩
        simp only [connect, connectMethod, h1, h2, if_false, Bool.false_eq_true]
        exact htwo _ ha
  | lambdaSlot =>
    by_cases h1 : sig.isNull
    · exact Or.inl ⟨by simp [Overload.accepts, h1], _, by simp only [connect, connectLambda, h1, if_true]; rfl⟩
    · refine Or.inr ⟨by simp [Overload.accepts, h1], fun ha => ?_⟩
      simp only [connect, connectLambda, h1, if_false, Bool.false_eq_true]
      exact htwo _ ha
  | bento => exact Or.inr ⟨rfl, fun _ => by rw [Overload.bentos, World.spend_zero]; rfl⟩

/-- `connect` between live objects refuses a null pointer, or returns and says
whether it added a connection. -/
theorem connect_run {w : World} {cursors : SenderId → List Cursor} {s : SenderId} {r : ReceiverId}
    (hw : w.Sound cursors) (hs : (w.sender s).isSome = true) (hr : w.receiver r = true)
    (ha : w.allocs = none) (o : Overload) (sig slot : Bento) (type : ConnectionKind) (u : Bool) :
    (∃ what, connect o s sig r slot type u w = .thrown (.invalidArgument what) w) ∨
    ∃ added w', connect o s sig r slot type u w = .returned added.isSome w' ∧
      ConnectDone s r added w w' ∧ ∀ c ∈ added, c.receiver = r := by
  rcases connect_eq o s sig r slot type u (w := w) with ⟨_, h⟩ | ⟨_, h⟩
  · exact Or.inl h
  · have h' := h (World.enough_none ha _)
    rw [World.spend_none ha] at h'
    obtain ⟨w', hrun, hD⟩ := connectUnless_run (o.same sig r slot) sig
      slot type u hs hr (hw.lists s hs) hw.slots (World.enough_none ha _)
    refine Or.inr ⟨_, w', ?_, hD, ?_⟩
    · rw [h', hrun]
      by_cases hdup : (u && (w.conns s).any (o.same sig r slot)) = true <;> simp [hdup]
    · intro c hc
      split at hc
      · cases hc
      · cases hc
        rfl

end CsSignal
