-- An emission does not run away. What it has called and what lies ahead of it are
-- together no more than what was in the list when it began and what was connected
-- since, whether its slots throw, its signal is destroyed or a mark ends it.
import CsSignal.Ahead
import CsSignal.Graph

namespace CsSignal

open LinkedCells Calls RcuList

namespace RcuList

variable {α : Type} {l : RcuList α} {cs : List Cursor}

theorem Guarded.nodup (h : Guarded l cs) : l.toList.Nodup := by
  obtain ⟨zs, hr, _, _⟩ := h
  exact .of_map _ hr.nodes.nodup

theorem Guarded.mem_of_head (h : Guarded l cs) {m : Nat} (hr : Reaches l.node l.head m) :
    m ∈ ids l.toList := by
  obtain ⟨zs, hrep, _, _⟩ := h
  exact hr.mem_of_seg hrep.nodes.seg

/-- From a node of the list the pointers stay in the list. -/
theorem Guarded.reaches_mem (h : Guarded l cs) {n m : Nat} (hn : n ∈ ids l.toList)
    (hr : Reaches l.node (some n) m) : m ∈ ids l.toList := by
  obtain ⟨zs, hrep, _, _⟩ := h
  obtain ⟨x, hx, rfl⟩ := List.mem_map.mp hn
  obtain ⟨pre, post, heq⟩ := List.append_of_mem hx
  have hseg := hrep.nodes.seg
  rw [heq] at hseg ⊢
  obtain ⟨q, e, _, hpost⟩ := seg_append.mp hseg
  obtain rfl : e = some x.1 := hpost.1
  rw [ids, List.map_append]
  exact List.mem_append_right _ (hr.mem_of_seg hpost)

end RcuList

/-- What is met from an iterator was met from it before, or is new in the list. -/
theorem Kept.reaches_old {l l' : RcuList ConnectStruct} {cs cs' : List Cursor} (hk : Kept l l')
    (hl : Guarded l cs) (hl' : Guarded l' cs') {p : Option Nat} (hp : Climbs l.node l.nodeCount p)
    {m : Nat} (hr : Reaches l'.node p m) :
    Reaches l.node p m ∨ m ∈ ids l'.toList ∧ l.nodeCount ≤ m := by
  revert hr
  refine hp.induct
    (P := fun p => Reaches l'.node p m → Reaches l.node p m ∨ m ∈ ids l'.toList ∧ l.nodeCount ≤ m)
    (fun hr => absurd hr not_reaches_none) fun n c hn hc ih hr => ?_
  obtain ⟨c', hc', _, hnext⟩ := hk.cells n c hc
  by_cases hin : n ∈ ids l'.toList
  · have hm := hl'.reaches_mem hin hr
    by_cases hlt : l.nodeCount ≤ m
    · exact Or.inr ⟨hm, hlt⟩
    · have hold : ∀ k ∈ ids l'.toList, k < l.nodeCount → k ∈ ids l.toList := fun k hk' hklt => by
        obtain ⟨x, hx, rfl⟩ := List.mem_map.mp hk'
        exact List.mem_map_of_mem (hk.old x hx hklt)
      have hle := (hl'.reaches_iff hin hm).mp hr
      exact Or.inl ((hl.reaches_iff (hold n hin (hl.count_pos hc))
        (hold m hm (Nat.lt_of_not_le hlt))).mpr hle)
  · rcases (LinkedCells.reaches_iff hc').mp hr with rfl | hr
    · exact Or.inl .here
    · exact (ih (hnext hin ▸ hr)).imp_left fun hr => .next hc hr

/-! ## What a step adds -/

/-- The action connects to the signal method. -/
def Action.connects (s : SenderId) (signal : Bento) : Action → Bool
  | .connect _ s' sig _ _ _ _ => s' == s && sig.eq signal
  | _ => false

/-- The connections of a signal that lives on: those that are not removed, and at
most a new one. -/
theorem Graph.act_links {g : Graph} {a : Action} {s : SenderId} (hs : (g.act a).source s = true)
    (signal : Bento) : ∃ new, (g.act a).links s =
        (g.links s).filter (fun c => !a.removes s c) ++ new ∧
      new.countP (fun c => c.signalMethod.eq signal) ≤ (a.connects s signal).toNat := by
  have hsame : ∀ b : Action, (∀ c, b.removes s c = false) →
      (g.links s).filter (fun c => !b.removes s c) = g.links s := fun b hb =>
    List.filter_eq_self.mpr fun c _ => by rw [hb c, Bool.not_false]
  have hcut : ∀ (s' : SenderId) (p : ConnectStruct → Bool), (g.cut s' p).links s =
      (g.links s).filter fun c => !(s == s' && p c) := by
    intro s' p
    by_cases hss : s = s'
    · subst hss
      simp [Links.Net.cut]
    · simp [Links.Net.cut, hss, beq_eq_false_iff_ne.mpr hss]
  cases a with
  | connect o s' sig r slot type u =>
    rw [hsame _ fun _ => rfl]
    simp only [Graph.act]
    by_cases ht : g.Takes o s' sig r slot u = true
    · rw [if_pos ht]
      by_cases hss : s = s'
      · subst hss
        refine ⟨[⟨sig, r, slot, type⟩], Function.update_self _ _ _, ?_⟩
        cases hsig : sig.eq signal <;> simp [Action.connects, hsig]
      · exact ⟨[], by simp [Links.Net.link, hss], Nat.zero_le _⟩
    · rw [if_neg ht]
      exact ⟨[], by rw [List.append_nil], Nat.zero_le _⟩
  | disconnect s' sig r slot =>
    refine ⟨[], ?_, Nat.zero_le _⟩
    rw [List.append_nil]
    exact hcut s' (isMatch (some sig) (some r) (some slot))
  | internalDisconnect s' sig r slot =>
    refine ⟨[], ?_, Nat.zero_le _⟩
    rw [List.append_nil]
    exact hcut s' (isMatch sig r slot)
  | deleteReceiver r => exact ⟨[], by rw [List.append_nil]; rfl, Nat.zero_le _⟩
  | deleteSender s' =>
    have hss : s ≠ s' := by
      rintro rfl
      simp [Graph.act, Links.Net.dropSource] at hs
    rw [hsame _ fun _ => rfl]
    exact ⟨[], by simp [Graph.act, Links.Net.dropSource, hss], Nat.zero_le _⟩
  | newSender | newReceiver | senderList | receiverList | activate | ret | throw =>
    rw [hsame _ fun _ => rfl]
    exact ⟨[], by rw [List.append_nil]; rfl, Nat.zero_le _⟩

section

variable {σ σ' : State} {a : Action} {s : SenderId}

/-- A step adds a node only where it connects. -/
theorem State.Inv.added_le (h : σ.Inv) (signal : Bento) (hstep : CsSignal.step σ a = .ok σ')
    (hs : (σ.world.sender s).isSome = true) (hs' : (σ'.world.sender s).isSome = true) :
    ((σ'.world.connectList s).toList.filter fun x => x.2.signalMethod.eq signal &&
      decide ((σ.world.connectList s).nodeCount ≤ x.1)).length ≤ (a.connects s signal).toNat := by
  have hgraph := graph_of_step h hstep
  obtain ⟨new, hlinks, hnew⟩ := Graph.act_links (a := a)
    (hgraph ▸ hs' : (σ.world.graph.act a).source s = true) signal
  rw [← hgraph, World.graph_links hs', World.graph_links hs] at hlinks
  have hstepOn := (h.step hstep).2.stepOn h hs hs'
  have hguard := h.memory.lists s hs
  set l := σ.world.connectList s
  set l' := σ'.world.connectList s
  let p : ConnectStruct → Bool := fun c => c.signalMethod.eq signal
  -- what stays is older than what is new
  have hold : (l.toList.filter fun x => p x.2 && !a.removes s x.2).length ≤
      (l'.toList.filter fun x => p x.2 && !decide (l.nodeCount ≤ x.1)).length := by
    refine (List.Nodup.subperm (hguard.nodup.filter _) fun x hx => ?_).length_le
    obtain ⟨hx, hp⟩ := List.mem_filter.mp hx
    rw [Bool.and_eq_true, Bool.not_eq_true'] at hp
    refine List.mem_filter.mpr ⟨hstepOn.stays x hx hp.2, ?_⟩
    rw [hp.1, Bool.true_and, Bool.not_eq_true', decide_eq_false_iff_not, Nat.not_le]
    exact hguard.bound hx
  have hcount : (l'.toList.filter fun x => p x.2).length =
      (l.toList.filter fun x => p x.2 && !a.removes s x.2).length + new.countP p := by
    have := congrArg (List.countP p) hlinks
    rw [List.countP_append, World.conns, World.conns, NodeList.values, NodeList.values,
      List.countP_filter, List.countP_map, List.countP_map, List.countP_eq_length_filter,
      List.countP_eq_length_filter] at this
    exact this
  have hsplit := List.length_eq_length_filter_add (l := l'.toList.filter fun x => p x.2)
    fun x => decide (l.nodeCount ≤ x.1)
  rw [List.filter_filter, List.filter_filter] at hsplit
  simp only [Bool.and_comm (decide _), Bool.and_comm (!decide _)] at hsplit
  have hnew : new.countP p ≤ (a.connects s signal).toNat := hnew
  show (l'.toList.filter fun x => p x.2 && decide (l.nodeCount ≤ x.1)).length ≤ _
  omega

end

/-! ## The calls that an activation can still make -/

/-- The wanted nodes that lie ahead of an activation. -/
def State.remaining (σ : State) (f : Frame) : List Nat :=
  (σ.ahead f).filter fun n => ((σ.world.connectList f.activation.sender).node n).any
    fun c => f.activation.wants c.data

section

variable {σ σ' : State} {f : Frame} {m : Nat}

theorem State.Inv.mem_remaining_iff (h : σ.Inv) (hf : f ∈ σ.stack)
    (hlive : (σ.world.sender f.activation.sender).isSome = true) :
    m ∈ σ.remaining f ↔ Reaches (σ.world.connectList f.activation.sender).node (some f.iter) m ∧
      (f.call = .compareThreads ∨ m ≠ f.iter) ∧
      ∃ c, (σ.world.connectList f.activation.sender).node m = some c ∧
        f.activation.wants c.data = true := by
  rw [State.remaining, List.mem_filter, h.mem_ahead_iff hf hlive, Option.any_eq_true, and_assoc]

theorem State.Inv.nodup_remaining (h : σ.Inv) (hf : f ∈ σ.stack)
    (hlive : (σ.world.sender f.activation.sender).isSome = true) : (σ.remaining f).Nodup := by
  have hsorted := (h.climbs hf hlive).walk_sorted fun _ _ => Nat.le_add_left _ _
  exact ((hsorted.imp Nat.ne_of_lt).filter _).filter _

/-- What an activation in the call `f` has done and can do, when it has `k` calls to make. -/
structure Held (σ : State) (act : Activation) (k : Nat) (f : Frame) : Prop where
  same : f.activation = act
  below : ∀ n ∈ σ.reachedNodes act.id, n ≤ f.iter ∧ (f.call = .compareThreads → n < f.iter)
  cell : (σ.world.sender act.sender).isSome = true →
    ∃ c, (σ.world.connectList act.sender).node f.iter = some c ∧ act.wants c.data = true
  left : (σ.world.sender act.sender).isSome = true →
    (σ.dispatches act.id).length + (σ.remaining f).length ≤ k

/-- An activation that makes at most `k` calls, to a different connection each. -/
structure Bounded (σ : State) (act : Activation) (k : Nat) : Prop where
  numbered : act.id < σ.activationCount
  known : act.sender < σ.world.senderCount
  sorted : (σ.reachedNodes act.id).Pairwise (· < ·)
  calls : (σ.dispatches act.id).length ≤ k
  running : ∀ f ∈ σ.stack, f.activation.id = act.id → Held σ act k f

variable {act : Activation} {k : Nat} {a : Action}

/-- A step that makes no call. -/
theorem Bounded.resume {j : Nat} (h : Bounded σ act k) (hn : σ.activationCount ≤ σ'.activationCount)
    (hc : σ.world.senderCount ≤ σ'.world.senderCount)
    (hd : σ'.dispatches act.id = σ.dispatches act.id) (hkj : k ≤ j)
    (hrun : ∀ f ∈ σ'.stack, f.activation.id = act.id → Held σ' act j f) : Bounded σ' act j := by
  have hr : σ'.reachedNodes act.id = σ.reachedNodes act.id := congrArg _ hd
  exact ⟨Nat.lt_of_lt_of_le h.numbered hn, Nat.lt_of_lt_of_le h.known hc, hr ▸ h.sorted,
    hd ▸ Nat.le_trans h.calls hkj, hrun⟩

/-- A step of the others: what the activation can still come to grows by the
connections that the step makes. -/
theorem Held.keep (h : Held σ act k f) (hI : σ.Inv) (hstep : CsSignal.step σ a = .ok σ')
    (hlive : (σ'.world.sender act.sender).isSome = true → (σ.world.sender act.sender).isSome = true)
    (hd : σ'.dispatches act.id = σ.dispatches act.id) (hf : f ∈ σ.stack) (hf' : f ∈ σ'.stack)
    (hcur : f.cursor ∈ staying σ a f.activation.sender) :
    Held σ' act (k + (a.connects act.sender act.signal_Bento).toNat) f := by
  obtain ⟨hI', hN⟩ := hI.step hstep
  have hr : σ'.reachedNodes act.id = σ.reachedNodes act.id := congrArg _ hd
  obtain rfl := h.same
  refine ⟨rfl, hr ▸ h.below, fun hs' => ?_, fun hs' => ?_⟩
  · have hkept := (hN.stepOn hI (hlive hs') hs').kept (List.ne_nil_of_mem hcur)
    obtain ⟨c, hc, hw⟩ := h.cell (hlive hs')
    obtain ⟨c', hc', hdata, _⟩ := hkept.cells f.iter c hc
    exact ⟨c', hc', hdata ▸ hw⟩
  · have hs := hlive hs'
    have hkept := (hN.stepOn hI hs hs').kept (List.ne_nil_of_mem hcur)
    have hg' := hI'.memory.lists _ hs'
    have hadded := hI.added_le f.activation.signal_Bento hstep hs hs'
    set added := (σ'.world.connectList f.activation.sender).toList.filter fun x =>
      x.2.signalMethod.eq f.activation.signal_Bento &&
        decide ((σ.world.connectList f.activation.sender).nodeCount ≤ x.1)
    have hsub : σ'.remaining f ⊆ σ.remaining f ++ ids added := by
      intro m hm
      obtain ⟨hreach, hne, c', hc', hw⟩ := (hI'.mem_remaining_iff hf' hs').mp hm
      rw [List.mem_append, hI.mem_remaining_iff hf hs]
      rcases hkept.reaches_old (hI.memory.lists _ hs) hg' (hI.climbs hf hs) hreach with
        hold | ⟨hin, hnew⟩
      · obtain ⟨c, hc, _⟩ := hI.climbs hf hs m hold
        obtain ⟨c1, hc1, hdata, _⟩ := hkept.cells m c hc
        obtain rfl : c' = c1 := Option.some.inj (hc'.symm.trans hc1)
        exact Or.inl ⟨hold, hne, c, hc, hdata ▸ hw⟩
      · obtain ⟨x, hx, rfl⟩ := List.mem_map.mp hin
        obtain ⟨c1, hc1, hdata⟩ := hg'.cell hx
        obtain rfl : c' = c1 := Option.some.inj (hc'.symm.trans hc1)
        refine Or.inr (List.mem_map_of_mem (List.mem_filter.mpr ⟨hx, ?_⟩))
        rw [Bool.and_eq_true, decide_eq_true_iff]
        exact ⟨hdata ▸ hw, hnew⟩
    have hle := ((hI'.nodup_remaining hf' hs').subperm hsub).length_le
    have hleft := h.left hs
    rw [List.length_append, ids, List.length_map] at hle
    rw [hd]
    omega

/-- In the same list, what lies ahead of another call of the activation. -/
theorem State.Inv.remaining_subset {f' : Frame} (hI : σ.Inv) (hI' : σ'.Inv) (hf : f ∈ σ.stack)
    (hf' : f' ∈ σ'.stack) (hact : f'.activation = f.activation)
    (hs : (σ.world.sender f.activation.sender).isSome = true)
    (hs' : (σ'.world.sender f.activation.sender).isSome = true)
    (hlist : σ'.world.connectList = σ.world.connectList)
    (hsub : ∀ m c, (σ.world.connectList f.activation.sender).node m = some c →
      f.activation.wants c.data = true → f'.call = .compareThreads ∨ m ≠ f'.iter →
      Reaches (σ.world.connectList f.activation.sender).node (some f'.iter) m →
      Reaches (σ.world.connectList f.activation.sender).node (some f.iter) m ∧
        (f.call = .compareThreads ∨ m ≠ f.iter)) :
    σ'.remaining f' ⊆ σ.remaining f := by
  intro m hm
  have hm' := (hI'.mem_remaining_iff hf' (hact ▸ hs')).mp hm
  rw [hact, hlist] at hm'
  obtain ⟨hreach, hne, c, hc, hw⟩ := hm'
  obtain ⟨hreach', hne'⟩ := hsub m c hc hw hne hreach
  exact (hI.mem_remaining_iff hf hs).mpr ⟨hreach', hne', c, hc, hw⟩

/-- The slot that is called is one of those that lay ahead. -/
theorem Bounded.dispatch {rest : List Frame} {b : Bool} {o : SignalBase} {c : Node ConnectStruct}
    (h : Bounded σ f.activation k) (hI : σ.Inv) (hst : σ.stack = f :: rest)
    (hdist : ∀ g ∈ rest, g.activation.id ≠ f.activation.id) (hcall : f.call = .compareThreads)
    (ho : σ.world.sender f.activation.sender = some o)
    (hσ' : σ' = State.push { σ with
        world := σ.world.withBusy f.activation.sender o (o.activateBusy + 1), stack := rest }
      { f with call := State.callFor c.data.type b, old_activateBusy := o.activateBusy } c.data)
    (hI' : σ'.Inv) : Bounded σ' f.activation k := by
  have hf : f ∈ σ.stack := hst ▸ List.mem_cons_self
  have H := h.running f hf rfl
  have hs : (σ.world.sender f.activation.sender).isSome = true := by rw [ho]; rfl
  set f' : Frame := { f with call := State.callFor c.data.type b,
                             old_activateBusy := o.activateBusy } with hf'
  have hslot : f'.call.isSlot = true := State.isSlot_callFor _ _
  have hnc : f'.call ≠ .compareThreads := fun he => by
    rw [he] at hslot
    cases hslot
  have hmem : f' ∈ σ'.stack := by
    rw [hσ']
    exact List.mem_cons_self
  have hD : σ'.dispatches f.activation.id = σ.dispatches f.activation.id ++
      [⟨f.activation.id, f.activation.sender, f.iter, c.data, f'.call⟩] := by
    rw [hσ']
    exact dispatches_push_self (f := f') hslot
  have hR : σ'.reachedNodes f.activation.id = σ.reachedNodes f.activation.id ++ [f.iter] := by
    rw [State.reachedNodes, hD, List.map_append]
    rfl
  have hs' : (σ'.world.sender f.activation.sender).isSome = true := by
    have hbusy := withBusy_self σ.world f.activation.sender o (o.activateBusy + 1)
    rw [hσ']
    exact (congrArg Option.isSome hbusy).trans rfl
  have hiter : f.iter ∈ σ.remaining f := by
    obtain ⟨c0, hc0, hw⟩ := H.cell hs
    exact (hI.mem_remaining_iff hf hs).mpr ⟨.here, Or.inl hcall, c0, hc0, hw⟩
  -- the node that is called is ahead no more
  have hsub : f.iter :: σ'.remaining f' ⊆ σ.remaining f := by
    refine List.cons_subset.mpr ⟨hiter, ?_⟩
    refine hI.remaining_subset hI' hf hmem rfl hs hs' (by rw [hσ']; rfl) fun m c' _ _ _ hr => ?_
    exact ⟨hr, Or.inl hcall⟩
  have hnot : f.iter ∉ σ'.remaining f' := fun hm =>
    (((hI'.mem_remaining_iff hmem hs').mp hm).2.1.resolve_left hnc) rfl
  have hle := ((hI'.nodup_remaining hmem hs').cons hnot).subperm hsub |>.length_le
  have hleft := H.left hs
  rw [List.length_cons] at hle
  refine ⟨?_, ?_, ?_, ?_, fun g hg hid => ?_⟩
  · rw [hσ']
    exact h.numbered
  · rw [hσ']
    exact h.known
  · rw [hR, List.pairwise_append]
    refine ⟨h.sorted, List.pairwise_singleton _ _, fun n hn m hm => ?_⟩
    rw [List.mem_singleton.mp hm]
    exact (H.below n hn).2 hcall
  · rw [hD, List.length_append, List.length_singleton]
    omega
  · rw [hσ'] at hg
    rcases List.mem_cons.mp hg with rfl | hg
    · refine ⟨rfl, fun n hn => ⟨?_, fun hcmp => absurd hcmp hnc⟩, fun _ => ?_, fun _ => ?_⟩
      · rw [hR] at hn
        rcases List.mem_append.mp hn with hn | hn
        · exact (H.below n hn).1
        · exact Nat.le_of_eq (List.mem_singleton.mp hn)
      · rw [hσ']
        exact H.cell hs
      · rw [hD, List.length_append, List.length_singleton]
        omega
    · exact absurd hid (hdist g hg)

/-- The loop comes to another connection, and calls none on the way. -/
theorem Bounded.advance {rest : List Frame} {o : SignalBase} {n : Nat}
    {c c' : Node ConnectStruct} (h : Bounded σ f.activation k) (hI : σ.Inv)
    (hst : σ.stack = f :: rest) (hdist : ∀ g ∈ rest, g.activation.id ≠ f.activation.id)
    (ho : σ.world.sender f.activation.sender = some o) (hstep : Stepped σ.world f c)
    (hmet : Met (State.lessBusy { σ with stack := rest } f o) f.activation (cursorsOf rest) c.next
      n c')
    (hσ' : σ' = State.push { (State.resumed { σ with stack := rest } f) with
        world := State.lessBusy { σ with stack := rest } f o }
      ⟨f.activation, n, c'.data.receiver, .compareThreads, 0⟩ c'.data)
    (hI' : σ'.Inv) : Bounded σ' f.activation k := by
  have hf : f ∈ σ.stack := hst ▸ List.mem_cons_self
  have H := h.running f hf rfl
  have hs : (σ.world.sender f.activation.sender).isSome = true := by rw [ho]; rfl
  obtain ⟨h1, h2, h3, _, h5, _, h7, _⟩ := resumed_fields { σ with stack := rest } f
  have hlists : (State.lessBusy { σ with stack := rest } f o).connectList = σ.world.connectList :=
    h7
  have hD : σ'.dispatches f.activation.id = σ.dispatches f.activation.id := by
    rw [hσ', dispatches_push (by simp [CallKind.isSlot])]
    exact dispatches_congr h3 _
  have hR : σ'.reachedNodes f.activation.id = σ.reachedNodes f.activation.id := congrArg _ hD
  have hlater : f.iter < n := by
    obtain ⟨i, hi, hle⟩ := hmet.ahead
    exact Nat.lt_of_lt_of_le (hstep.later i hi) hle
  refine h.resume (Nat.le_of_eq ?_) (Nat.le_of_eq ?_) hD (Nat.le_refl k) fun g hg hid => ?_
  · rw [hσ']
    exact h2.symm
  · rw [hσ']
    exact h5.symm
  · have hg0 := hg
    rw [hσ'] at hg
    rcases List.mem_cons.mp hg with rfl | hg
    · refine ⟨rfl, fun m hm => ?_, fun _ => ?_, fun hs' => ?_⟩
      · have hlt := Nat.lt_of_le_of_lt (H.below m (hR ▸ hm)).1 hlater
        exact ⟨Nat.le_of_lt hlt, fun _ => hlt⟩
      · rw [hσ']
        exact ⟨c', hmet.cell, hmet.wanted⟩
      · have hfind := hmet.find
        rw [hlists] at hfind
        have hsub := hI.remaining_subset hI' hf hg0 rfl hs hs' (by rw [hσ']; exact hlists)
          fun m d hd hw _ hr => by
            have hclimbs := hI.climbs hf hs
            have hr := (NodeList.find_reaches (hclimbs.tail hstep.cell) hfind hd hw).mpr hr
            exact ⟨.next hstep.cell hr, Or.inr (Nat.ne_of_gt (hclimbs.lt_of_tail hstep.cell hr))⟩
        have hle := ((hI'.nodup_remaining hg0 hs').subperm hsub).length_le
        have hleft := H.left hs
        rw [hD]
        omega
    · rw [show (State.resumed { σ with stack := rest } f).stack = rest from h1] at hg
      exact absurd hid (hdist g hg)

/-- The step after the end of a call of the activation itself. -/
theorem Bounded.move {rest : List Frame} (h : Bounded σ f.activation k) (hI : σ.Inv) (hI' : σ'.Inv)
    (hst : σ.stack = f :: rest) (hdist : ∀ g ∈ rest, g.activation.id ≠ f.activation.id)
    (hM : Move { σ with stack := rest } f a σ') : Bounded σ' f.activation k := by
  have hf : f ∈ σ.stack := hst ▸ List.mem_cons_self
  have H := h.running f hf rfl
  obtain ⟨h1, h2, h3, _, h5, _⟩ := resumed_fields { σ with stack := rest } f
  have hover : ∀ {τ : State}, τ.stack = rest → τ.activationCount = σ.activationCount →
      τ.world.senderCount = σ.world.senderCount → τ.calls = σ.calls → Bounded τ f.activation k :=
    fun hτ hn hc hcalls => h.resume (Nat.le_of_eq hn.symm) (Nat.le_of_eq hc.symm)
      (dispatches_congr hcalls _) (Nat.le_refl k) fun g hg hid => absurd hid (hdist g (hτ ▸ hg))
  cases hM with
  | dispatched hcall ho hc hr => exact h.dispatch hI hst hdist hcall ho rfl hI'
  | next hcall hfr ho hstep hmet hr => exact h.advance hI hst hdist ho hstep hmet rfl hI'
  | @ended b o c w' hcall hfr ho hstep hend =>
    exact hover h1 h2 (hend.released.sameObjects.senderCount.trans h5) h3
  | stopped hend hcall hlock hmark hrel =>
    exact hover rfl rfl (hrel.sameObjects.senderCount.trans
      (unmarked_sameLists { σ with stack := rest } f).senderCount) rfl
  | @handling o hcall hlock hmark ho =>
    have hnc : f.call ≠ .compareThreads := by
      intro he
      rw [he] at hcall
      cases hcall
    have hs : (σ.world.sender f.activation.sender).isSome = true := by
      rw [show σ.world.sender f.activation.sender = some o from ho]
      rfl
    refine h.resume (Nat.le_refl _) (Nat.le_refl _) rfl (Nat.le_refl k) fun g hg hid => ?_
    have hg0 := hg
    rcases List.mem_cons.mp hg with rfl | hg
    · refine ⟨rfl, fun n hn => ⟨(H.below n hn).1, by simp⟩, fun _ => H.cell hs, fun hs' => ?_⟩
      have hsub := hI.remaining_subset hI' hf hg0 rfl hs hs' rfl fun m d _ _ hne hr =>
        ⟨hr, Or.inr (hne.resolve_left (by simp))⟩
      exact Nat.le_trans (Nat.add_le_add_left
        ((hI'.nodup_remaining hg0 hs').subperm hsub).length_le _) (H.left hs)
    · exact absurd hid (hdist g hg)
  | left hcall hrel => exact hover rfl rfl hrel.sameObjects.senderCount rfl
  | handlerLeft hcall hrel => exact hover rfl rfl hrel.sameObjects.senderCount rfl

/-- Every step of the program. -/
theorem Bounded.next (h : Bounded σ act k) (hI : σ.Inv) (hstep : CsSignal.step σ a = .ok σ') :
    Bounded σ' act (k + (a.connects act.sender act.signal_Bento).toNat) := by
  obtain ⟨hI', hN⟩ := hI.step hstep
  have hlive : (σ'.world.sender act.sender).isSome = true →
      (σ.world.sender act.sender).isSome = true := by
    intro hs'
    cases hd : σ.world.sender act.sender with
    | none =>
      rw [dead_of_next hN h.known hd] at hs'
      cases hs'
    | some o => rfl
  have hkeep : σ.activationCount ≤ σ'.activationCount →
      σ'.dispatches act.id = σ.dispatches act.id →
      (∀ f ∈ σ'.stack, f.activation.id = act.id →
        f ∈ σ.stack ∧ f.cursor ∈ staying σ a f.activation.sender) →
      Bounded σ' act (k + (a.connects act.sender act.signal_Bento).toNat) := fun hn hd hst =>
    h.resume hn hN.senderCount hd (Nat.le_add_right _ _) fun f hf hid =>
      (h.running f (hst f hf hid).1 hid).keep hI hstep hlive hd (hst f hf hid).1 hf (hst f hf hid).2
  cases hN with
  | @call a w' hc hD =>
    refine hkeep (Nat.le_refl _) rfl fun f hf _ => ⟨hf, ?_⟩
    rw [staying_call hc]
    exact mem_cursorsOf hf
  | @enter s o sig σ' ho hE =>
    cases hE with
    | met hmet hr =>
      refine hkeep (Nat.le_succ _) (dispatches_push (by simp [CallKind.isSlot])) fun f hf hid => ?_
      rcases List.mem_cons.mp hf with rfl | hf
      · exact absurd hid (Nat.ne_of_gt h.numbered)
      · exact ⟨hf, mem_cursorsOf hf⟩
    | ended hend => exact hkeep (Nat.le_succ _) rfl fun f hf _ => ⟨hf, mem_cursorsOf hf⟩
  | @move a f rest σ' hst hM =>
    have hdist := hI.distinct
    rw [hst, List.map_cons, List.pairwise_cons] at hdist
    have hother : ∀ g ∈ rest, g.activation.id ≠ f.activation.id := fun g hg he =>
      absurd (hdist.1 _ (List.mem_map_of_mem hg)) (by rw [he]; exact Nat.lt_irrefl _)
    by_cases hid : f.activation.id = act.id
    · obtain rfl := (h.running f (hst ▸ List.mem_cons_self) hid).same
      have hnone : a.connects f.activation.sender f.activation.signal_Bento = false := by
        cases hM <;> first | rfl | (cases a <;> first | rfl | exact absurd ‹Action.IsEnd _› id)
      rw [hnone]
      exact h.move hI hI' hst hother hM
    · obtain ⟨_, h2, h3, _⟩ := resumed_fields { σ with stack := rest } f
      have hd : σ'.dispatches act.id = σ.dispatches act.id := by
        cases hM with
        | dispatched => exact dispatches_push fun hc => hid hc.1
        | next =>
          refine Eq.trans (dispatches_push ?_) (dispatches_congr h3 _)
          exact fun hc => hid hc.1
        | ended => exact dispatches_congr h3 _
        | stopped | handling | left | handlerLeft => rfl
      have hn : σ.activationCount ≤ σ'.activationCount := by
        cases hM with
        | next | ended => exact Nat.le_of_eq h2.symm
        | dispatched | stopped | handling | left | handlerLeft => exact Nat.le_refl _
      refine hkeep hn hd fun g hg hgid => ?_
      have hgr : g ∈ rest := by
        rcases hM.stack with h1 | ⟨f', h1, hact⟩
        · rw [h1] at hg
          exact hg
        · rw [h1] at hg
          rcases List.mem_cons.mp hg with rfl | hg
          · exact absurd (hact ▸ hgid) hid
          · exact hg
      refine ⟨hst ▸ List.mem_cons_of_mem _ hgr, ?_⟩
      rw [staying_end hM.isEnd hst]
      exact mem_cursorsOf hgr

theorem Bounded.run {as : List Action} (h : Bounded σ act k) (hI : σ.Inv)
    (hr : CsSignal.run σ as = .ok σ') :
    Bounded σ' act (k + as.countP (Action.connects act.sender act.signal_Bento)) := by
  induction as generalizing σ k with
  | nil =>
    cases hr
    exact h
  | cons a as ih =>
    obtain ⟨σ1, h1, hr⟩ := Runs.run_cons.mp hr
    have hB := ih (h.next hI h1) (hI.step h1).1 hr
    rw [List.countP_cons]
    cases hc : a.connects act.sender act.signal_Bento with
    | false => simpa [hc] using hB
    | true =>
      rw [hc, Nat.add_right_comm] at hB
      exact hB

theorem State.Inv.no_dispatches (h : σ.Inv) : σ.dispatches σ.activationCount = [] := by
  rw [State.dispatches, List.filter_eq_nil_iff]
  intro e he hc
  have := h.logged e he
  simp only [Bool.and_eq_true, beq_iff_eq] at hc
  omega

/-- What lies ahead of an activation that starts is in the list. -/
theorem Met.remaining_le {s : SenderId} {o : SignalBase} {sig : Bento} {n : Nat}
    {c : Node ConnectStruct} (hI : σ.Inv) (ho : σ.world.sender s = some o)
    (hmet : Met (σ.entered s sig).world (σ.entering s o sig) (cursorsOf σ.stack)
      (σ.world.connectList s).head n c)
    (hf : f = ⟨σ.entering s o sig, n, c.data.receiver, .compareThreads, 0⟩)
    (hσ' : σ' = (σ.entered s sig).push f c.data) (hI' : σ'.Inv) :
    (σ'.remaining f).length ≤ (σ.world.conns s).countP fun c => c.signalMethod.eq sig := by
  have hs : (σ.world.sender s).isSome = true := by rw [ho]; rfl
  have hself : (σ.entered s sig).world.connectList s = (σ.world.connectList s).rcuReadLock.2 :=
    (connectListOf s).get_set _ _
  have hmem : f ∈ σ'.stack := by
    rw [hσ']
    exact List.mem_cons_self
  have hs' : (σ'.world.sender f.activation.sender).isSome = true := by
    rw [hσ', hf]
    exact hs
  have hguard := (entered_memory sig hI.memory ho).lists s hs
  rw [standing_self] at hguard
  have hfind := hmet.find
  rw [show (σ.entering s o sig).sender = s from rfl] at hfind
  have hsub : σ'.remaining f ⊆
      ids ((σ.world.connectList s).toList.filter fun x => x.2.signalMethod.eq sig) := by
    intro m hm
    have hm' := (hI'.mem_remaining_iff hmem hs').mp hm
    subst hσ' hf
    obtain ⟨hreach, _, d, hd, hw⟩ := hm'
    have hhead := (NodeList.find_reaches (hguard.climbs List.mem_cons_self) hfind hd hw).mpr hreach
    -- the walk began at the head, so the node is in the list
    have hin : m ∈ ids ((σ.entered s sig).world.connectList s).toList := by
      refine hguard.mem_of_head ?_
      rw [show ((σ.entered s sig).world.connectList s).head = (σ.world.connectList s).head by
        rw [hself]; rfl]
      exact hhead
    obtain ⟨x, hx, rfl⟩ := List.mem_map.mp hin
    obtain ⟨d', hd', hdata⟩ := hguard.cell hx
    obtain rfl : d = d' := Option.some.inj (hd.symm.trans hd')
    rw [hself, (hI.memory.lists s hs).lock.2] at hx
    exact List.mem_map_of_mem (List.mem_filter.mpr ⟨hx, hdata ▸ hw⟩)
  have hle := ((hI'.nodup_remaining hmem hs').subperm hsub).length_le
  rw [ids, List.length_map, ← List.countP_eq_length_filter] at hle
  rw [World.conns, NodeList.values, List.countP_map]
  exact hle

/-- An activation that starts has the list before it. -/
theorem Bounded.start {s : SenderId} {o : SignalBase} {sig : Bento} (hI : σ.Inv) (hI' : σ'.Inv)
    (ho : σ.world.sender s = some o) (hE : Enter σ s o sig σ') :
    Bounded σ' (σ.entering s o sig)
      ((σ.world.conns s).countP fun c => c.signalMethod.eq sig) := by
  have hs : (σ.world.sender s).isSome = true := by rw [ho]; rfl
  have hold : ∀ f ∈ σ.stack, f.activation.id ≠ σ.activationCount := fun f hf =>
    Nat.ne_of_lt (hI.numbered f hf)
  have hbegun : ∀ {τ : State}, τ.dispatches (σ.entering s o sig).id = [] →
      τ.activationCount = σ.activationCount + 1 → τ.world.senderCount = σ.world.senderCount →
      (∀ f ∈ τ.stack, f.activation.id = σ.activationCount → Held τ (σ.entering s o sig)
        ((σ.world.conns s).countP fun c => c.signalMethod.eq sig) f) →
      Bounded τ (σ.entering s o sig) ((σ.world.conns s).countP fun c => c.signalMethod.eq sig) := by
    intro τ hd hn hc hrun
    refine ⟨?_, ?_, ?_, ?_, hrun⟩
    · rw [hn]
      exact Nat.lt_succ_self _
    · rw [hc]
      exact hI.memory.senderBound s hs
    · rw [State.reachedNodes, hd]
      exact .nil
    · rw [hd]
      exact Nat.zero_le _
  cases hE with
  | @met n c hmet hr =>
    have hd : State.dispatches (State.push (σ.entered s sig)
        ⟨σ.entering s o sig, n, c.data.receiver, .compareThreads, 0⟩ c.data)
        (σ.entering s o sig).id = [] := by
      rw [dispatches_push (by simp [CallKind.isSlot])]
      exact (dispatches_congr (σ := σ) rfl _).trans hI.no_dispatches
    refine hbegun hd rfl rfl fun f hf hid => ?_
    rcases List.mem_cons.mp hf with rfl | hf
    · refine ⟨rfl, fun m hm => ?_, fun _ => ⟨c, hmet.cell, hmet.wanted⟩, fun _ => ?_⟩
      · rw [State.reachedNodes, hd] at hm
        cases hm
      · rw [hd, List.length_nil, Nat.zero_add]
        exact hmet.remaining_le hI ho rfl rfl hI'
    · exact absurd hid (hold f hf)
  | @ended w' hend =>
    exact hbegun ((dispatches_congr (σ := σ) rfl _).trans hI.no_dispatches) rfl
      hend.released.sameObjects.senderCount fun f hf hid => absurd hid (hold f hf)

end

/-- An emission calls each connection once at most, and no more of them than the list
had when it began and were made to its signal since. -/
theorem emission_bounded {as bs : List Action} {σ σ' : State} {s : SenderId} {sig : Bento}
    (h0 : run State.init as = .ok σ) (h1 : run σ (.activate s sig :: bs) = .ok σ') :
    (σ'.reachedNodes σ.activationCount).Pairwise (· < ·) ∧
      (σ'.dispatches σ.activationCount).length ≤
        (σ.world.conns s).countP (fun c => c.signalMethod.eq sig) +
          bs.countP (Action.connects s sig) := by
  obtain ⟨hI, _⟩ := placed_reached h0
  obtain ⟨σ1, hstep, hr⟩ := Runs.run_cons.mp h1
  obtain ⟨hI1, hN⟩ := hI.step hstep
  cases hN with
  | @enter s o sig σ1 ho hE =>
    have hB := (Bounded.start hI hI1 ho hE).run hI1 hr
    exact ⟨hB.sorted, hB.calls⟩
  | call hc => exact absurd hc id
  | move hst hM => exact absurd hM.isEnd id

/-- Two slots that connect another one each, and a third one that throws. -/
def growing : List Action :=
  [.ret true,
    .connect .methodSlot 0 (.method 0 (some 1)) 0 (.method 1 (some 2)) .autoConnection false,
    .ret true, .ret true,
    .connect .methodSlot 0 (.method 0 (some 1)) 0 (.method 1 (some 3)) .autoConnection false,
    .ret true, .ret true, .throw, .ret true]

theorem emission_bounded_growing :
    ((Runs.reached step (after single) (.activate 0 (.method 0 (some 1)) :: growing)).dispatches
      (after single).activationCount).length ≤ 1 + 2 :=
  (emission_bounded (Runs.run_reached (by decide +kernel)) (Runs.run_reached (by decide +kernel))).2

end CsSignal
