-- A signal that one of its own slots destroys, under the default handler: all its
-- activations in progress stop, no other activation does, and no mark is left over.
import CsSignal.Marks

namespace CsSignal

open LinkedCells Calls RcuList

/-! ## What a run must keep to -/

/-- The address at which an action makes a signal. -/
def Action.places : Action → Option Addr
  | .newSender addr => some addr
  | _ => none

/-- The default `handleException` returns at once. -/
def DefaultHandler (σ : State) (a : Action) : Prop :=
  ∀ f ∈ σ.stack.head?, f.call = .handleException → a.isRet = true

/-- No new signal is where a destroyed one was that still has activations in progress. -/
def NotReused (σ : State) (a : Action) : Prop :=
  ∀ f ∈ σ.stack, σ.world.sender f.activation.sender = none →
    a.places ≠ some f.activation.senderPtr

def Orderly (σ : State) (a : Action) : Prop :=
  DefaultHandler σ a ∧ InSlots σ a ∧ NotReused σ a

instance (σ : State) (a : Action) : Decidable (Orderly σ a) :=
  inferInstanceAs (Decidable ((∀ f ∈ σ.stack.head?, _ → _) ∧ _ ∧ ∀ f ∈ σ.stack, _ → _))

/-! ## The counts are exact -/

/-- The dispatches in progress on a signal. -/
def dispatching (stack : List Frame) (s : SenderId) : Nat :=
  stack.countP fun f => f.activation.sender == s && f.call != .compareThreads

theorem dispatching_cons (f : Frame) (rest : List Frame) (s : SenderId) :
    dispatching (f :: rest) s = dispatching rest s +
      if f.activation.sender = s ∧ f.call ≠ .compareThreads then 1 else 0 := by
  unfold dispatching
  rw [List.countP_cons]
  simp

theorem dispatching_skip {f : Frame} {s : SenderId} (rest : List Frame)
    (h : f.activation.sender ≠ s ∨ f.call = .compareThreads) :
    dispatching (f :: rest) s = dispatching rest s := by
  rw [dispatching_cons, if_neg]
  · rfl
  · rintro ⟨h1, h2⟩
    exact h.elim (fun hn => hn h1) h2

theorem dispatching_self {f : Frame} (rest : List Frame) (h : f.call ≠ .compareThreads) :
    dispatching (f :: rest) f.activation.sender = dispatching rest f.activation.sender + 1 := by
  rw [dispatching_cons, if_pos ⟨rfl, h⟩]

theorem dispatching_pos {stack : List Frame} {s : SenderId} (h : dispatching stack s ≠ 0) :
    ∃ f ∈ stack, f.activation.sender = s ∧ f.call ≠ .compareThreads := by
  obtain ⟨f, hf, hp⟩ := List.countP_pos_iff.mp (Nat.pos_of_ne_zero h)
  simp only [Bool.and_eq_true, beq_iff_eq, bne_iff_ne] at hp
  exact ⟨f, hf, hp⟩

/-- Each dispatch remembers how many there were below it. -/
def Ranked : List Frame → Prop
  | [] => True
  | f :: rest => (f.call ≠ .compareThreads →
      f.old_activateBusy = dispatching rest f.activation.sender) ∧ Ranked rest

/-- The counters count the dispatches in progress, and only signals with
activations in progress are marked. -/
structure State.Settled (σ : State) : Prop where
  busy : ∀ s o, σ.world.sender s = some o → o.activateBusy = dispatching σ.stack s
  ranked : Ranked σ.stack
  marks : ∀ x ∈ σ.world.beingDestroyed, ∃ f ∈ σ.stack,
    σ.world.sender f.activation.sender = none ∧ f.activation.senderPtr = x
  fresh : ∀ f ∈ σ.stack, σ.world.sender f.activation.sender = none →
    ∀ s o, σ.world.sender s = some o → o.addr ≠ f.activation.senderPtr
  same : ∀ f ∈ σ.stack, ∀ g ∈ σ.stack, f.activation.sender = g.activation.sender →
    f.activation.senderPtr = g.activation.senderPtr

theorem settled_init : State.init.Settled := by
  constructor <;> simp [State.init, Ranked]

/-- No dispatch begins at a marked address. -/
theorem State.Settled.unmarked {σ : State} (h : σ.Settled) (hk : σ.Marked) (hP : σ.Placed)
    (a : Action) : Unmarked σ a := by
  intro _ f hf hc hm
  have hf := List.mem_of_mem_head? hf
  obtain ⟨g, hg, hd, he⟩ := h.marks _ hm
  cases hs : σ.world.sender f.activation.sender with
  | none =>
    have := (hk.gone f hf hs).1
    rw [hc] at this
    cases this
  | some o => exact h.fresh g hg hd _ o hs ((hP.ptr f hf o hs).trans he.symm)

/-- The signals of the calls in progress, dead and alive, after a step. -/
theorem State.Settled.call {σ : State} (h : σ.Settled) (hI : σ.Inv) (hP : σ.Placed) {a : Action}
    {w' : World} (hr : NotReused σ a) (hc : a.IsCall) (hD : Did a σ.world w') :
    State.Settled { σ with world := w' } := by
  have hN : Next σ a { σ with world := w' } := .call hc (Or.inr hD)
  refine ⟨fun s o ho => ?_, h.ranked, fun x hx => ?_, fun f hf hd s o ho => ?_, h.same⟩
  · rcases hD.old_or_new ho with h1 | ⟨rfl, addr, _, rfl⟩
    · exact h.busy s o h1
    · have : dispatching σ.stack σ.world.senderCount = 0 := by
        by_contra hne
        obtain ⟨f, hf, hs, _⟩ := dispatching_pos hne
        exact absurd (hs ▸ hI.known f hf) (Nat.lt_irrefl _)
      show (0 : Int) = dispatching σ.stack σ.world.senderCount
      rw [this]
      rfl
  · rcases marked_of_next hN hx with hx | ⟨s, o, rfl, ho, rfl, hb, hdead⟩
    · obtain ⟨f, hf, hd, he⟩ := h.marks x hx
      exact ⟨f, hf, dead_of_next hN (hI.known f hf) hd, he⟩
    · rw [h.busy s o ho] at hb
      have hne : dispatching σ.stack s ≠ 0 := by omega
      obtain ⟨f, hf, rfl, _⟩ := dispatching_pos hne
      exact ⟨f, hf, hdead, (hP.ptr f hf o ho).symm⟩
  · cases hs : σ.world.sender f.activation.sender with
    | none =>
      rcases hD.old_or_new ho with h1 | ⟨_, addr, rfl, rfl⟩
      · exact h.fresh f hf hs s o h1
      · exact fun he => hr f hf hs (congrArg some he)
    | some o1 =>
      rcases hD.survive _ o1 hs with h1 | ⟨_, rfl⟩
      · rw [show w'.sender f.activation.sender = none from hd] at h1
        cases h1
      · rcases hD.old_or_new ho with h1 | ⟨_, addr, hc', _⟩
        · intro he
          have := hP.apart _ _ _ _ hs h1 ((hP.ptr f hf o1 hs).trans he.symm)
          subst this
          rw [show w'.sender f.activation.sender = none from hd] at ho
          cases ho
        · cases hc'

/-- After a move: the calls below the innermost one, and what became of it. -/
theorem State.Settled.of_rest {σ σ' : State} (h : σ.Settled) {f : Frame} {rest : List Frame}
    (hst : σ.stack = f :: rest)
    (hst' : σ'.stack = rest ∨ ∃ f', σ'.stack = f' :: rest ∧ f'.activation = f.activation ∧
      (f'.call ≠ .compareThreads →
        f'.old_activateBusy = dispatching rest f.activation.sender))
    (hbusy : ∀ s o, σ'.world.sender s = some o → o.activateBusy = dispatching σ'.stack s)
    (hs : ∀ s, σ'.world.sender s = none ↔ σ.world.sender s = none)
    (haddr : SameAddrs σ.world σ'.world)
    (hmarks : ∀ x ∈ σ'.world.beingDestroyed, ∃ g ∈ σ'.stack,
      σ.world.sender g.activation.sender = none ∧ g.activation.senderPtr = x) : σ'.Settled := by
  have hranked := h.ranked
  rw [hst] at hranked
  have hmem : ∀ g ∈ σ'.stack, ∃ g0 ∈ σ.stack, g0.activation = g.activation := by
    intro g hg
    rcases hst' with hst' | ⟨f', hst', hact, _⟩
    · exact ⟨g, by rw [hst]; exact List.mem_cons_of_mem _ (hst' ▸ hg), rfl⟩
    · rw [hst'] at hg
      rcases List.mem_cons.mp hg with rfl | hg
      · exact ⟨f, by rw [hst]; exact List.mem_cons_self, hact.symm⟩
      · exact ⟨g, by rw [hst]; exact List.mem_cons_of_mem _ hg, rfl⟩
  refine ⟨hbusy, ?_, fun x hx => ?_, fun g hg hd s o ho => ?_, fun g1 hg1 g2 hg2 he => ?_⟩
  · rcases hst' with hst' | ⟨f', hst', hact, hr⟩
    · rw [hst']
      exact hranked.2
    · rw [hst']
      exact ⟨fun hc => by rw [hr hc, hact], hranked.2⟩
  · obtain ⟨g, hg, hd, he⟩ := hmarks x hx
    exact ⟨g, hg, (hs _).mpr hd, he⟩
  · obtain ⟨g0, hg0, ha⟩ := hmem g hg
    obtain ⟨o1, ho1, he⟩ := haddr s o ho
    rw [← he, ← ha]
    exact h.fresh g0 hg0 (by rw [ha]; exact (hs _).mp hd) s o1 ho1
  · obtain ⟨a0, ha0, ha⟩ := hmem g1 hg1
    obtain ⟨b0, hb0, hb⟩ := hmem g2 hg2
    rw [← ha, ← hb] at he ⊢
    exact h.same a0 ha0 b0 hb0 he

/-- A call below holds the mark, unless it is the mark of a signal that the innermost
call has seen destroyed. -/
theorem State.Settled.holder {σ : State} (h : σ.Settled) {f : Frame} {rest : List Frame}
    (hst : σ.stack = f :: rest) {x : Addr} (hx : x ∈ σ.world.beingDestroyed)
    (hne : σ.world.sender f.activation.sender = none → x ≠ f.activation.senderPtr) :
    ∃ g ∈ rest, σ.world.sender g.activation.sender = none ∧ g.activation.senderPtr = x := by
  obtain ⟨g, hg, hd, he⟩ := h.marks x hx
  rw [hst] at hg
  rcases List.mem_cons.mp hg with rfl | hg
  · exact absurd he.symm (hne hd)
  · exact ⟨g, hg, hd, he⟩

/-- The counters, when that of one signal was set and its calls are counted again. -/
theorem State.Settled.withBusy {σ σ' : State} (h : σ.Settled) {s0 : SenderId} {o : SignalBase}
    {n : Int} (hs : σ'.world.sender = (σ.world.withBusy s0 o n).sender)
    (hself : n = dispatching σ'.stack s0)
    (hother : ∀ s, s ≠ s0 → dispatching σ'.stack s = dispatching σ.stack s) (s : SenderId)
    (o' : SignalBase) (ho' : σ'.world.sender s = some o') :
    o'.activateBusy = dispatching σ'.stack s := by
  rw [hs] at ho'
  by_cases hss : s = s0
  · subst hss
    rw [withBusy_self] at ho'
    cases ho'
    exact hself
  · rw [withBusy_ne _ hss] at ho'
    rw [hother s hss]
    exact h.busy s o' ho'

section

variable {σ σ' : State} {f f' : Frame} {rest : List Frame} {o : SignalBase}

/-- The marks stay with the calls below, when the innermost signal lives. -/
theorem State.Settled.holders (h : σ.Settled) (hst : σ.stack = f :: rest)
    (hlive : (σ.world.sender f.activation.sender).isSome = true)
    (hb : σ'.world.beingDestroyed = σ.world.beingDestroyed) (hin : ∀ g ∈ rest, g ∈ σ'.stack) :
    ∀ x ∈ σ'.world.beingDestroyed, ∃ g ∈ σ'.stack,
      σ.world.sender g.activation.sender = none ∧ g.activation.senderPtr = x := by
  intro x hx
  obtain ⟨g, hg, hd, he⟩ := h.holder hst (hb ▸ hx) fun hn => by
    rw [hn] at hlive
    cases hlive
  exact ⟨g, hin g hg, hd, he⟩

theorem State.Settled.begun (h : σ.Settled) (hst : σ.stack = f :: rest)
    (haddr : SameAddrs σ.world σ'.world) (hcall : f.call = .compareThreads)
    (ho : σ.world.sender f.activation.sender = some o) (hst' : σ'.stack = f' :: rest)
    (hact : f'.activation = f.activation) (hslot : f'.call.isSlot = true)
    (hold : f'.old_activateBusy = o.activateBusy)
    (hs : σ'.world.sender = (σ.world.withBusy f.activation.sender o (o.activateBusy + 1)).sender)
    (hb : σ'.world.beingDestroyed = σ.world.beingDestroyed) : σ'.Settled := by
  have hrank : o.activateBusy = dispatching rest f.activation.sender := by
    rw [h.busy _ o ho, hst, dispatching_skip rest (Or.inr hcall)]
  refine h.of_rest hst (Or.inr ⟨f', hst', hact, fun _ => hold.trans hrank⟩)
    (h.withBusy hs ?_ fun s hss => ?_) (fun s => by rw [hs]; exact withBusy_live ho _ s) haddr
    (h.holders hst (by rw [ho]; rfl) hb fun g hg => by rw [hst']; exact List.mem_cons_of_mem _ hg)
  · rw [hst', ← hact, dispatching_self rest (isSlot_iff.mp hslot).1, hact]
    show o.activateBusy + 1 = _
    rw [hrank]
    rfl
  · rw [hst', hst, dispatching_skip rest (Or.inr hcall),
      dispatching_skip rest (Or.inl fun he => hss (hact ▸ he.symm))]

theorem State.Settled.finished (h : σ.Settled) (hst : σ.stack = f :: rest)
    (haddr : SameAddrs σ.world σ'.world) (hcall : f.call ≠ .compareThreads)
    (ho : σ.world.sender f.activation.sender = some o)
    (hst' : σ'.stack = rest ∨ ∃ f', σ'.stack = f' :: rest ∧ f'.activation = f.activation ∧
      f'.call = .compareThreads)
    (hs : σ'.world.sender = (σ.world.withBusy f.activation.sender o (o.activateBusy + -1)).sender)
    (hb : σ'.world.beingDestroyed = σ.world.beingDestroyed) : σ'.Settled := by
  have hcount : ∀ s, dispatching σ'.stack s = dispatching rest s := by
    intro s
    rcases hst' with hst' | ⟨f', hst', _, hc⟩
    · rw [hst']
    · rw [hst', dispatching_skip rest (Or.inr hc)]
  refine h.of_rest hst (hst'.imp id fun ⟨f', h1, h2, h3⟩ => ⟨f', h1, h2, fun hc => absurd h3 hc⟩)
    (h.withBusy hs ?_ fun s hss => ?_) (fun s => by rw [hs]; exact withBusy_live ho _ s) haddr
    (h.holders hst (by rw [ho]; rfl) hb fun g hg => ?_)
  · have := h.busy _ o ho
    rw [hst, dispatching_self rest hcall] at this
    rw [hcount]
    show o.activateBusy + -1 = _
    omega
  · rw [hcount, hst, dispatching_skip rest (Or.inl fun he => hss he.symm)]
  · rcases hst' with hst' | ⟨f', hst', _⟩
    · exact hst' ▸ hg
    · rw [hst']
      exact List.mem_cons_of_mem _ hg

/-- The mark goes with the lowest dispatch of the signal. -/
theorem State.Settled.stopped (h : σ.Settled) (hst : σ.stack = f :: rest)
    (haddr : SameAddrs σ.world σ'.world) (hdead : σ.world.sender f.activation.sender = none)
    (hcall : f.call ≠ .compareThreads) (hst' : σ'.stack = rest)
    (hs : σ'.world.sender = σ.world.sender)
    (hb : σ'.world.beingDestroyed = if f.old_activateBusy = 0 then
      σ.world.beingDestroyed.erase f.activation.senderPtr else σ.world.beingDestroyed) :
    σ'.Settled := by
  have hranked := h.ranked
  rw [hst] at hranked
  refine h.of_rest hst (Or.inl hst') (fun s o ho => ?_) (fun s => by rw [hs]) haddr fun x hx => ?_
  · rw [hs] at ho
    rw [h.busy s o ho, hst, hst', dispatching_skip rest (Or.inl ?_)]
    rintro rfl
    rw [hdead] at ho
    cases ho
  · rw [hst']
    rw [hb] at hx
    -- another call holds the mark, unless this one was the lowest dispatch
    split at hx
    · exact h.holder hst (Finset.mem_of_mem_erase hx) fun _ => Finset.ne_of_mem_erase hx
    · rename_i h0
      by_cases hx' : x = f.activation.senderPtr
      · rw [hranked.1 hcall] at h0
        have hne : dispatching rest f.activation.sender ≠ 0 := by omega
        obtain ⟨g, hg, hgs, _⟩ := dispatching_pos hne
        have hf : f ∈ σ.stack := by rw [hst]; exact List.mem_cons_self
        have hg' : g ∈ σ.stack := by rw [hst]; exact List.mem_cons_of_mem _ hg
        exact ⟨g, hg, by rw [hgs]; exact hdead, by rw [hx']; exact h.same g hg' f hf hgs⟩
      · exact h.holder hst hx fun _ => hx'

theorem State.Settled.handling (h : σ.Settled) (hst : σ.stack = f :: rest)
    (haddr : SameAddrs σ.world σ'.world)
    (hlive : (σ.world.sender f.activation.sender).isSome = true)
    (hcall : f.call ≠ .compareThreads) (hst' : σ'.stack = f' :: rest)
    (hact : f'.activation = f.activation) (hcall' : f'.call ≠ .compareThreads)
    (hold : f'.old_activateBusy = f.old_activateBusy) (hs : σ'.world.sender = σ.world.sender)
    (hb : σ'.world.beingDestroyed = σ.world.beingDestroyed) : σ'.Settled := by
  have hranked := h.ranked
  rw [hst] at hranked
  refine h.of_rest hst (Or.inr ⟨f', hst', hact, fun _ => hold.trans (hranked.1 hcall)⟩)
    (fun s o ho => ?_) (fun s => by rw [hs]) haddr
    (h.holders hst hlive hb fun g hg => by rw [hst']; exact List.mem_cons_of_mem _ hg)
  rw [hs] at ho
  rw [h.busy s o ho, hst, hst', dispatching_cons, dispatching_cons, hact]
  simp [hcall, hcall']

theorem State.Settled.left (h : σ.Settled) (hst : σ.stack = f :: rest)
    (haddr : SameAddrs σ.world σ'.world)
    (hlive : (σ.world.sender f.activation.sender).isSome = true)
    (hcall : f.call = .compareThreads) (hst' : σ'.stack = rest)
    (hs : σ'.world.sender = σ.world.sender)
    (hb : σ'.world.beingDestroyed = σ.world.beingDestroyed) : σ'.Settled := by
  refine h.of_rest hst (Or.inl hst') (fun s o ho => ?_) (fun s => by rw [hs]) haddr
    (h.holders hst hlive hb fun g hg => hst' ▸ hg)
  rw [hs] at ho
  rw [h.busy s o ho, hst, hst', dispatching_skip rest (Or.inr hcall)]

theorem State.Settled.move {a : Action} (h : σ.Settled) (hk : σ.Marked)
    (hd : DefaultHandler σ a) (hst : σ.stack = f :: rest)
    (hM : Move { σ with stack := rest } f a σ') : σ'.Settled := by
  have haddr : SameAddrs σ.world σ'.world := hM.sameAddrs
  have hf : f ∈ σ.stack := by rw [hst]; exact List.mem_cons_self
  cases hM.turn with
  | begun hret hcall ho hst' hact hslot hold hs hb =>
    exact h.begun hst haddr hcall ho hst' hact hslot hold hs hb
  | finished hret hcall ho hst' hs hb => exact h.finished hst haddr hcall ho hst' hs hb
  | stopped hslot hlock hmark hst' hs hb =>
    exact h.stopped hst haddr ((hk.dead hf hslot).mp hmark) (isSlot_iff.mp hslot).1 hst' hs hb
  | @handling f' hslot hlock hlive hst' hact hcall hold hs hb =>
    have hcall' : f'.call ≠ .compareThreads := by rw [hcall]; decide
    exact h.handling hst haddr hlive (isSlot_iff.mp hslot).1 hst' hact hcall' hold hs hb
  | left hthrow hslot hst' hs hb =>
    have hcall : f.call = .compareThreads := by
      cases hc : f.call with
      | compareThreads => rfl
      | handleException =>
        have := hd f (by rw [hst]; rfl) hc
        rw [hthrow] at this
        cases this
      | _ =>
        rw [hc] at hslot
        cases hslot
    have hlive : (σ.world.sender f.activation.sender).isSome = true := by
      rw [Option.isSome_iff_ne_none]
      intro hn
      rw [(hk.gone f hf hn).1] at hslot
      cases hslot
    exact h.left hst haddr hlive hcall hst' hs hb

end

theorem State.Settled.next {σ σ' : State} {a : Action} (h : σ.Settled) (hI : σ.Inv)
    (hP : σ.Placed) (hk : σ.Marked) (ho : Orderly σ a) (hN : Next σ a σ') : σ'.Settled := by
  cases hN with
  | call hc hD =>
    rcases hD with rfl | hD
    · exact h
    · exact h.call hI hP ho.2.2 hc hD
  | @enter s o sig σ' hs hE =>
    cases hE with
    | @met n c hmet hr =>
      have hlive : (σ.world.sender s).isSome = true := by rw [hs]; rfl
      have hptr : ∀ g ∈ σ.stack, s = g.activation.sender → o.addr = g.activation.senderPtr := by
        rintro g hg rfl
        exact hP.ptr g hg o hs
      refine ⟨fun s' o' ho' => ?_, ⟨fun hc => absurd rfl hc, h.ranked⟩, fun x hx => ?_,
        fun f hf hd => ?_, fun f hf g hg he => ?_⟩
      · rw [h.busy s' o' ho']
        exact congrArg _ (dispatching_skip σ.stack (Or.inr rfl)).symm
      · obtain ⟨g, hg, hd, he⟩ := h.marks x hx
        exact ⟨g, List.mem_cons_of_mem _ hg, hd, he⟩
      · rcases List.mem_cons.mp hf with rfl | hf
        · rw [show σ.world.sender s = none from hd] at hs
          cases hs
        · exact h.fresh f hf hd
      · rcases List.mem_cons.mp hf with rfl | hf' <;> rcases List.mem_cons.mp hg with rfl | hg'
        · rfl
        · exact hptr g hg' he
        · exact (hptr f hf' he.symm).symm
        · exact h.same f hf' g hg' he
    | ended hend =>
      obtain ⟨h1, h2, h3, h4, h5⟩ := h
      have hs' := hend.released.sameObjects.sender
      have hb' := hend.released.sameObjects.beingDestroyed
      refine ⟨?_, h2, ?_, ?_, h5⟩ <;> simp only [hs', hb'] <;> assumption
  | move hst hM => exact h.move hk ho.1 hst hM

/-! ## The activations stop, and no others -/

theorem settled_run {as : List Action} {σ : State} (hr : run State.init as = .ok σ)
    (hm : Runs.Meets step Orderly State.init as) :
    σ.Inv ∧ σ.Placed ∧ σ.Marked ∧ σ.Settled :=
  Runs.run_invariant (I := fun σ => σ.Inv ∧ σ.Placed ∧ σ.Marked ∧ σ.Settled)
    (fun _ a _ ⟨hI, hP, hk, hset⟩ ho hs =>
      have hN := hI.step hs
      ⟨hN.1, hP.next hI (legal_of_step hs) hN.2,
        hk.next hI hP (hset.unmarked hk hP a) ho.2.1 hN.2, hset.next hI hP hk ho hN.2⟩)
    hm hr ⟨inv_init, placed_init, marked_init, settled_init⟩

/-- An activation of a destroyed signal calls nobody. -/
theorem no_call_when_dead {σ σ' : State} {a : Action} (hI : σ.Inv) (hN : Next σ a σ') {f : Frame}
    (hf : f ∈ σ.stack) (hdead : σ.world.sender f.activation.sender = none) {e : CallRecord}
    (he : e ∈ newCalls σ σ') : e.activation ≠ f.activation.id := by
  cases hN with
  | call hc hD => exact absurd he (not_mem_newCalls rfl e)
  | enter ho hE =>
    cases hE with
    | met hmet hr =>
      rw [mem_newCalls_push rfl he]
      exact (Nat.ne_of_lt (hI.numbered f hf)).symm
    | ended hend => exact absurd he (not_mem_newCalls rfl e)
  | @move a g rest σ' hst hM =>
    obtain ⟨_, _, h3, _⟩ := resumed_fields { σ with stack := rest } g
    have hother : (σ.world.sender g.activation.sender).isSome = true →
        g.activation.id ≠ f.activation.id := by
      intro hlive hid
      have hdist := hI.distinct
      rw [hst, List.map_cons, List.pairwise_cons] at hdist
      rw [hst] at hf
      rcases List.mem_cons.mp hf with rfl | hf
      · rw [hdead] at hlive
        cases hlive
      · exact absurd hid (Nat.ne_of_gt (hdist.1 _ (List.mem_map_of_mem hf)))
    cases hM with
    | dispatched hcall ho hc hr =>
      rw [mem_newCalls_push rfl he]
      exact hother (by rw [show σ.world.sender g.activation.sender = some _ from ho]; rfl)
    | next hcall hfree ho hstep hmet hr =>
      rw [mem_newCalls_push h3 he]
      exact hother (by rw [show σ.world.sender g.activation.sender = some _ from ho]; rfl)
    | ended => exact absurd he (not_mem_newCalls h3 e)
    | stopped | handling | left | handlerLeft => exact absurd he (not_mem_newCalls rfl e)

/-- An activation of a live signal ends where its list ends, or by an exception of
`compareThreads`. -/
theorem State.Marked.ends {σ σ' : State} {a : Action} (h : σ.Marked) (hN : Next σ a σ')
    (hd : DefaultHandler σ a) {f : Frame} (hf : f ∈ σ.stack)
    (hlive : (σ.world.sender f.activation.sender).isSome = true)
    (hgone : ∀ g ∈ σ'.stack, g.activation.id ≠ f.activation.id) :
    f.call = .compareThreads ∧ a = .throw ∨
      ∃ c, (σ.world.connectList f.activation.sender).node f.iter = some c ∧
        (σ.world.connectList f.activation.sender).find f.activation.wants
          (σ.world.connectList f.activation.sender).nodeCount c.next = .ok none := by
  cases hN with
  | call hc hD => exact absurd rfl (hgone f hf)
  | enter ho hE =>
    cases hE with
    | met hmet hr => exact absurd rfl (hgone f (List.mem_cons_of_mem _ hf))
    | ended hend => exact absurd rfl (hgone f hf)
  | @move a g rest σ' hst hM =>
    have hfg : f = g := by
      rw [hst] at hf
      rcases List.mem_cons.mp hf with he | hf
      · exact he
      · rcases hM.stack with h1 | ⟨f', h1, _⟩
        · exact absurd rfl (hgone f (h1 ▸ hf))
        · exact absurd rfl (hgone f (h1 ▸ List.mem_cons_of_mem _ hf))
    subst hfg
    have hstay : ∀ {f' : Frame}, σ'.stack = f' :: rest → f'.activation = f.activation → False :=
      fun h1 h2 => hgone _ (h1 ▸ List.mem_cons_self) (congrArg Activation.id h2)
    obtain ⟨h1, _, _, _, _, _, h7, _⟩ := resumed_fields { σ with stack := rest } f
    cases hM with
    | dispatched => exact absurd (hstay rfl rfl) id
    | next => exact absurd (hstay (congrArg _ h1) rfl) id
    | handling => exact absurd (hstay rfl rfl) id
    | @ended b o c w' hcall hfree ho hstep hend =>
      refine Or.inr ⟨c, hstep.cell, ?_⟩
      have hfind := hend.find
      rw [show (State.lessBusy { σ with stack := rest } f o).connectList = σ.world.connectList
        from h7] at hfind
      exact hfind
    | stopped _ hslot _ hmark _ =>
      rw [(h.dead hf hslot).mp hmark] at hlive
      cases hlive
    | left hcall => exact Or.inl ⟨hcall, rfl⟩
    | handlerLeft hcall => cases hd f (by rw [hst]; rfl) hcall

/-- Slots may destroy their signals. Under the default handler, while no new signal
takes the place of one that still has activations in progress: an activation of a
destroyed signal calls nobody, and when its slot ends it does nothing but unlock
its guard, which may free older entries of the list that is gone, and their nodes; an
activation of a live signal runs to the end of its list; and no mark is left when no
activation is in progress. -/
theorem destroyed_by_slot {as : List Action} {σ : State} (hr : run State.init as = .ok σ)
    (hm : Runs.Meets step Orderly State.init as) :
    (∀ f ∈ σ.stack, σ.world.sender f.activation.sender = none → ∀ a σ', step σ a = .ok σ' →
      ∀ e ∈ newCalls σ σ', e.activation ≠ f.activation.id) ∧
    (∀ f rest a, σ.stack = f :: rest → σ.world.sender f.activation.sender = none → a.IsEnd →
      ∃ l, (σ.world.connectList f.activation.sender).unlock f.activation.guard = .ok l ∧
        step σ a = .ok { State.restore { σ with stack := rest } f.activation with
          world := (connectListOf f.activation.sender).set
            (State.unmarked { σ with stack := rest } f) l }) ∧
    (∀ f ∈ σ.stack, (σ.world.sender f.activation.sender).isSome = true → ∀ a σ',
      DefaultHandler σ a → step σ a = .ok σ' →
      (∀ g ∈ σ'.stack, g.activation.id ≠ f.activation.id) →
        f.call = .compareThreads ∧ a = .throw ∨
          ∃ c, (σ.world.connectList f.activation.sender).node f.iter = some c ∧
            (σ.world.connectList f.activation.sender).find f.activation.wants
              (σ.world.connectList f.activation.sender).nodeCount c.next = .ok none) ∧
    (σ.stack = [] → σ.world.beingDestroyed = ∅) := by
  obtain ⟨hI, hP, hk, hset⟩ := settled_run hr hm
  refine ⟨fun f hf hd a σ' hs e he => ?_, fun f rest a hst hd he => hk.stops hI hst he hd,
    fun f hf hl a σ' hh hs hgone => ?_, fun hnil => ?_⟩
  · exact no_call_when_dead hI (hI.step hs).2 hf hd he
  · exact hk.ends (hI.step hs).2 hh hf hl hgone
  · refine Finset.eq_empty_of_forall_notMem fun x hx => ?_
    obtain ⟨f, hf, _⟩ := hset.marks x hx
    rw [hnil] at hf
    cases hf

/-- The slot of a nested emission destroys the signal of both. -/
def nested : List Action :=
  [.newSender 100, .newReceiver,
    .connect .methodSlot 0 (.method 0 (some 1)) 0 (.method 1 (some 1)) .autoConnection false,
    .activate 0 (.method 0 (some 1)), .ret true, .activate 0 (.method 0 (some 1)), .ret true,
    .deleteSender 0, .ret true, .ret true]

theorem destroyed_by_slot_nested : (after nested).world.beingDestroyed = ∅ := by
  have hr : run State.init nested = .ok (after nested) := Runs.run_reached (by decide +kernel)
  have hm : Runs.Meets step Orderly State.init nested := by decide +kernel
  have hidle : (after nested).stack.length = 0 := by decide +kernel
  exact (destroyed_by_slot hr hm).2.2.2 (List.length_eq_zero_iff.mp hidle)

end CsSignal
