-- How an activation learns that its signal is gone: the counter in the signal, the
-- count that each dispatch remembers, and the set of the addresses of the destroyed
-- signals. The set is read by address, so all depends on whose address it is.
import CsSignal.Emission

namespace CsSignal

open LinkedCells Calls RcuList

/-! ## What a run must keep to -/

/-- The dispatch that begins is not for a signal at a marked address. -/
def Unmarked (σ : State) (a : Action) : Prop :=
  a.isRet = true → ∀ f ∈ σ.stack.head?, f.call = .compareThreads →
    f.activation.senderPtr ∉ σ.world.beingDestroyed

instance (σ : State) (a : Action) : Decidable (Unmarked σ a) :=
  inferInstanceAs (Decidable (_ → ∀ f ∈ σ.stack.head?, _ → _))

/-- A signal is destroyed while its activations are in the calls of slots. -/
def InSlots (σ : State) (a : Action) : Prop :=
  ∀ f ∈ σ.stack, a.deletes = some f.activation.sender → f.call ≠ .compareThreads

instance (σ : State) (a : Action) : Decidable (InSlots σ a) :=
  inferInstanceAs (Decidable (∀ f ∈ σ.stack, _ → _))

/-! ## The moves, as far as counters and marks go -/

/-- What a move does to the signals, to the mark set and to its mutex. -/
inductive Turn (σ : State) (f : Frame) (rest : List Frame) (a : Action) (σ' : State) : Prop
  /-- A dispatch begins. -/
  | begun {o : SignalBase} {f' : Frame} (hret : a.isRet = true) (hcall : f.call = .compareThreads)
      (ho : σ.world.sender f.activation.sender = some o)
      (hst : σ'.stack = f' :: rest) (hact : f'.activation = f.activation)
      (hslot : f'.call.isSlot = true) (hold : f'.old_activateBusy = o.activateBusy)
      (hs : σ'.world.sender = (σ.world.withBusy f.activation.sender o (o.activateBusy + 1)).sender)
      (hb : σ'.world.beingDestroyed = σ.world.beingDestroyed)
      (hl : σ'.world.destroyedLocked = σ.world.destroyedLocked)
  /-- A dispatch is over, and the loop goes on or ends. -/
  | finished {o : SignalBase} (hret : a.isRet = true) (hcall : f.call ≠ .compareThreads)
      (ho : σ.world.sender f.activation.sender = some o)
      (hst : σ'.stack = rest ∨ ∃ f', σ'.stack = f' :: rest ∧ f'.activation = f.activation ∧
        f'.call = .compareThreads)
      (hs : σ'.world.sender = (σ.world.withBusy f.activation.sender o (o.activateBusy + -1)).sender)
      (hb : σ'.world.beingDestroyed = σ.world.beingDestroyed)
      (hl : σ'.world.destroyedLocked =
        if f.call = .handleException then false else σ.world.destroyedLocked)
  /-- The mark is found, and the activation stops. -/
  | stopped (hslot : f.call.isSlot = true) (hlock : σ.world.destroyedLocked = false)
      (hmark : f.activation.senderPtr ∈ σ.world.beingDestroyed) (hst : σ'.stack = rest)
      (hs : σ'.world.sender = σ.world.sender)
      (hb : σ'.world.beingDestroyed = if f.old_activateBusy = 0 then
        σ.world.beingDestroyed.erase f.activation.senderPtr else σ.world.beingDestroyed)
      (hl : σ'.world.destroyedLocked = σ.world.destroyedLocked)
  /-- The slot threw, and its handler runs. -/
  | handling {f' : Frame} (hslot : f.call.isSlot = true) (hlock : σ.world.destroyedLocked = false)
      (hlive : (σ.world.sender f.activation.sender).isSome = true)
      (hst : σ'.stack = f' :: rest) (hact : f'.activation = f.activation)
      (hcall : f'.call = .handleException) (hold : f'.old_activateBusy = f.old_activateBusy)
      (hs : σ'.world.sender = σ.world.sender)
      (hb : σ'.world.beingDestroyed = σ.world.beingDestroyed)
      (hl : σ'.world.destroyedLocked = true)
  /-- An exception leaves the activation. -/
  | left (hthrow : a = .throw) (hslot : f.call.isSlot = false) (hst : σ'.stack = rest)
      (hs : σ'.world.sender = σ.world.sender)
      (hb : σ'.world.beingDestroyed = σ.world.beingDestroyed)
      (hl : σ'.world.destroyedLocked =
        if f.call = .handleException then false else σ.world.destroyedLocked)

theorem resumed_locked (σ : State) (f : Frame) : (σ.resumed f).world.destroyedLocked =
    if f.call = .handleException then false else σ.world.destroyedLocked := by
  unfold State.resumed
  cases hc : f.call <;> rfl

theorem lessBusy_sender (σ : State) (f : Frame) (o : SignalBase) : (σ.lessBusy f o).sender =
    (σ.world.withBusy f.activation.sender o (o.activateBusy + -1)).sender := by
  obtain ⟨_, _, _, _, _, h6, _⟩ := resumed_fields σ f
  show Function.update (σ.resumed f).world.sender _ _ = _
  rw [h6]
  rfl

theorem Move.turn {σ σ' : State} {f : Frame} {rest : List Frame} {a : Action}
    (hM : Move { σ with stack := rest } f a σ') : Turn σ f rest a σ' := by
  obtain ⟨h1, _, _, _, _, _, _, h8⟩ := resumed_fields { σ with stack := rest } f
  have hlock := resumed_locked { σ with stack := rest } f
  have hless := lessBusy_sender { σ with stack := rest } f
  cases hM with
  | @dispatched b o c hcall ho hc hr =>
    exact .begun rfl hcall ho rfl rfl (State.isSlot_callFor _ _) rfl rfl rfl rfl
  | @next b o c c' n hcall hfree ho hstep hmet hr =>
    exact .finished rfl hcall ho (Or.inr ⟨_, congrArg _ h1, rfl, rfl⟩) (hless o) h8 hlock
  | @ended b o c w' hcall hfree ho hstep hend =>
    have hsame := hend.released.sameObjects
    exact .finished rfl hcall ho (Or.inl h1) (hsame.sender.trans (hless o))
      (hsame.beingDestroyed.trans h8) (hsame.destroyedLocked.trans hlock)
  | @stopped a w' hend hcall hlk hmark hrel =>
    have hsame := hrel.sameObjects
    refine .stopped hcall hlk hmark rfl (hsame.sender.trans ?_) (hsame.beingDestroyed.trans ?_)
      (hsame.destroyedLocked.trans ?_) <;> unfold State.unmarked <;> split <;> rfl
  | @handling o hcall hlk hmark ho =>
    exact .handling hcall hlk (by rw [show σ.world.sender f.activation.sender = some o from ho]; rfl)
      rfl rfl rfl rfl rfl rfl rfl
  | @left w' hcall hrel =>
    have hsame := hrel.sameObjects
    refine .left rfl (by rw [hcall]; rfl) rfl hsame.sender hsame.beingDestroyed ?_
    rw [hcall]
    exact hsame.destroyedLocked
  | @handlerLeft w' hcall hrel =>
    have hsame := hrel.sameObjects
    refine .left rfl (by rw [hcall]; rfl) rfl hsame.sender hsame.beingDestroyed ?_
    rw [hcall]
    exact hsame.destroyedLocked

/-! ## The invariant -/

/-- Each dispatch in progress remembers a greater count than the ones below it on
the same signal, and less than the signal has. A destroyed signal is marked as
long as one of its activations is in progress, and a live one is not. -/
structure State.Marked (σ : State) : Prop where
  natural : ∀ s o, σ.world.sender s = some o → 0 ≤ o.activateBusy
  counted : ∀ f ∈ σ.stack, f.call ≠ .compareThreads → 0 ≤ f.old_activateBusy ∧
    ∀ o, σ.world.sender f.activation.sender = some o → f.old_activateBusy < o.activateBusy
  rising : σ.stack.Pairwise fun f g => f.call ≠ .compareThreads → g.call ≠ .compareThreads →
    f.activation.sender = g.activation.sender → g.old_activateBusy < f.old_activateBusy
  gone : ∀ f ∈ σ.stack, σ.world.sender f.activation.sender = none →
    f.call.isSlot = true ∧ f.activation.senderPtr ∈ σ.world.beingDestroyed
  free : ∀ f ∈ σ.stack, f.call ≠ .compareThreads →
    (σ.world.sender f.activation.sender).isSome = true →
      f.activation.senderPtr ∉ σ.world.beingDestroyed
  owner : ∀ f ∈ σ.stack, ∀ g ∈ σ.stack, f.call ≠ .compareThreads → g.call ≠ .compareThreads →
    f.activation.senderPtr = g.activation.senderPtr → f.activation.sender = g.activation.sender
  locked : σ.world.destroyedLocked = true ↔ ∃ f ∈ σ.stack, f.call = .handleException
  above : σ.stack.Pairwise fun f g => g.call = .handleException →
    (σ.world.sender f.activation.sender).isSome = true ∧ f.call ≠ .handleException

theorem marked_init : State.init.Marked := by
  constructor <;> simp [State.init]

theorem State.Marked.congr {σ σ' : State} (h : σ.Marked) (hst : σ'.stack = σ.stack)
    (hs : σ'.world.sender = σ.world.sender)
    (hb : σ'.world.beingDestroyed = σ.world.beingDestroyed)
    (hl : σ'.world.destroyedLocked = σ.world.destroyedLocked) : σ'.Marked := by
  obtain ⟨h1, h2, h3, h4, h5, h6, h7, h8⟩ := h
  refine ⟨?_, ?_, ?_, ?_, ?_, ?_, ?_, ?_⟩ <;> simp only [hst, hs, hb, hl] <;> assumption

theorem isSlot_iff {c : CallKind} :
    c.isSlot = true ↔ c ≠ .compareThreads ∧ c ≠ .handleException := by
  cases c <;> simp [CallKind.isSlot]

theorem withBusy_live {w : World} {s : SenderId} {o : SignalBase} (ho : w.sender s = some o)
    (n : Int) (s' : SenderId) :
    (w.withBusy s o n).sender s' = none ↔ w.sender s' = none := by
  have := (withBusy_sameLists ho n).sender s'
  rw [← Option.isNone_iff_eq_none, ← Option.isNone_iff_eq_none]
  cases h1 : (w.withBusy s o n).sender s' <;> cases h2 : w.sender s' <;> simp_all

/-- A signal after a call: it was there before, or it is new. -/
theorem Did.old_or_new {a : Action} {w w' : World} (hD : Did a w w') {s : SenderId}
    {o : SignalBase} (ho : w'.sender s = some o) :
    w.sender s = some o ∨ s = w.senderCount ∧ ∃ addr, a = .newSender addr ∧ o = ⟨addr, 0⟩ := by
  cases hs : w.sender s with
  | some o1 =>
    rcases hD.survive s o1 hs with h1 | ⟨h1, _⟩
    · exact Or.inl (h1.symm.trans ho)
    · rw [ho] at h1
      cases h1
  | none =>
    rcases hD.gone s hs with ⟨h1, _⟩ | ⟨h1, addr, h2, h3⟩
    · rw [ho] at h1
      cases h1
    · exact Or.inr ⟨h1, addr, h2, Option.some.inj (ho.symm.trans h3)⟩

theorem Did.marks_mono {a : Action} {w w' : World} (hD : Did a w w') {x : Addr}
    (hx : x ∈ w.beingDestroyed) : x ∈ w'.beingDestroyed := by
  rw [hD.beingDestroyed]
  unfold Action.marks
  split
  · split
    · split
      · exact Finset.mem_insert_of_mem hx
      · exact hx
    · exact hx
  · exact hx

/-- A signal that is destroyed under a dispatch gets its mark, and no thread can
destroy it that holds the mutex of the marks. -/
theorem State.Marked.delete {σ : State} (h : σ.Marked) (hP : σ.Placed) {w' : World} {f : Frame}
    (hf : f ∈ σ.stack) (hD : Did (.deleteSender f.activation.sender) σ.world w')
    {o : SignalBase} (ho : σ.world.sender f.activation.sender = some o)
    (hc : f.call ≠ .compareThreads) :
    σ.world.destroyedLocked = false ∧ f.activation.senderPtr ∈ w'.beingDestroyed := by
  obtain ⟨h0, hlt⟩ := h.counted f hf hc
  have hb : o.activateBusy > 0 := Int.lt_of_le_of_lt h0 (hlt o ho)
  refine ⟨(hD.ended _ o rfl ho).1 hb, ?_⟩
  rw [(hD.ended _ o rfl ho).2.beingDestroyed, if_pos hb, ← hP.ptr f hf o ho]
  exact Finset.mem_insert_self _ _

theorem State.Marked.call {σ : State} (h : σ.Marked) (hI : σ.Inv) (hP : σ.Placed) {a : Action}
    {w' : World} (hin : InSlots σ a) (hD : Did a σ.world w') :
    State.Marked { σ with world := w' } := by
  have hkeep : ∀ f ∈ σ.stack, ∀ o, w'.sender f.activation.sender = some o →
      σ.world.sender f.activation.sender = some o := by
    intro f hf o ho
    rcases hD.old_or_new ho with h1 | ⟨h1, _⟩
    · exact h1
    · exact absurd (h1 ▸ hI.known f hf) (Nat.lt_irrefl _)
  refine ⟨fun s o ho => ?_, fun f hf hc => ?_, h.rising, fun f hf hdead => ?_,
    fun f hf hc hs => ?_, h.owner, hD.destroyedLocked ▸ h.locked, ?_⟩
  · rcases hD.old_or_new ho with h1 | ⟨_, addr, _, rfl⟩
    · exact h.natural s o h1
    · exact Int.le_refl _
  · obtain ⟨h0, hlt⟩ := h.counted f hf hc
    exact ⟨h0, fun o ho => hlt o (hkeep f hf o ho)⟩
  · cases hs : σ.world.sender f.activation.sender with
    | none => exact ⟨(h.gone f hf hs).1, hD.marks_mono (h.gone f hf hs).2⟩
    | some o =>
      rcases hD.survive _ o hs with h1 | ⟨_, rfl⟩
      · rw [show w'.sender f.activation.sender = none from hdead] at h1
        cases h1
      · have hc := hin f hf rfl
        obtain ⟨hun, hm⟩ := h.delete hP hf hD hs hc
        refine ⟨isSlot_iff.mpr ⟨hc, fun hh => ?_⟩, hm⟩
        rw [h.locked.mpr ⟨f, hf, hh⟩] at hun
        cases hun
  · obtain ⟨o, ho⟩ := Option.isSome_iff_exists.mp hs
    have ho' := hkeep f hf o ho
    intro hm
    rw [show State.world { σ with world := w' } = w' from rfl, hD.beingDestroyed] at hm
    have hfree := h.free f hf hc (by rw [ho']; rfl)
    unfold Action.marks at hm
    split at hm
    · rename_i s
      split at hm
      · rename_i o1 ho1
        split at hm
        · rcases Finset.mem_insert.mp hm with he | hm
          · have := hP.apart _ _ _ _ ho' ho1 ((hP.ptr f hf o ho').trans he)
            subst this
            have hdead := hD.deleted _ rfl
            rw [show w'.sender f.activation.sender = some o from ho] at hdead
            cases hdead
          · exact hfree hm
        · exact hfree hm
      · exact hfree hm
    · exact hfree hm
  · refine h.above.imp_of_mem fun {f g} hf hg hfg hh => ?_
    obtain ⟨hs, hne⟩ := hfg hh
    refine ⟨?_, hne⟩
    obtain ⟨o, ho⟩ := Option.isSome_iff_exists.mp hs
    rcases hD.survive _ o ho with h1 | ⟨_, rfl⟩
    · show (w'.sender f.activation.sender).isSome = true
      rw [h1]
      rfl
    · obtain ⟨hun, _⟩ := h.delete hP hf hD ho (hin f hf rfl)
      rw [h.locked.mpr ⟨g, hg, hh⟩] at hun
      cases hun

/-! ## The moves keep it -/

theorem live_iff {w w' : World} (h : ∀ s, w'.sender s = none ↔ w.sender s = none) (s : SenderId) :
    (w'.sender s).isSome = true ↔ (w.sender s).isSome = true := by
  have := h s
  cases h1 : w'.sender s <;> cases h2 : w.sender s <;> simp_all

/-- The calls below the innermost one, after a move that leaves all signals alive
or dead as they are. -/
theorem State.Marked.rest {σ : State} (h : σ.Marked) {f : Frame} {rest : List Frame}
    (hst : σ.stack = f :: rest) (w' : World)
    (hs : ∀ s, w'.sender s = none ↔ σ.world.sender s = none) :
    (rest.Pairwise fun f g => f.call ≠ .compareThreads → g.call ≠ .compareThreads →
      f.activation.sender = g.activation.sender → g.old_activateBusy < f.old_activateBusy) ∧
    rest.Pairwise fun f g => g.call = .handleException →
      (w'.sender f.activation.sender).isSome = true ∧ f.call ≠ .handleException := by
  have hr := h.rising
  have ha := h.above
  rw [hst, List.pairwise_cons] at hr ha
  exact ⟨hr.2, ha.2.imp fun hfg hh => ⟨(live_iff hs _).mpr (hfg hh).1, (hfg hh).2⟩⟩

/-- No other handler runs below the innermost call when a handler ends. -/
theorem State.Marked.handlers {σ : State} (h : σ.Marked) {f : Frame} {rest : List Frame}
    (hst : σ.stack = f :: rest) :
    (if f.call = .handleException then false else σ.world.destroyedLocked) = true ↔
      ∃ g ∈ rest, g.call = .handleException := by
  have ha := h.above
  have hl := h.locked
  rw [hst, List.pairwise_cons] at ha
  rw [hst] at hl
  by_cases hf : f.call = .handleException
  · rw [if_pos hf]
    refine ⟨fun hc => absurd hc (by decide), fun ⟨g, hg, hh⟩ => absurd hf (ha.1 g hg hh).2⟩
  · rw [if_neg hf, hl]
    simp [hf]

/-- A dispatch begins on a signal at an address that is not marked. -/
theorem State.Marked.begun {σ σ' : State} (h : σ.Marked) (hP : σ.Placed) {f f' : Frame}
    {rest : List Frame} {o : SignalBase} (hst : σ.stack = f :: rest)
    (hcall : f.call = .compareThreads)
    (hmark : f.activation.senderPtr ∉ σ.world.beingDestroyed)
    (ho : σ.world.sender f.activation.sender = some o) (hst' : σ'.stack = f' :: rest)
    (hact : f'.activation = f.activation) (hslot : f'.call.isSlot = true)
    (hold : f'.old_activateBusy = o.activateBusy)
    (hs : σ'.world.sender = (σ.world.withBusy f.activation.sender o (o.activateBusy + 1)).sender)
    (hb : σ'.world.beingDestroyed = σ.world.beingDestroyed)
    (hl : σ'.world.destroyedLocked = σ.world.destroyedLocked) : σ'.Marked := by
  have hf : f ∈ σ.stack := by rw [hst]; exact List.mem_cons_self
  have hin : ∀ g ∈ rest, g ∈ σ.stack := fun g hg => by rw [hst]; exact List.mem_cons_of_mem _ hg
  have hdead : ∀ s, σ'.world.sender s = none ↔ σ.world.sender s = none := fun s => by
    rw [hs]
    exact withBusy_live ho _ s
  have hself : σ'.world.sender f.activation.sender =
      some { o with activateBusy := o.activateBusy + 1 } := by rw [hs, withBusy_self]
  have hne : ∀ s, s ≠ f.activation.sender → σ'.world.sender s = σ.world.sender s := fun s hss => by
    rw [hs, withBusy_ne _ hss]
  have hcount : ∀ g ∈ rest, g.call ≠ .compareThreads →
      f.activation.sender = g.activation.sender → g.old_activateBusy < o.activateBusy :=
    fun g hg hc he => (h.counted g (hin g hg) hc).2 o (he ▸ ho)
  have howner : ∀ g ∈ rest, g.call ≠ .compareThreads →
      f.activation.senderPtr = g.activation.senderPtr →
      f.activation.sender = g.activation.sender := by
    intro g hg hc he
    cases hgs : σ.world.sender g.activation.sender with
    | none => exact absurd (he ▸ (h.gone g (hin g hg) hgs).2) hmark
    | some o' =>
      refine hP.apart _ _ _ _ ho hgs ?_
      rw [hP.ptr f hf o ho, hP.ptr g (hin g hg) o' hgs, he]
  obtain ⟨hrise, habove⟩ := h.rest hst σ'.world hdead
  refine ⟨fun s o' ho' => ?_, fun g hg hc => ?_, ?_, fun g hg hd => ?_, fun g hg hc hlive => ?_,
    fun g1 hg1 g2 hg2 hc1 hc2 he => ?_, ?_, ?_⟩
  · by_cases hss : s = f.activation.sender
    · subst hss
      cases hself.symm.trans ho'
      have := h.natural _ o ho
      show 0 ≤ o.activateBusy + 1
      omega
    · exact h.natural s o' (hne s hss ▸ ho')
  · rw [hst'] at hg
    rcases List.mem_cons.mp hg with rfl | hg
    · refine ⟨hold ▸ h.natural _ o ho, fun o' ho' => ?_⟩
      rw [hact] at ho'
      cases hself.symm.trans ho'
      rw [hold]
      show o.activateBusy < o.activateBusy + 1
      omega
    · refine ⟨(h.counted g (hin g hg) hc).1, fun o' ho' => ?_⟩
      by_cases hss : g.activation.sender = f.activation.sender
      · rw [hss] at ho'
        cases hself.symm.trans ho'
        have := hcount g hg hc hss.symm
        show g.old_activateBusy < o.activateBusy + 1
        omega
      · exact (h.counted g (hin g hg) hc).2 o' (hne _ hss ▸ ho')
  · rw [hst', List.pairwise_cons]
    refine ⟨fun g hg _ hc he => ?_, hrise⟩
    rw [hold]
    exact hcount g hg hc (hact ▸ he)
  · rw [hst'] at hg
    rcases List.mem_cons.mp hg with rfl | hg
    · rw [hact, hself] at hd
      cases hd
    · rw [hb]
      exact h.gone g (hin g hg) ((hdead _).mp hd)
  · rw [hst'] at hg
    rw [hb]
    rcases List.mem_cons.mp hg with rfl | hg
    · rw [hact]
      exact hmark
    · exact h.free g (hin g hg) hc ((live_iff hdead _).mp hlive)
  · rw [hst'] at hg1 hg2
    rcases List.mem_cons.mp hg1 with rfl | hr1 <;> rcases List.mem_cons.mp hg2 with rfl | hr2
    · rfl
    · rw [hact] at he ⊢
      exact howner g2 hr2 hc2 he
    · rw [hact] at he ⊢
      exact (howner g1 hr1 hc1 he.symm).symm
    · exact h.owner g1 (hin g1 hr1) g2 (hin g2 hr2) hc1 hc2 he
  · have := h.handlers hst
    rw [hl, hst']
    rw [if_neg (by rw [hcall]; decide)] at this
    rw [this]
    simp [(isSlot_iff.mp hslot).2]
  · rw [hst', List.pairwise_cons]
    refine ⟨fun g hg hh => ⟨?_, (isSlot_iff.mp hslot).2⟩, habove⟩
    rw [hact, hself]
    rfl

/-- A dispatch is over on a signal that lives. -/
theorem State.Marked.finished {σ σ' : State} (h : σ.Marked) {f : Frame} {rest : List Frame}
    {o : SignalBase} (hst : σ.stack = f :: rest) (hcall : f.call ≠ .compareThreads)
    (ho : σ.world.sender f.activation.sender = some o)
    (hst' : σ'.stack = rest ∨ ∃ f', σ'.stack = f' :: rest ∧ f'.activation = f.activation ∧
      f'.call = .compareThreads)
    (hs : σ'.world.sender = (σ.world.withBusy f.activation.sender o (o.activateBusy + -1)).sender)
    (hb : σ'.world.beingDestroyed = σ.world.beingDestroyed)
    (hl : σ'.world.destroyedLocked =
      if f.call = .handleException then false else σ.world.destroyedLocked) : σ'.Marked := by
  have hin : ∀ g ∈ rest, g ∈ σ.stack := fun g hg => by rw [hst]; exact List.mem_cons_of_mem _ hg
  have hdead : ∀ s, σ'.world.sender s = none ↔ σ.world.sender s = none := fun s => by
    rw [hs]
    exact withBusy_live ho _ s
  have hself : σ'.world.sender f.activation.sender =
      some { o with activateBusy := o.activateBusy + -1 } := by rw [hs, withBusy_self]
  have hne : ∀ s, s ≠ f.activation.sender → σ'.world.sender s = σ.world.sender s := fun s hss => by
    rw [hs, withBusy_ne _ hss]
  obtain ⟨hf0, hflt⟩ := h.counted f (by rw [hst]; exact List.mem_cons_self) hcall
  have hlt := hflt o ho
  obtain ⟨hrise, habove⟩ := h.rest hst σ'.world hdead
  have hfr := h.rising
  rw [hst, List.pairwise_cons] at hfr
  -- what is on the stack now: the calls below, and perhaps a call of `compareThreads`
  have hold : ∀ g ∈ σ'.stack, g ∈ rest ∨ g.activation = f.activation ∧ g.call = .compareThreads := by
    intro g hg
    rcases hst' with hst' | ⟨f', hst', hact, hc⟩
    · exact Or.inl (hst' ▸ hg)
    · rw [hst'] at hg
      rcases List.mem_cons.mp hg with rfl | hg
      · exact Or.inr ⟨hact, hc⟩
      · exact Or.inl hg
  have hmem : ∀ g ∈ σ'.stack, g.call ≠ .compareThreads → g ∈ rest := fun g hg hc =>
    (hold g hg).resolve_right fun hn => hc hn.2
  refine ⟨fun s o' ho' => ?_, fun g hg hc => ?_, ?_, fun g hg hd => ?_, fun g hg hc hlive => ?_,
    fun g1 hg1 g2 hg2 hc1 hc2 he => ?_, ?_, ?_⟩
  · by_cases hss : s = f.activation.sender
    · subst hss
      cases hself.symm.trans ho'
      show 0 ≤ o.activateBusy + -1
      omega
    · exact h.natural s o' (hne s hss ▸ ho')
  · have hg' := hmem g hg hc
    refine ⟨(h.counted g (hin g hg') hc).1, fun o' ho' => ?_⟩
    by_cases hss : g.activation.sender = f.activation.sender
    · rw [hss] at ho'
      cases hself.symm.trans ho'
      have := hfr.1 g hg' hcall hc hss.symm
      show g.old_activateBusy < o.activateBusy + -1
      omega
    · exact (h.counted g (hin g hg') hc).2 o' (hne _ hss ▸ ho')
  · rcases hst' with hst' | ⟨f', hst', _, hc⟩
    · rw [hst']
      exact hrise
    · rw [hst', List.pairwise_cons]
      exact ⟨fun g _ hc' => absurd hc hc', hrise⟩
  · rw [hb]
    rcases hold g hg with hg | ⟨hact, _⟩
    · exact h.gone g (hin g hg) ((hdead _).mp hd)
    · rw [hact, hself] at hd
      cases hd
  · rw [hb]
    exact h.free g (hin g (hmem g hg hc)) hc ((live_iff hdead _).mp hlive)
  · exact h.owner g1 (hin g1 (hmem g1 hg1 hc1)) g2 (hin g2 (hmem g2 hg2 hc2)) hc1 hc2 he
  · rw [hl, h.handlers hst]
    rcases hst' with hst' | ⟨f', hst', _, hc⟩
    · rw [hst']
    · rw [hst']
      simp [hc]
  · rcases hst' with hst' | ⟨f', hst', hact, hc⟩
    · rw [hst']
      exact habove
    · rw [hst', List.pairwise_cons]
      refine ⟨fun g hg _ => ⟨?_, by rw [hc]; decide⟩, habove⟩
      rw [hact, hself]
      rfl

/-- A live signal under a dispatch has no mark, so what stops is destroyed. -/
theorem State.Marked.dead {σ : State} (h : σ.Marked) {f : Frame} (hf : f ∈ σ.stack)
    (hslot : f.call.isSlot = true) :
    f.activation.senderPtr ∈ σ.world.beingDestroyed ↔
      σ.world.sender f.activation.sender = none := by
  constructor
  · intro hmark
    by_contra hn
    exact h.free f hf (isSlot_iff.mp hslot).1 (Option.isSome_iff_ne_none.mpr hn) hmark
  · exact fun hd => (h.gone f hf hd).2

theorem State.Marked.stopped {σ σ' : State} (h : σ.Marked) {f : Frame} {rest : List Frame}
    (hst : σ.stack = f :: rest) (hslot : f.call.isSlot = true) (hst' : σ'.stack = rest)
    (hs : σ'.world.sender = σ.world.sender)
    (hb : σ'.world.beingDestroyed = if f.old_activateBusy = 0 then
      σ.world.beingDestroyed.erase f.activation.senderPtr else σ.world.beingDestroyed)
    (hl : σ'.world.destroyedLocked = σ.world.destroyedLocked) : σ'.Marked := by
  have hin : ∀ g ∈ rest, g ∈ σ.stack := fun g hg => by rw [hst]; exact List.mem_cons_of_mem _ hg
  have hf : f ∈ σ.stack := by rw [hst]; exact List.mem_cons_self
  obtain ⟨hc, hnh⟩ := isSlot_iff.mp hslot
  obtain ⟨hrise, habove⟩ := h.rest hst σ'.world fun s => by rw [hs]
  have hfr := h.rising
  rw [hst, List.pairwise_cons] at hfr
  have hsub : ∀ x ∈ σ'.world.beingDestroyed, x ∈ σ.world.beingDestroyed := by
    intro x hx
    rw [hb] at hx
    split at hx
    · exact Finset.mem_of_mem_erase hx
    · exact hx
  refine ⟨hs ▸ h.natural, fun g hg hc' => ?_, hst' ▸ hrise, fun g hg hd => ?_,
    fun g hg hc' hlive hm => ?_, fun g1 hg1 g2 hg2 => ?_, ?_, hst' ▸ habove⟩
  · rw [hs]
    exact h.counted g (hin g (hst' ▸ hg)) hc'
  · rw [hst'] at hg
    rw [hs] at hd
    obtain ⟨hslot', hm⟩ := h.gone g (hin g hg) hd
    refine ⟨hslot', ?_⟩
    rw [hb]
    split
    · rename_i h0
      refine Finset.mem_erase.mpr ⟨fun he => ?_, hm⟩
      -- only the lowest dispatch on a signal remembers zero
      have hc' := (isSlot_iff.mp hslot').1
      have hlt := hfr.1 g hg hc hc' (h.owner f hf g (hin g hg) hc hc' he.symm)
      have := (h.counted g (hin g hg) hc').1
      omega
    · exact hm
  · exact h.free g (hin g (hst' ▸ hg)) hc' (hs ▸ hlive) (hsub _ hm)
  · exact h.owner g1 (hin g1 (hst' ▸ hg1)) g2 (hin g2 (hst' ▸ hg2))
  · have := h.handlers hst
    rw [if_neg hnh] at this
    rw [hl, hst', this]

/-- The slot threw, in a thread that does not hold the mutex of the marks. -/
theorem State.Marked.handling {σ σ' : State} (h : σ.Marked) {f f' : Frame} {rest : List Frame}
    (hst : σ.stack = f :: rest) (hslot : f.call.isSlot = true)
    (hlock : σ.world.destroyedLocked = false)
    (hlive : (σ.world.sender f.activation.sender).isSome = true) (hst' : σ'.stack = f' :: rest)
    (hact : f'.activation = f.activation) (hcall : f'.call = .handleException)
    (hold : f'.old_activateBusy = f.old_activateBusy) (hs : σ'.world.sender = σ.world.sender)
    (hb : σ'.world.beingDestroyed = σ.world.beingDestroyed)
    (hl : σ'.world.destroyedLocked = true) : σ'.Marked := by
  have hin : ∀ g ∈ rest, g ∈ σ.stack := fun g hg => by rw [hst]; exact List.mem_cons_of_mem _ hg
  have hf : f ∈ σ.stack := by rw [hst]; exact List.mem_cons_self
  have hc := (isSlot_iff.mp hslot).1
  obtain ⟨hrise, habove⟩ := h.rest hst σ'.world fun s => by rw [hs]
  have hfr := h.rising
  rw [hst, List.pairwise_cons] at hfr
  -- the new call stands where the slot call stood
  have hmem : ∀ g ∈ σ'.stack, ∃ g0 ∈ σ.stack, g0.activation = g.activation ∧
      g0.old_activateBusy = g.old_activateBusy ∧
      (g.call ≠ .compareThreads → g0.call ≠ .compareThreads) ∧ (g = f' ∨ g = g0) := by
    intro g hg
    rw [hst'] at hg
    rcases List.mem_cons.mp hg with rfl | hg
    · exact ⟨f, hf, hact.symm, hold.symm, fun _ => hc, Or.inl rfl⟩
    · exact ⟨g, hin g hg, rfl, rfl, id, Or.inr rfl⟩
  refine ⟨hs ▸ h.natural, fun g hg hc' => ?_, ?_, fun g hg hd => ?_, fun g hg hc' hs' => ?_,
    fun g1 hg1 g2 hg2 hc1 hc2 he => ?_, ?_, ?_⟩
  · obtain ⟨g0, hg0, ha, ho, hcc, _⟩ := hmem g hg
    rw [hs, ← ha, ← ho]
    exact h.counted g0 hg0 (hcc hc')
  · rw [hst', List.pairwise_cons]
    refine ⟨fun g hg _ hc' he => ?_, hrise⟩
    rw [hold]
    exact hfr.1 g hg hc hc' (hact ▸ he)
  · rw [hs] at hd
    obtain ⟨g0, hg0, ha, _, _, rfl | rfl⟩ := hmem g hg
    · rw [hact] at hd
      rw [hd] at hlive
      cases hlive
    · rw [hb]
      exact h.gone g hg0 hd
  · obtain ⟨g0, hg0, ha, _, hcc, _⟩ := hmem g hg
    rw [hb, ← ha]
    exact h.free g0 hg0 (hcc hc') (by rw [ha, ← hs]; exact hs')
  · obtain ⟨a0, ha0, ha, _, hca, _⟩ := hmem g1 hg1
    obtain ⟨b0, hb0, hb', _, hcb, _⟩ := hmem g2 hg2
    rw [← ha, ← hb'] at he ⊢
    exact h.owner a0 ha0 b0 hb0 (hca hc1) (hcb hc2) he
  · rw [hl, hst']
    simp [hcall]
  · rw [hst', List.pairwise_cons]
    refine ⟨fun g hg hh => ?_, habove⟩
    rw [h.locked.mpr ⟨g, hin g hg, hh⟩] at hlock
    cases hlock

/-- An exception leaves the activation, and its signal stays as it is. -/
theorem State.Marked.left {σ σ' : State} (h : σ.Marked) {f : Frame} {rest : List Frame}
    (hst : σ.stack = f :: rest) (hst' : σ'.stack = rest) (hs : σ'.world.sender = σ.world.sender)
    (hb : σ'.world.beingDestroyed = σ.world.beingDestroyed)
    (hl : σ'.world.destroyedLocked =
      if f.call = .handleException then false else σ.world.destroyedLocked) : σ'.Marked := by
  have hin : ∀ g ∈ σ'.stack, g ∈ σ.stack := fun g hg => by
    rw [hst]
    exact List.mem_cons_of_mem _ (hst' ▸ hg)
  obtain ⟨hrise, habove⟩ := h.rest hst σ'.world fun s => by rw [hs]
  refine ⟨hs ▸ h.natural, fun g hg hc => ?_, hst' ▸ hrise, fun g hg hd => ?_,
    fun g hg hc hlive => ?_, fun g1 hg1 g2 hg2 => h.owner g1 (hin g1 hg1) g2 (hin g2 hg2), ?_,
    hst' ▸ habove⟩
  · rw [hs]
    exact h.counted g (hin g hg) hc
  · rw [hb]
    exact h.gone g (hin g hg) (hs ▸ hd)
  · rw [hb]
    exact h.free g (hin g hg) hc (hs ▸ hlive)
  · rw [hl, h.handlers hst, hst']

/-- A step of a run in which no dispatch begins at a marked address keeps the
counts and the marks in step. -/
theorem State.Marked.next {σ σ' : State} {a : Action} (h : σ.Marked) (hI : σ.Inv) (hP : σ.Placed)
    (hu : Unmarked σ a) (hin : InSlots σ a) (hN : Next σ a σ') : σ'.Marked := by
  cases hN with
  | call hc hD =>
    rcases hD with rfl | hD
    · exact h
    · exact h.call hI hP hin hD
  | @enter s o sig σ' ho hE =>
    cases hE with
    | met hmet hr =>
      refine ⟨h.natural, fun f hf hc => ?_, ?_, fun f hf hd => ?_, fun f hf hc => ?_,
        fun f hf g hg hc hc' => ?_, ?_, ?_⟩
      · rcases List.mem_cons.mp hf with rfl | hf
        · exact absurd rfl hc
        · exact h.counted f hf hc
      · exact List.pairwise_cons.mpr ⟨fun g _ hc => absurd rfl hc, h.rising⟩
      · rcases List.mem_cons.mp hf with rfl | hf
        · rw [show σ.world.sender s = none from hd] at ho
          cases ho
        · exact h.gone f hf hd
      · rcases List.mem_cons.mp hf with rfl | hf
        · exact absurd rfl hc
        · exact h.free f hf hc
      · rcases List.mem_cons.mp hf with rfl | hf
        · exact absurd rfl hc
        · rcases List.mem_cons.mp hg with rfl | hg
          · exact absurd rfl hc'
          · exact h.owner f hf g hg hc hc'
      · refine h.locked.trans ?_
        simp [State.push, State.entered]
      · refine List.pairwise_cons.mpr ⟨fun g _ _ => ⟨?_, by simp⟩, h.above⟩
        show (σ.world.sender s).isSome = true
        rw [ho]
        rfl
    | ended hend =>
      have hsame := hend.released.sameObjects
      exact h.congr rfl hsame.sender hsame.beingDestroyed hsame.destroyedLocked
  | @move a f rest σ' hst hM =>
    cases hM.turn with
    | begun hret hcall ho hst' hact hslot hold hs hb hl =>
      exact h.begun hP hst hcall (hu hret f (by rw [hst]; rfl) hcall) ho hst' hact hslot hold hs hb hl
    | finished hret hcall ho hst' hs hb hl => exact h.finished hst hcall ho hst' hs hb hl
    | stopped hslot hlock hmark hst' hs hb hl => exact h.stopped hst hslot hst' hs hb hl
    | handling hslot hlock hlive hst' hact hcall hold hs hb hl =>
      exact h.handling hst hslot hlock hlive hst' hact hcall hold hs hb hl
    | left hthrow hslot hst' hs hb hl => exact h.left hst hst' hs hb hl

/-- When the innermost call was made for a destroyed signal, its end does nothing
but stop the activation: the guard is unlocked, and the mark is taken away with
the lowest dispatch. -/
theorem State.Marked.stops {σ : State} (h : σ.Marked) (hI : σ.Inv) {f : Frame} {rest : List Frame}
    {a : Action} (hst : σ.stack = f :: rest) (hend : a.IsEnd)
    (hdead : σ.world.sender f.activation.sender = none) :
    ∃ l, (σ.world.connectList f.activation.sender).unlock f.activation.guard = .ok l ∧
      step σ a = .ok { State.restore { σ with stack := rest } f.activation with
        world := (connectListOf f.activation.sender).set
          (State.unmarked { σ with stack := rest } f) l } := by
  have hf : f ∈ σ.stack := by rw [hst]; exact List.mem_cons_self
  obtain ⟨hslot, hmark⟩ := h.gone f hf hdead
  obtain ⟨hnc, hnh⟩ := isSlot_iff.mp hslot
  have hw := hI.memory
  rcases end_run hw hend hst with ⟨σ', hs, hN⟩ | ⟨u, hs, hF⟩
  · cases hN with
    | call hc => cases a <;> first | exact absurd hend id | exact absurd hc id
    | enter => exact absurd hend id
    | move hst2 hM =>
      obtain ⟨rfl, rfl⟩ := List.cons.inj (hst.symm.trans hst2)
      cases hM with
      | stopped _ _ _ _ hrel =>
        obtain ⟨l, hun, rfl⟩ := hrel.eq
        refine ⟨l, ?_, hs⟩
        rw [← hun, (unmarked_sameLists _ _).connectList]
      | dispatched hc => exact absurd hc hnc
      | next _ _ ho | ended _ _ ho | handling _ _ _ ho =>
        rw [show σ.world.sender f.activation.sender = some _ from ho] at hdead
        cases hdead
      | left hc => exact absurd hc hnc
      | handlerLeft hc => exact absurd hc hnh
  · cases hF with
    | delete => exact absurd hend id
    | enter => exact absurd hend id
    | move hst2 hC =>
      obtain ⟨rfl, rfl⟩ := List.cons.inj (hst.symm.trans hst2)
      cases hC with
      | relocked _ hl =>
        obtain ⟨g, hg, hh⟩ := h.locked.mp hl
        have ha := h.above
        rw [hst] at hg ha
        rcases List.mem_cons.mp hg with rfl | hg
        · exact absurd hh hnh
        · have := ((List.pairwise_cons.mp ha).1 g hg hh).1
          rw [hdead] at this
          cases this
      | sender _ hno => exact absurd hmark (hno hslot)
      | receiver hc => exact absurd hc hnc
      | next _ ho =>
        rw [show σ.world.sender f.activation.sender = some _ from ho] at hdead
        cases hdead

end CsSignal
