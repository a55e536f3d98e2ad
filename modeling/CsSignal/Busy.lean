-- How many dispatches of a signal are in progress, as the signal itself counts them.
import CsSignal.Destroyed
import CsSignal.Context

namespace CsSignal

open LinkedCells Calls RcuList

/-! ## What a run must keep to -/

/-- The innermost call, when it ends and is one of a live signal: no exception
leaves its handler, and no mark of a destroyed signal is at its address. -/
def CountKept (s : SenderId) (σ : State) (a : Action) : Prop :=
  ∀ f ∈ σ.stack.head?, f.activation.sender = s → (σ.world.sender s).isSome = true →
    (a.isThrow = true → f.call ≠ .handleException) ∧
    (a.isRet = true ∨ a.isThrow = true → f.call.isSlot = true →
      f.activation.senderPtr ∉ σ.world.beingDestroyed)

instance (s : SenderId) (σ : State) (a : Action) : Decidable (CountKept s σ a) :=
  inferInstanceAs (Decidable (∀ f ∈ σ.stack.head?, _ → _ → (_ → _) ∧ (_ → _ → _)))

/-! ## The count is exact -/

/-- The counter of the signal is the number of its dispatches in progress. -/
def State.Counted (σ : State) (s : SenderId) : Prop :=
  ∀ o, σ.world.sender s = some o → o.activateBusy = dispatching σ.stack s

theorem not_known {σ : State} (hI : σ.Inv) : dispatching σ.stack σ.world.senderCount = 0 := by
  by_contra hne
  obtain ⟨f, hf, hs, _⟩ := dispatching_pos hne
  rw [← hs] at hne
  exact absurd (hs ▸ hI.known f hf) (Nat.lt_irrefl _)

/-- The new count of dispatches, when one call of the stack is replaced or is over. -/
theorem dispatching_replace {f f' : Frame} {rest : List Frame} (s : SenderId)
    (hact : f'.activation = f.activation)
    (hc : f'.call = .compareThreads ↔ f.call = .compareThreads) :
    dispatching (f' :: rest) s = dispatching (f :: rest) s := by
  rw [dispatching_cons, dispatching_cons, hact]
  simp [hc]

theorem counted_other {σ σ' : State} {s : SenderId} {f : Frame} {rest : List Frame} {a : Action}
    (hst : σ.stack = f :: rest) (hs : f.activation.sender ≠ s) (hT : Turn σ f rest a σ')
    (h : σ.Counted s) : σ'.Counted s := by
  have hskip : ∀ st : List Frame, dispatching (f :: st) s = dispatching st s := fun st =>
    dispatching_skip st (Or.inl hs)
  have hskip' : ∀ f' : Frame, f'.activation = f.activation →
      dispatching (f' :: rest) s = dispatching rest s := fun f' hact =>
    dispatching_skip rest (Or.inl (hact ▸ hs))
  have hold : ∀ o, σ.world.sender s = some o → o.activateBusy = dispatching rest s := by
    intro o ho
    rw [h o ho, hst, hskip]
  intro o ho
  cases hT with
  | begun _ _ _ hst' hact _ _ hs' =>
    rw [hs', withBusy_ne _ (Ne.symm hs)] at ho
    rw [hst', hskip' _ hact]
    exact hold o ho
  | finished _ _ _ hst' hs' =>
    rw [hs', withBusy_ne _ (Ne.symm hs)] at ho
    rcases hst' with hst' | ⟨f', hst', hact, _⟩
    · rw [hst']
      exact hold o ho
    · rw [hst', hskip' _ hact]
      exact hold o ho
  | stopped _ _ _ hst' hs' =>
    rw [hs'] at ho
    rw [hst']
    exact hold o ho
  | handling _ _ _ hst' hact _ _ hs' =>
    rw [hs'] at ho
    rw [hst', hskip' _ hact]
    exact hold o ho
  | left _ _ hst' hs' =>
    rw [hs'] at ho
    rw [hst']
    exact hold o ho

/-- A slot call that finds a mark ends its activation, and leaves the counter alone. -/
theorem Move.marked {σ σ' : State} {f : Frame} {rest : List Frame} {a : Action}
    (hM : Move { σ with stack := rest } f a σ') (hslot : f.call.isSlot = true)
    (hmark : f.activation.senderPtr ∈ σ.world.beingDestroyed) :
    σ'.stack = rest ∧ σ'.world.sender = σ.world.sender := by
  cases hM with
  | dispatched hcall =>
    rw [hcall] at hslot
    cases hslot
  | next _ hfree => exact absurd hmark (hfree hslot).2
  | ended _ hfree => exact absurd hmark (hfree hslot).2
  | stopped _ _ _ _ hrel =>
    refine ⟨rfl, hrel.sameObjects.sender.trans ?_⟩
    unfold State.unmarked
    split <;> rfl
  | handling _ _ hfree => exact absurd hmark hfree
  | left hcall =>
    rw [hcall] at hslot
    cases hslot
  | handlerLeft hcall =>
    rw [hcall] at hslot
    cases hslot

/-- A move of an activation of the signal keeps the count exact just when it meets
the condition. -/
theorem counted_own {σ σ' : State} {s : SenderId} {f : Frame} {rest : List Frame} {a : Action}
    (hst : σ.stack = f :: rest) (hs : f.activation.sender = s)
    (hlive : (σ.world.sender s).isSome = true) (hM : Move { σ with stack := rest } f a σ')
    (h : σ.Counted s) : CountKept s σ a ↔ σ'.Counted s := by
  subst hs
  obtain ⟨o0, ho0⟩ := Option.isSome_iff_exists.mp hlive
  have hcount := h o0 ho0
  rw [hst] at hcount
  have hhead : σ.stack.head? = some f := by rw [hst]; rfl
  have hend := hM.isEnd.ret_or_throw
  have hkept : CountKept f.activation.sender σ a ↔
      (a.isThrow = true → f.call ≠ .handleException) ∧
      (f.call.isSlot = true → f.activation.senderPtr ∉ σ.world.beingDestroyed) := by
    unfold CountKept
    rw [hhead]
    constructor
    · intro hk
      obtain ⟨h1, h2⟩ := hk f rfl rfl hlive
      exact ⟨h1, h2 hend⟩
    · rintro ⟨h1, h2⟩ g hg _ _
      cases hg
      exact ⟨h1, fun _ => h2⟩
  -- the activation is left, and the counter stays one too high
  have hdrift : f.call ≠ .compareThreads → σ'.stack = rest → σ'.world.sender = σ.world.sender →
      ¬ σ'.Counted f.activation.sender := by
    intro hc hst' hs' hcount'
    have := hcount' o0 (by rw [hs', ho0])
    rw [hst'] at this
    rw [dispatching_self rest hc] at hcount
    omega
  rw [hkept]
  by_cases hmark : f.call.isSlot = true ∧ f.activation.senderPtr ∈ σ.world.beingDestroyed
  · obtain ⟨h1, h2⟩ := hM.marked hmark.1 hmark.2
    exact iff_of_false (fun hc => hc.2 hmark.1 hmark.2)
      (hdrift (isSlot_iff.mp hmark.1).1 h1 h2)
  have hmark' : f.call.isSlot = true → f.activation.senderPtr ∉ σ.world.beingDestroyed :=
    fun h1 h2 => hmark ⟨h1, h2⟩
  cases hM.turn with
  | @begun o f' hret hcall ho hst' hact hslot _ hs' =>
    refine iff_of_true ⟨fun _ hc => ?_, hmark'⟩ fun o' ho' => ?_
    · rw [hcall] at hc
      cases hc
    · rw [hs', withBusy_self] at ho'
      cases ho'
      rw [ho0] at ho
      cases ho
      rw [dispatching_skip rest (Or.inr hcall)] at hcount
      rw [hst', ← hact, dispatching_self rest (isSlot_iff.mp hslot).1, hact]
      show o0.activateBusy + 1 = _
      omega
  | @finished o hret hcall ho hst' hs' =>
    have hcount' : dispatching σ'.stack f.activation.sender =
        dispatching rest f.activation.sender := by
      rcases hst' with hst' | ⟨f', hst', _, hc⟩
      · rw [hst']
      · rw [hst', dispatching_skip rest (Or.inr hc)]
    refine iff_of_true ⟨fun ht => ?_, hmark'⟩ fun o' ho' => ?_
    · cases a with
      | throw => cases hret
      | _ => cases ht
    · rw [hs', withBusy_self] at ho'
      cases ho'
      rw [ho0] at ho
      cases ho
      rw [dispatching_self rest hcall] at hcount
      rw [hcount']
      show o0.activateBusy + -1 = _
      omega
  | stopped hslot _ hm => exact absurd hm (hmark' hslot)
  | @handling f' hslot _ _ hst' hact hcall _ hs' =>
    have hne := isSlot_iff.mp hslot
    refine iff_of_true ⟨fun _ => hne.2, hmark'⟩ fun o ho => ?_
    rw [hs', ho0] at ho
    cases ho
    rw [hst', dispatching_replace _ hact, hcount]
    rw [hcall]
    exact iff_of_false (fun hc => nomatch hc) hne.1
  | left hthrow hslot hst' hs' =>
    by_cases hh : f.call = .handleException
    · exact iff_of_false (fun hc => hc.1 (by rw [hthrow]; rfl) hh)
        (hdrift (by rw [hh]; exact fun hc => nomatch hc) hst' hs')
    · refine iff_of_true ⟨fun _ => hh, hmark'⟩ fun o ho => ?_
      have hcmp : f.call = .compareThreads := by
        by_contra hne
        rw [isSlot_iff.mpr ⟨hne, hh⟩] at hslot
        cases hslot
      rw [hs', ho0] at ho
      cases ho
      rw [hst', hcount, dispatching_skip rest (Or.inr hcmp)]

theorem countKept_of_not_end {s : SenderId} {σ : State} {a : Action} (h1 : a.isRet = false)
    (h2 : a.isThrow = false) : CountKept s σ a := by
  intro f _ _ _
  refine ⟨fun h => ?_, fun h => ?_⟩
  · rw [h2] at h
    cases h
  · rcases h with h | h
    · rw [h1] at h
      cases h
    · rw [h2] at h
      cases h

/-- A step keeps the count exact just when it meets the condition. -/
theorem counted_next {σ σ' : State} {s : SenderId} {a : Action} (hI : σ.Inv) (h : σ.Counted s)
    (hN : Next σ a σ') : CountKept s σ a ↔ σ'.Counted s := by
  cases hN with
  | @call a w' hc hD =>
    refine iff_of_true (countKept_of_not_end ?_ ?_) ?_
    · cases a <;> first | rfl | exact absurd hc id
    · cases a <;> first | rfl | exact absurd hc id
    · rcases hD with rfl | hD
      · exact h
      · intro o ho
        rcases hD.old_or_new ho with h1 | ⟨rfl, addr, _, rfl⟩
        · exact h o h1
        · show (0 : Int) = dispatching σ.stack σ.world.senderCount
          rw [not_known hI]
          rfl
  | @enter s' o sig σ' ho hE =>
    refine iff_of_true (countKept_of_not_end rfl rfl) fun o' ho' => ?_
    cases hE with
    | met hmet hr =>
      rw [State.push, dispatching_skip _ (Or.inr rfl)]
      exact h o' ho'
    | ended hend =>
      have hs := hend.released.sameObjects.sender
      exact h o' (hs ▸ ho')
  | @move a f rest σ' hst hM =>
    by_cases hs : f.activation.sender = s
    · cases hlive : σ.world.sender s with
      | some o => exact counted_own hst hs (by rw [hlive]; rfl) hM h
      | none =>
        have hdead : σ'.world.sender s = none :=
          dead_of_next (.move hst hM) (hs ▸ hI.known f (hst ▸ List.mem_cons_self)) hlive
        refine iff_of_true (fun g _ _ hl => ?_) fun o ho => ?_
        · rw [hlive] at hl
          cases hl
        · rw [hdead] at ho
          cases ho
    · refine iff_of_true (fun g hg hgs => ?_) (counted_other hst hs hM.turn h)
      rw [hst] at hg
      cases hg
      exact absurd hgs hs

theorem counted_init (s : SenderId) : State.init.Counted s := fun _ ho => nomatch ho

/-- The count is exact in all states of a run just when all its steps meet the condition. -/
theorem counted_run {σ σ' : State} {s : SenderId} {as : List Action} (hI : σ.Inv)
    (h : σ.Counted s) (hr : run σ as = .ok σ') :
    (∀ pre suf τ, as = pre ++ suf → run σ pre = .ok τ → τ.Counted s) ↔
      Runs.Meets step (CountKept s) σ as := by
  induction as generalizing σ with
  | nil =>
    refine iff_of_true (fun pre suf τ he hτ => ?_) trivial
    obtain ⟨rfl, rfl⟩ := List.nil_eq_append_iff.mp he
    cases hτ
    exact h
  | cons a as ih =>
    obtain ⟨σ1, hs, hr⟩ := Runs.run_cons.mp hr
    obtain ⟨hI1, hN⟩ := hI.step hs
    have hstep := counted_next hI h hN
    constructor
    · intro hall
      have h1 : σ1.Counted s := hall [a] as σ1 rfl (Runs.run_cons.mpr ⟨σ1, hs, rfl⟩)
      refine ⟨hstep.mpr h1, ?_⟩
      rw [hs]
      refine (ih hI1 h1 hr).mp fun pre suf τ he hτ => ?_
      exact hall (a :: pre) suf τ (by rw [he]; rfl) (Runs.run_cons.mpr ⟨σ1, hs, hτ⟩)
    · rintro ⟨hc, hm⟩ pre suf τ he hτ
      rw [hs] at hm
      cases pre with
      | nil =>
        cases hτ
        exact h
      | cons b pre =>
        obtain ⟨rfl, rfl⟩ := List.cons.inj he
        obtain ⟨σ2, hs2, hτ⟩ := Runs.run_cons.mp hτ
        rw [hs, Except.ok.injEq] at hs2
        subst hs2
        exact (ih hI1 (hstep.mp hc) hr).mpr hm pre suf τ rfl hτ

/-! ## The counter over whole runs -/

/-- In every state of the run the counter of the signal is exact. So each of its
activations leaves the counter as it found it, and the destruction of the signal
while none is in progress leaves no mark. -/
structure BusyExact (s : SenderId) (as : List Action) : Prop where
  counted : ∀ pre suf τ, as = pre ++ suf → run State.init pre = .ok τ → τ.Counted s
  restored : ∀ pre sig bs suf τ τ1 τ2 o o', as = pre ++ .activate s sig :: (bs ++ suf) →
    run State.init pre = .ok τ → Leaves τ s sig τ1 bs τ2 → τ.world.sender s = some o →
    τ2.world.sender s = some o' → o'.activateBusy = o.activateBusy
  unmarked : ∀ pre suf τ τ', as = pre ++ suf → run State.init pre = .ok τ →
    (∀ f ∈ τ.stack, f.activation.sender ≠ s) → step τ (.deleteSender s) = .ok τ' →
    τ'.world.beingDestroyed = τ.world.beingDestroyed

/-- The counter is exact in every state of a run just when no exception leaves a
handler of the signal, and no slot call of the signal ends, while the signal lives,
with a mark at its address. -/
theorem busy_exact {as : List Action} {σ : State} (s : SenderId)
    (hr : run State.init as = .ok σ) :
    BusyExact s as ↔ Runs.Meets step (CountKept s) State.init as := by
  have hiff := counted_run (s := s) inv_init (counted_init s) hr
  refine ⟨fun h => hiff.mp h.counted, fun hm => ?_⟩
  have hcount := hiff.mpr hm
  refine ⟨hcount, ?_, fun pre suf τ τ' he hτ hidle hs => ?_⟩
  · intro pre sig bs suf τ τ1 τ2 o o' he hτ hL ho ho'
    have hrun : run State.init (pre ++ .activate s sig :: bs) = .ok τ2 :=
      Runs.run_append.mpr ⟨τ, hτ, Runs.run_cons.mpr ⟨τ1, hL.begins, hL.runs⟩⟩
    have h1 := hcount pre _ τ he hτ o ho
    have h2 := hcount (pre ++ .activate s sig :: bs) suf τ2 (by rw [he]; simp) hrun o' ho'
    have hst := hL.stack (numbered_run (numbered_start none) hτ)
    rw [h2, h1, hst]
  · have hI := inv_reached hτ
    cases (hI.step hs).2 with
    | call hc hD =>
      rcases hD with rfl | hD
      · rfl
      · rw [hD.beingDestroyed]
        unfold Action.marks
        dsimp only
        cases ho : τ.world.sender s with
        | none => rfl
        | some o =>
          have hz : dispatching τ.stack s = 0 := by
            by_contra hne
            obtain ⟨f, hf, hfs, _⟩ := dispatching_pos hne
            exact hidle f hf hfs
          have hb := hcount pre suf τ he hτ o ho
          rw [hz] at hb
          dsimp only
          rw [if_neg]
          omega
    | move hst hM => exact absurd hM.isEnd id

/-- The inner slot throws and its handler returns; then the outer slot throws. -/
def handlersReturn : List Action :=
  emitsInside ++ [.ret true, .throw, .ret true, .throw]

theorem busy_exact_handled : BusyExact 0 handlersReturn :=
  (busy_exact 0 (Runs.run_reached (by decide +kernel))).mpr (by decide +kernel)

/-- The handler of a slot throws, and the counter stays at one. -/
theorem busy_exact_drift :
    ¬ ∀ (s : SenderId) (as : List Action) (σ : State), run State.init as = .ok σ →
      BusyExact s as := by
  intro h
  let as : List Action := emitsInside.take 5 ++ [.ret true, .throw, .throw]
  have hr : run State.init as = .ok (after as) := Runs.run_reached (by decide +kernel)
  have := (h 0 as _ hr).counted as [] _ (List.append_nil _).symm hr ⟨100, 1⟩ (by decide +kernel)
  exact absurd this (by decide +kernel)

end CsSignal
