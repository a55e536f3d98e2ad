-- The two locals of the thread that a slot can ask for: the sender, and the signal.
-- `activate` saves both, sets both, and puts them back by hand, so where they stand
-- depends on how each call of user code inside it ended.
import CsSignal.Activate

namespace CsSignal

open LinkedCells Calls

/-! ## The two cells -/

abbrev Cells := Option SenderId × Option BentoPtr

/-- The current sender and the current signal of the thread. -/
def State.cells (σ : State) : Cells :=
  (σ.threadLocal_currentSender, σ.threadLocal_currentSignal)

/-- What an activation found in the cells. -/
def Activation.prior (act : Activation) : Cells := (act.priorSender, act.priorSignal)

/-- What an activation puts in the cells. -/
def Activation.own (act : Activation) : Cells :=
  (some act.sender, some ⟨act.id, act.signal_Bento⟩)

/-- The program before its first action, when so many allocations succeed. -/
def State.start (allocs : Option Nat) : State := { world := { allocs := allocs } }

/-! ## How control moves -/

/-- What the end of the innermost call does to the stack and to the cells. -/
inductive Turned (σ : State) (f : Frame) (rest : List Frame) (a : Action) (σ' : State) : Prop
  /-- The slot is called. -/
  | slot {f' : Frame} (hret : a.isRet = true) (hcall : f.call = .compareThreads)
      (hst : σ'.stack = f' :: rest) (hact : f'.activation = f.activation)
      (hslot : f'.call.isSlot = true) (hcells : σ'.cells = σ.cells)
  /-- The loop comes to another connection. -/
  | again {f' : Frame} (hret : a.isRet = true) (hcall : f.call ≠ .compareThreads)
      (hst : σ'.stack = f' :: rest) (hact : f'.activation = f.activation)
      (hcmp : f'.call = .compareThreads)
      (hcells : σ'.cells = if f.call = .handleException
        then (some f.activation.sender, σ.cells.2) else σ.cells)
  /-- `activate` returns. -/
  | returned (hcall : f.call ≠ .compareThreads) (hst : σ'.stack = rest) (hcells : σ'.cells = f.activation.prior)
  /-- The slot threw, and `handleException` is called. -/
  | handler {f' : Frame} (hthrow : a.isThrow = true) (hst : σ'.stack = f' :: rest)
      (hact : f'.activation = f.activation) (hcall : f'.call = .handleException)
      (hcells : σ'.cells = f.activation.prior)
  /-- An exception leaves `activate`. -/
  | left (hthrow : a.isThrow = true) (hcall : f.call = .compareThreads ∨ f.call = .handleException)
      (hst : σ'.stack = rest) (hcells : σ'.cells = σ.cells)

/-- What a step does to the stack, to the cells and to the count of activations. -/
inductive Flow (σ : State) (a : Action) (σ' : State) : Prop
  | call (hret : a.isRet = false) (hst : σ'.stack = σ.stack)
      (hcells : σ'.cells = σ.cells) (hn : σ'.activationCount = σ.activationCount)
  /-- `activate` comes to its first connection. -/
  | entered {s : SenderId} {sig : Bento} {f : Frame} (ha : a = .activate s sig)
      (hst : σ'.stack = f :: σ.stack) (hcall : f.call = .compareThreads)
      (hid : f.activation.id = σ.activationCount) (hprior : f.activation.prior = σ.cells)
      (hcells : σ'.cells = f.activation.own) (hn : σ'.activationCount = σ.activationCount + 1)
  /-- `activate` finds no connection. -/
  | passed {s : SenderId} {sig : Bento} (ha : a = .activate s sig) (hst : σ'.stack = σ.stack)
      (hcells : σ'.cells = σ.cells) (hn : σ'.activationCount = σ.activationCount + 1)
  /-- There is no memory for the entry of the guard. -/
  | failed {s : SenderId} {sig : Bento} (ha : a = .activate s sig)
      (hfail : σ.world.allocs = some 0) (hst : σ'.stack = σ.stack)
      (hn : σ'.activationCount = σ.activationCount + 1)
  | turned {f : Frame} {rest : List Frame} (hend : a.isRet = true ∨ a.isThrow = true)
      (hst : σ.stack = f :: rest) (hn : σ'.activationCount = σ.activationCount)
      (hT : Turned σ f rest a σ')

theorem release_ok {σ σ' : State} {act : Activation} (h : σ.release act = .ok σ') :
    σ'.stack = σ.stack ∧ σ'.cells = σ.cells ∧ σ'.activationCount = σ.activationCount := by
  unfold State.release at h
  obtain ⟨w, _, h⟩ := bind_ok h
  cases h
  exact ⟨rfl, rfl, rfl⟩

/-- The loop comes to its end, or to the next connection. -/
theorem advance_ok {σ σ' : State} {act : Activation} {iter : Option Nat}
    (h : σ.advance act iter = .ok σ') :
    σ'.activationCount = σ.activationCount ∧
      (σ'.stack = σ.stack ∧ σ'.cells = act.prior ∨
        ∃ f', σ'.stack = f' :: σ.stack ∧ f'.activation = act ∧ f'.call = .compareThreads ∧
          σ'.cells = σ.cells) := by
  unfold State.advance at h
  obtain ⟨found, _, h⟩ := bind_ok h
  cases found with
  | none =>
    obtain ⟨h1, h2, h3⟩ := release_ok h
    exact ⟨h3, Or.inl ⟨h1, h2⟩⟩
  | some n =>
    unfold State.arrive at h
    obtain ⟨c, _, h⟩ := bind_ok h
    obtain ⟨_, _, h⟩ := bind_ok h
    cases h
    exact ⟨rfl, Or.inr ⟨_, rfl, rfl, rfl, rfl⟩⟩

theorem nextConnection_ok {σ σ' : State} {f : Frame} (h : σ.nextConnection f = .ok σ') :
    σ'.activationCount = σ.activationCount ∧
      (σ'.stack = σ.stack ∧ σ'.cells = f.activation.prior ∨
        ∃ f', σ'.stack = f' :: σ.stack ∧ f'.activation = f.activation ∧
          f'.call = .compareThreads ∧ σ'.cells = σ.cells) := by
  unfold State.nextConnection at h
  obtain ⟨w, _, h⟩ := bind_ok h
  obtain ⟨c, _, h⟩ := bind_ok h
  have := advance_ok h
  exact this

theorem stopEarly_ok {σ σ' : State} {f : Frame} (h : σ.stopEarly f = .ok σ') :
    σ'.stack = σ.stack ∧ σ'.cells = f.activation.prior ∧
      σ'.activationCount = σ.activationCount := by
  unfold State.stopEarly at h
  obtain ⟨h1, h2, h3⟩ := release_ok h
  refine ⟨h1.trans ?_, h2, h3.trans ?_⟩ <;> unfold State.restore <;> dsimp only <;> split <;> rfl

theorem returned_ok {σ σ' : State} {f : Frame} {rest : List Frame} {value : Bool}
    (h : State.returned { σ with stack := rest } f value = .ok σ') :
    σ'.activationCount = σ.activationCount ∧ Turned σ f rest (.ret value) σ' := by
  have hnext : ∀ {τ : State} {c : Cells}, τ.nextConnection f = .ok σ' → τ.stack = rest →
      τ.activationCount = σ.activationCount → τ.cells = c → f.call ≠ .compareThreads →
      c = (if f.call = .handleException then (some f.activation.sender, σ.cells.2) else σ.cells) →
      σ'.activationCount = σ.activationCount ∧ Turned σ f rest (.ret value) σ' := by
    intro τ c hn hst hcount hc hcall hcells
    obtain ⟨h1, ⟨h2, h3⟩ | ⟨f', h2, h3, h4, h5⟩⟩ := nextConnection_ok hn
    · exact ⟨h1.trans hcount, .returned hcall (h2.trans hst) h3⟩
    · exact ⟨h1.trans hcount, .again rfl hcall (h2.trans (by rw [hst])) h3 h4
        (h5.trans (hc.trans hcells))⟩
  have hslot : State.slotReturned { σ with stack := rest } f = .ok σ' → f.call.isSlot = true →
      σ'.activationCount = σ.activationCount ∧ Turned σ f rest (.ret value) σ' := by
    intro hs hcall
    have h1 : f.call ≠ .compareThreads := by
      rintro hc
      rw [hc] at hcall
      cases hcall
    unfold State.slotReturned at hs
    split at hs
    · cases hs
    · split at hs
      · obtain ⟨h2, h3, h4⟩ := stopEarly_ok hs
        exact ⟨h4, .returned h1 h2 h3⟩
      · have h2 : f.call ≠ .handleException := by
          rintro hc
          rw [hc] at hcall
          cases hcall
        exact hnext hs rfl rfl rfl h1 (by rw [if_neg h2]; rfl)
  unfold State.returned at h
  cases hcall : f.call with
  | compareThreads =>
    rw [hcall] at h
    unfold State.dispatch at h
    obtain ⟨o, _, h⟩ := bind_ok h
    obtain ⟨w, _, h⟩ := bind_ok h
    obtain ⟨c, _, h⟩ := bind_ok h
    dsimp only at h
    split at h
    · obtain ⟨_, _, h⟩ := bind_ok h
      cases h
      exact ⟨rfl, .slot rfl hcall rfl rfl (State.isSlot_callFor _ _) rfl⟩
    · cases h
      exact ⟨rfl, .slot rfl hcall rfl rfl (State.isSlot_callFor _ _) rfl⟩
  | invoke =>
    rw [hcall] at h
    exact hslot h (by rw [hcall]; rfl)
  | queueSlot type =>
    rw [hcall] at h
    exact hslot h (by rw [hcall]; rfl)
  | handleException =>
    rw [hcall] at h
    unfold State.handlerReturned at h
    exact hnext h rfl rfl rfl (by rw [hcall]; exact fun hc => nomatch hc) (by rw [if_pos hcall]; rfl)

theorem threw_ok {σ σ' : State} {f : Frame} {rest : List Frame}
    (h : State.threw { σ with stack := rest } f = .ok σ') :
    σ'.activationCount = σ.activationCount ∧ Turned σ f rest .throw σ' := by
  have hslot : State.slotThrew { σ with stack := rest } f = .ok σ' → f.call ≠ .compareThreads →
      σ'.activationCount = σ.activationCount ∧ Turned σ f rest .throw σ' := by
    intro hs hcall
    unfold State.slotThrew at hs
    split at hs
    · cases hs
    · split at hs
      · obtain ⟨h1, h2, h3⟩ := stopEarly_ok hs
        exact ⟨h3, .returned hcall h1 h2⟩
      · obtain ⟨o, _, hs⟩ := bind_ok hs
        cases hs
        exact ⟨rfl, .handler rfl rfl rfl rfl rfl⟩
  unfold State.threw at h
  cases hcall : f.call with
  | compareThreads =>
    rw [hcall] at h
    obtain ⟨h1, h2, h3⟩ := release_ok h
    exact ⟨h3, .left rfl (Or.inl hcall) h1 h2⟩
  | invoke =>
    rw [hcall] at h
    exact hslot h (by rw [hcall]; exact fun hc => nomatch hc)
  | queueSlot type =>
    rw [hcall] at h
    exact hslot h (by rw [hcall]; exact fun hc => nomatch hc)
  | handleException =>
    rw [hcall] at h
    obtain ⟨h1, h2, h3⟩ := release_ok h
    exact ⟨h3, .left rfl (Or.inr hcall) h1 h2⟩

theorem perform_ok {α : Type} {σ σ' : State} {op : Op α} (h : σ.perform op = .ok σ') :
    σ'.stack = σ.stack ∧ σ'.cells = σ.cells ∧ σ'.activationCount = σ.activationCount := by
  unfold State.perform at h
  split at h
  · cases h
    exact ⟨rfl, rfl, rfl⟩
  · cases h
    exact ⟨rfl, rfl, rfl⟩
  · cases h

/-- The lock of the guard fails only when there is no memory. -/
theorem lock_thrown {α : Type} {ref : ListRef α} {w w' : World} {e : Exception}
    (h : ref.lock w = .thrown e w') : w.allocs = some 0 := by
  unfold ListRef.lock at h
  have hcall : ∀ w1 : World, ref.call (fun l => .ok l.rcuReadLock) w1 ≠ .thrown e w' := by
    intro w1 hc
    unfold ListRef.call at hc
    split at hc <;> cases hc
  rcases ha : w.allocs with _ | _ | k
  · have hr : allocate w = .returned () w := by
      unfold allocate
      rw [ha]
    rw [bind_returned hr] at h
    exact absurd h (hcall w)
  · rfl
  · have hr : allocate w = .returned () { w with allocs := some k } := by
      unfold allocate
      rw [ha]
    rw [bind_returned hr] at h
    exact absurd h (hcall _)

theorem activate_ok {σ σ' : State} {s : SenderId} {sig : Bento} (h : σ.activate s sig = .ok σ') :
    Flow σ (.activate s sig) σ' := by
  unfold State.activate at h
  obtain ⟨o, _, h⟩ := bind_ok h
  dsimp only at h
  split at h
  · obtain ⟨h1, ⟨h2, h3⟩ | ⟨f', h2, h3, h4, h5⟩⟩ := advance_ok h
    · exact .passed rfl h2 h3 h1
    · exact .entered rfl h2 h4 (by rw [h3]) (by rw [h3]; rfl) (h5.trans (by rw [h3]; rfl)) h1
  · rename_i hlock
    cases h
    exact .failed rfl (lock_thrown hlock) rfl rfl
  · cases h

theorem flow_of_step {σ σ' : State} {a : Action} (h : step σ a = .ok σ') : Flow σ a σ' := by
  unfold step at h
  split at h
  · cases a with
    | activate s sig => exact activate_ok (mapError_ok h)
    | ret value =>
      dsimp only at h
      split at h
      · cases h
      · rename_i f rest hst
        obtain ⟨h1, h2⟩ := returned_ok (mapError_ok h)
        exact .turned (Or.inl rfl) hst h1 h2
    | throw =>
      dsimp only at h
      split at h
      · cases h
      · rename_i f rest hst
        obtain ⟨h1, h2⟩ := threw_ok (mapError_ok h)
        exact .turned (Or.inr rfl) hst h1 h2
    | newSender addr =>
      cases h
      exact .call rfl rfl rfl rfl
    | newReceiver =>
      cases h
      exact .call rfl rfl rfl rfl
    | _ =>
      obtain ⟨h1, h2, h3⟩ := perform_ok h
      exact .call rfl h1 h2 h3
  · cases h

/-! ## Activations are numbered -/

/-- An activation that began later has a greater number. -/
structure State.Numbered (σ : State) : Prop where
  distinct : (σ.stack.map fun f => f.activation.id).Pairwise (· > ·)
  bound : ∀ f ∈ σ.stack, f.activation.id < σ.activationCount

theorem numbered_start (allocs : Option Nat) : (State.start allocs).Numbered :=
  ⟨.nil, fun _ hf => nomatch hf⟩

theorem Turned.stack {σ σ' : State} {f : Frame} {rest : List Frame} {a : Action}
    (h : Turned σ f rest a σ') :
    σ'.stack = rest ∨ ∃ f', σ'.stack = f' :: rest ∧ f'.activation = f.activation := by
  cases h with
  | slot _ _ hst hact => exact Or.inr ⟨_, hst, hact⟩
  | again _ _ hst hact => exact Or.inr ⟨_, hst, hact⟩
  | returned _ hst => exact Or.inl hst
  | handler _ hst hact => exact Or.inr ⟨_, hst, hact⟩
  | left _ _ hst => exact Or.inl hst

theorem State.Numbered.same {σ σ' : State} (h : σ.Numbered) (hst : σ'.stack = σ.stack)
    (hn : σ.activationCount ≤ σ'.activationCount) : σ'.Numbered := by
  refine ⟨hst ▸ h.distinct, fun f hf => ?_⟩
  rw [hst] at hf
  have := h.bound f hf
  omega

theorem State.Numbered.flow {σ σ' : State} {a : Action} (h : σ.Numbered) (hF : Flow σ a σ') :
    σ'.Numbered := by
  cases hF with
  | call _ hst _ hn => exact h.same hst (by omega)
  | passed _ hst _ hn => exact h.same hst (by omega)
  | failed _ _ hst hn => exact h.same hst (by omega)
  | @entered s sig f _ hst _ hid _ _ hn =>
    refine ⟨?_, fun g hg => ?_⟩
    · rw [hst, List.map_cons, List.pairwise_cons]
      refine ⟨fun i hi => ?_, h.distinct⟩
      obtain ⟨g, hg, rfl⟩ := List.mem_map.mp hi
      rw [hid]
      exact h.bound g hg
    · rw [hst] at hg
      rcases List.mem_cons.mp hg with rfl | hg
      · omega
      · have := h.bound g hg
        omega
  | @turned f rest _ hst hn hT =>
    have hd := h.distinct
    have hb := h.bound
    rw [hst] at hd hb
    rcases hT.stack with hst' | ⟨f', hst', hact⟩
    · refine ⟨?_, fun g hg => ?_⟩
      · rw [hst']
        exact (List.pairwise_cons.mp hd).2
      · rw [hst'] at hg
        rw [hn]
        exact hb g (List.mem_cons_of_mem _ hg)
    · refine ⟨?_, fun g hg => ?_⟩
      · rw [hst', List.map_cons, hact]
        exact hd
      · rw [hst'] at hg
        rw [hn]
        rcases List.mem_cons.mp hg with rfl | hg
        · rw [hact]
          exact hb f List.mem_cons_self
        · exact hb g (List.mem_cons_of_mem _ hg)

theorem numbered_run {σ σ' : State} {as : List Action} (h : σ.Numbered)
    (hr : run σ as = .ok σ') : σ'.Numbered :=
  Runs.run_keeps (fun _ _ _ hI hs => hI.flow (flow_of_step hs)) hr h

/-! ## One whole activation -/

def State.InProgress (σ : State) (id : Nat) : Prop := ∃ f ∈ σ.stack, f.activation.id = id

instance (σ : State) (id : Nat) : Decidable (σ.InProgress id) :=
  inferInstanceAs (Decidable (∃ f ∈ σ.stack, f.activation.id = id))

/-- One whole activation: it begins with the step to `σ`, it is in progress up to
the last of the actions, and there it is left. -/
structure Leaves (σ0 : State) (s : SenderId) (sig : Bento) (σ : State) (bs : List Action)
    (σ1 : State) : Prop where
  begins : step σ0 (.activate s sig) = .ok σ
  runs : run σ bs = .ok σ1
  inside : Runs.Meets step (fun τ _ => τ.InProgress σ0.activationCount) σ bs
  left : ¬ σ1.InProgress σ0.activationCount

/-- The activation is in progress, on top of the stack at its start. -/
def Within (σ0 : State) (act : Activation) (σ : State) : Prop :=
  ∃ above f, σ.stack = above ++ f :: σ0.stack ∧ f.activation = act

theorem Within.flow {σ0 σ σ' : State} {act : Activation} {a : Action} (h : Within σ0 act σ)
    (hF : Flow σ a σ') : Within σ0 act σ' ∨ σ'.stack = σ0.stack := by
  obtain ⟨above, f, hst, hact⟩ := h
  cases hF with
  | call _ hst' => exact Or.inl ⟨above, f, hst'.trans hst, hact⟩
  | passed _ hst' => exact Or.inl ⟨above, f, hst'.trans hst, hact⟩
  | failed _ _ hst' => exact Or.inl ⟨above, f, hst'.trans hst, hact⟩
  | @entered s sig g _ hst' => exact Or.inl ⟨g :: above, f, by rw [hst', hst]; rfl, hact⟩
  | @turned g rest _ hst0 _ hT =>
    rw [hst] at hst0
    cases above with
    | nil =>
      obtain ⟨rfl, rfl⟩ := List.cons.inj hst0
      rcases hT.stack with hst' | ⟨f', hst', hact'⟩
      · exact Or.inr hst'
      · exact Or.inl ⟨[], f', hst', hact'.trans hact⟩
    | cons g' above =>
      obtain ⟨rfl, rfl⟩ := List.cons.inj hst0
      rcases hT.stack with hst' | ⟨f', hst', _⟩
      · exact Or.inl ⟨above, f, hst', hact⟩
      · exact Or.inl ⟨f' :: above, f, hst', hact⟩

/-- The last step of an activation leaves the stack that was there at the start. -/
theorem Within.left {σ0 σ σ1 : State} {act : Activation} {bs : List Action}
    (h0 : ¬ σ0.InProgress act.id) (h : Within σ0 act σ) (hr : run σ bs = .ok σ1)
    (hleft : ¬ σ1.InProgress act.id)
    (hin : Runs.Meets step (fun τ _ => τ.InProgress act.id) σ bs) : σ1.stack = σ0.stack := by
  induction bs generalizing σ with
  | nil =>
    cases hr
    obtain ⟨above, f, hst, rfl⟩ := h
    exact absurd ⟨f, by rw [hst]; simp, rfl⟩ hleft
  | cons b bs ih =>
    obtain ⟨σ2, hs, hr⟩ := Runs.run_cons.mp hr
    obtain ⟨_, hin⟩ := hin
    rw [hs] at hin
    rcases h.flow (flow_of_step hs) with h2 | hst2
    · exact ih h2 hr hin
    · cases bs with
      | nil =>
        cases hr
        exact hst2
      | cons c cs =>
        obtain ⟨g, hg, hid⟩ := hin.1
        rw [hst2] at hg
        exact absurd ⟨g, hg, hid⟩ h0

theorem State.Numbered.not_inProgress {σ : State} (h : σ.Numbered) :
    ¬ σ.InProgress σ.activationCount := by
  rintro ⟨f, hf, hid⟩
  have := h.bound f hf
  omega

/-- An activation leaves the calls that were running before, also when it ends at once,
for it has no connection or no memory for its guard. -/
theorem Leaves.stack {σ0 σ σ1 : State} {s : SenderId} {sig : Bento} {bs : List Action}
    (h : Leaves σ0 s sig σ bs σ1) (hN : σ0.Numbered) : σ1.stack = σ0.stack := by
  -- an activation that is not on the stack after its first step is over
  have hstop : σ.stack = σ0.stack → σ1.stack = σ0.stack := by
    intro hst
    cases bs with
    | nil =>
      cases h.runs
      exact hst
    | cons b bs =>
      obtain ⟨g, hg, hid⟩ := h.inside.1
      rw [hst] at hg
      exact absurd ⟨g, hg, hid⟩ hN.not_inProgress
  cases flow_of_step h.begins with
  | call _ hst => exact hstop hst
  | passed _ hst => exact hstop hst
  | failed _ _ hst => exact hstop hst
  | @entered s' sig' f ha hst hcall hid hprior =>
    have hW : Within σ0 f.activation σ := ⟨[], f, hst, rfl⟩
    exact hW.left (hid ▸ hN.not_inProgress) h.runs (hid ▸ h.left) (hid ▸ h.inside)
  | turned hend => rcases hend with hc | hc <;> cases hc

/-! ## What the cells hold -/

/-- What the cells hold while the call is the innermost one. After a handler
returned only the sender is set again; `handled` has the activations where one did. -/
def Frame.cells (handled : List Nat) (f : Frame) : Cells :=
  if f.call = .handleException then f.activation.prior
  else (some f.activation.sender,
    if f.activation.id ∈ handled then f.activation.priorSignal else f.activation.own.2)

/-- Each activation found what the call below it left in the cells. -/
def Nested (handled : List Nat) : List Frame → Cells → Prop
  | [], cells => cells = (none, none)
  | f :: rest, cells => cells = f.cells handled ∧ Nested handled rest f.activation.prior

/-- The activation whose handler returns. -/
def handlerReturns (σ : State) (a : Action) : List Nat :=
  match σ.stack with
  | f :: _ => if a.isRet = true ∧ f.call = .handleException then [f.activation.id] else []
  | [] => []

/-- The activations whose handler returns in the run. -/
def handlersReturned (σ : State) : List Action → List Nat
  | [] => []
  | a :: as => handlerReturns σ a ++
    match step σ a with
    | .ok σ' => handlersReturned σ' as
    | .error _ => []

/-- No exception leaves `compareThreads`, and there is memory for the entry of a guard. -/
def Unbroken (σ : State) (a : Action) : Prop :=
  (a.isThrow = true → ∀ f ∈ σ.stack.head?, f.call ≠ .compareThreads) ∧
    (a.isActivate = true → σ.world.allocs ≠ some 0)

instance (σ : State) (a : Action) : Decidable (Unbroken σ a) :=
  inferInstanceAs (Decidable ((_ → ∀ f ∈ σ.stack.head?, _) ∧ (_ → _)))

structure State.Contexts (handled : List Nat) (σ : State) : Prop extends σ.Numbered where
  nested : Nested handled σ.stack σ.cells
  old : ∀ i ∈ handled, i < σ.activationCount
  current : ∀ p, σ.threadLocal_currentSignal = some p → p.activation < σ.activationCount
  older : ∀ f ∈ σ.stack, ∀ p, f.activation.priorSignal = some p → p.activation < f.activation.id

theorem contexts_start (allocs : Option Nat) : (State.start allocs).Contexts [] where
  toNumbered := numbered_start allocs
  nested := rfl
  old _ hi := nomatch hi
  current _ hp := nomatch hp
  older _ hf := nomatch hf

theorem Frame.cells_handling {handled : List Nat} {f : Frame} (hc : f.call = .handleException) :
    f.cells handled = f.activation.prior := if_pos hc

theorem Frame.cells_own {handled : List Nat} {f : Frame} (hc : f.call ≠ .handleException) :
    f.cells handled = (some f.activation.sender,
      if f.activation.id ∈ handled then f.activation.priorSignal else f.activation.own.2) := if_neg hc

/-- Another call of the activation finds the same. -/
theorem Frame.cells_congr {handled : List Nat} {f f' : Frame} (hc : f.call ≠ .handleException)
    (hc' : f'.call ≠ .handleException) (hact : f'.activation = f.activation) :
    f'.cells handled = f.cells handled := by
  rw [cells_own hc, cells_own hc', hact]

theorem Frame.cells_append {handled : List Nat} {f : Frame} {i : Nat} (h : f.activation.id ≠ i) :
    f.cells (handled ++ [i]) = f.cells handled := by
  unfold Frame.cells
  simp [h]

/-- A handler that returns changes nothing for the other activations. -/
theorem Nested.append {handled : List Nat} {i : Nat} {stack : List Frame} {cells : Cells}
    (h : Nested handled stack cells) (hi : ∀ f ∈ stack, f.activation.id ≠ i) :
    Nested (handled ++ [i]) stack cells := by
  induction stack generalizing cells with
  | nil => exact h
  | cons f rest ih =>
    obtain ⟨h1, h2⟩ := h
    exact ⟨by rw [h1, Frame.cells_append (hi f List.mem_cons_self)],
      ih h2 fun g hg => hi g (List.mem_cons_of_mem _ hg)⟩

theorem handlerReturns_of_ne {σ : State} {a : Action} {f : Frame} {rest : List Frame}
    (hst : σ.stack = f :: rest) (h : a.isRet = true → f.call ≠ .handleException) :
    handlerReturns σ a = [] := by
  unfold handlerReturns
  rw [hst]
  simp only
  rw [if_neg]
  exact fun hc => h hc.1 hc.2

/-- Only the innermost activation has a handler that returns. -/
theorem Nested.below {handled : List Nat} {σ : State} {a : Action} {f : Frame} {rest : List Frame}
    {cells : Cells} (h : Nested handled rest cells) (hst : σ.stack = f :: rest)
    (hother : ∀ g ∈ rest, g.activation.id ≠ f.activation.id) :
    Nested (handled ++ handlerReturns σ a) rest cells := by
  unfold handlerReturns
  rw [hst]
  dsimp only
  split
  · exact h.append hother
  · rwa [List.append_nil]

theorem mem_handlerReturns {σ : State} {a : Action} {f : Frame} {rest : List Frame} {i : Nat}
    (hst : σ.stack = f :: rest) (hi : i ∈ handlerReturns σ a) : i = f.activation.id := by
  unfold handlerReturns at hi
  rw [hst] at hi
  dsimp only at hi
  split at hi
  · exact List.mem_singleton.mp hi
  · cases hi

theorem handlerReturns_of_isRet {σ : State} {a : Action} (h : a.isRet = false) :
    handlerReturns σ a = [] := by
  unfold handlerReturns
  split
  · rw [if_neg]
    rw [h]
    exact fun hc => nomatch hc.1
  · rfl

/-- A state with the stack and the cells of the old one. -/
theorem State.Contexts.same {handled : List Nat} {σ σ' : State} (h : σ.Contexts handled)
    (hst : σ'.stack = σ.stack) (hcells : σ'.cells = σ.cells)
    (hn : σ.activationCount ≤ σ'.activationCount) : σ'.Contexts handled where
  toNumbered := h.toNumbered.same hst hn
  nested := by
    rw [hst, hcells]
    exact h.nested
  old i hi := Nat.lt_of_lt_of_le (h.old i hi) hn
  current p hp := Nat.lt_of_lt_of_le (h.current p ((congrArg Prod.snd hcells).symm.trans hp)) hn
  older := hst ▸ h.older

section

variable {handled : List Nat} {σ σ' : State} {a : Action} {f f' : Frame} {rest : List Frame}

/-- What holds below the innermost call, also when its handler returns. -/
theorem State.Contexts.below (h : σ.Contexts handled) (hst : σ.stack = f :: rest) :
    Nested (handled ++ handlerReturns σ a) rest f.activation.prior ∧
      ∀ i ∈ handled ++ handlerReturns σ a, i < σ.activationCount := by
  obtain ⟨_, hrest⟩ : Nested handled (f :: rest) σ.cells := hst ▸ h.nested
  have hdist := h.distinct
  rw [hst, List.map_cons, List.pairwise_cons] at hdist
  refine ⟨hrest.below hst fun g hg => ?_, fun i hi => ?_⟩
  · -- the activations below have other numbers
    have := hdist.1 _ (List.mem_map_of_mem hg)
    omega
  · rcases List.mem_append.mp hi with hi | hi
    · exact h.old i hi
    · rw [mem_handlerReturns hst hi]
      exact h.bound f (hst ▸ List.mem_cons_self)

/-- The activation that an innermost call found is an older one. -/
theorem State.Contexts.prior_lt (h : σ.Contexts handled) (hst : σ.stack = f :: rest)
    (hn : σ'.activationCount = σ.activationCount) (hcells : σ'.cells = f.activation.prior)
    (p : BentoPtr) (hp : σ'.threadLocal_currentSignal = some p) :
    p.activation < σ'.activationCount := by
  have hf : f ∈ σ.stack := hst ▸ List.mem_cons_self
  have hlt := h.older f hf p ((congrArg Prod.snd hcells).symm.trans hp)
  have hid := h.bound f hf
  omega

/-- The activation goes on with another call. -/
theorem State.Contexts.goesOn (h : σ.Contexts handled) (hN : σ'.Numbered)
    (hst : σ.stack = f :: rest) (hn : σ'.activationCount = σ.activationCount)
    (hst' : σ'.stack = f' :: rest) (hact : f'.activation = f.activation)
    (hcells : σ'.cells = f'.cells (handled ++ handlerReturns σ a))
    (hcur : σ'.cells.2 = σ.cells.2 ∨ σ'.cells = f.activation.prior) :
    σ'.Contexts (handled ++ handlerReturns σ a) := by
  obtain ⟨hrest, hold⟩ := h.below (a := a) hst
  refine ⟨hN, ?_, fun i hi => ?_, ?_, fun g hg => ?_⟩
  · rw [hst']
    exact ⟨hcells, hact ▸ hrest⟩
  · rw [hn]
    exact hold i hi
  · rcases hcur with hcur | hcur
    · intro p hp
      rw [hn]
      exact h.current p (hcur.symm.trans hp)
    · exact h.prior_lt hst hn hcur
  · rw [hst'] at hg
    rcases List.mem_cons.mp hg with rfl | hg
    · rw [hact]
      exact h.older f (hst ▸ List.mem_cons_self)
    · exact h.older g (hst ▸ List.mem_cons_of_mem _ hg)

/-- The activation is over, and what it found is put back. -/
theorem State.Contexts.over (h : σ.Contexts handled) (hN : σ'.Numbered)
    (hst : σ.stack = f :: rest) (hn : σ'.activationCount = σ.activationCount)
    (hst' : σ'.stack = rest) (hcells : σ'.cells = f.activation.prior) :
    σ'.Contexts (handled ++ handlerReturns σ a) := by
  obtain ⟨hrest, hold⟩ := h.below (a := a) hst
  refine ⟨hN, ?_, fun i hi => ?_, h.prior_lt hst hn hcells, fun g hg => ?_⟩
  · rw [hst', hcells]
    exact hrest
  · rw [hn]
    exact hold i hi
  · rw [hst'] at hg
    exact h.older g (hst ▸ List.mem_cons_of_mem _ hg)

theorem State.Contexts.turned (h : σ.Contexts handled) (hN : σ'.Numbered) (hu : Unbroken σ a)
    (hst : σ.stack = f :: rest) (hn : σ'.activationCount = σ.activationCount)
    (hT : Turned σ f rest a σ') : σ'.Contexts (handled ++ handlerReturns σ a) := by
  obtain ⟨hcells, _⟩ : Nested handled (f :: rest) σ.cells := hst ▸ h.nested
  cases hT with
  | @slot f' hret hcall hst' hact hslot hcells' =>
    have hne' : f'.call ≠ .handleException := by
      rintro hc
      rw [hc] at hslot
      cases hslot
    have hne : f.call ≠ .handleException := by
      rw [hcall]
      exact fun hc => nomatch hc
    refine h.goesOn hN hst hn hst' hact ?_ (Or.inl (congrArg Prod.snd hcells'))
    rw [handlerReturns_of_ne hst fun _ => hne, List.append_nil, hcells', hcells,
      Frame.cells_congr hne hne' hact]
  | @again f' hret hcall hst' hact hcmp hcells' =>
    have hne : f'.call ≠ .handleException := by
      intro hc
      rw [hc] at hcmp
      cases hcmp
    by_cases hh : f.call = .handleException
    · rw [if_pos hh] at hcells'
      have hT' : handlerReturns σ a = [f.activation.id] := by
        unfold handlerReturns
        rw [hst]
        exact if_pos ⟨hret, hh⟩
      have hp : σ.cells.2 = f.activation.priorSignal := by
        rw [hcells, Frame.cells_handling hh]
        rfl
      refine h.goesOn hN hst hn hst' hact ?_ (Or.inl (by rw [hcells']))
      rw [hT', Frame.cells_own hne, hact,
        if_pos (List.mem_append_right _ (List.mem_singleton.mpr rfl)), hcells', hp]
    · rw [if_neg hh] at hcells'
      refine h.goesOn hN hst hn hst' hact ?_ (Or.inl (congrArg Prod.snd hcells'))
      rw [handlerReturns_of_ne hst fun _ => hh, List.append_nil, hcells', hcells,
        Frame.cells_congr hh hne hact]
  | returned _ hst' hcells' => exact h.over hN hst hn hst' hcells'
  | handler hthrow hst' hact hcall hcells' =>
    refine h.goesOn hN hst hn hst' hact ?_ (Or.inr hcells')
    rw [hcells', Frame.cells_handling hcall, hact]
  | left hthrow hcall hst' hcells' =>
    have hh : f.call = .handleException := by
      rcases hcall with hc | hc
      · exact absurd hc (hu.1 hthrow f (by rw [hst]; rfl))
      · exact hc
    exact h.over hN hst hn hst' (by rw [hcells', hcells, Frame.cells_handling hh])

end

theorem State.Contexts.flow {handled : List Nat} {σ σ' : State} {a : Action}
    (h : σ.Contexts handled) (hu : Unbroken σ a) (hF : Flow σ a σ') :
    σ'.Contexts (handled ++ handlerReturns σ a) := by
  have hN := h.toNumbered.flow hF
  cases hF with
  | call hret hst hcells hn =>
    rw [handlerReturns_of_isRet hret, List.append_nil]
    exact h.same hst hcells (by omega)
  | @entered s sig f ha hst hcall hid hprior hcells hn =>
    rw [handlerReturns_of_isRet (by rw [ha]; rfl), List.append_nil]
    have hnew : f.activation.id ∉ handled := fun hi => by
      have := h.old _ hi
      omega
    refine ⟨hN, ?_, fun i hi => ?_, fun p hp => ?_, fun g hg => ?_⟩
    · rw [hst]
      refine ⟨?_, ?_⟩
      · rw [hcells, Frame.cells_own (by rw [hcall]; exact fun hc => nomatch hc), if_neg hnew]
        rfl
      · rw [hprior]
        exact h.nested
    · have := h.old i hi
      omega
    · have := (congrArg Prod.snd hcells).symm.trans hp
      cases this
      dsimp only
      omega
    · rw [hst] at hg
      rcases List.mem_cons.mp hg with rfl | hg
      · intro p hp
        rw [hid]
        exact h.current p ((congrArg Prod.snd hprior).symm.trans hp)
      · exact h.older g hg
  | passed ha hst hcells hn =>
    rw [handlerReturns_of_isRet (by rw [ha]; rfl), List.append_nil]
    exact h.same hst hcells (by omega)
  | failed ha hfail =>
    exact absurd hfail (hu.2 (by rw [ha]; rfl))
  | turned hend hst hn hT => exact h.turned hN hu hst hn hT

theorem State.Contexts.run {handled : List Nat} {σ σ' : State} {as : List Action}
    (h : σ.Contexts handled) (hm : Runs.Meets step Unbroken σ as)
    (hr : run σ as = .ok σ') : σ'.Contexts (handled ++ handlersReturned σ as) := by
  induction as generalizing σ handled with
  | nil =>
    cases hr
    rwa [handlersReturned, List.append_nil]
  | cons a as ih =>
    obtain ⟨σ1, hs, hr⟩ := Runs.run_cons.mp hr
    obtain ⟨hu, hm⟩ := hm
    rw [hs] at hm
    rw [handlersReturned, hs, ← List.append_assoc]
    exact ih (h.flow hu (flow_of_step hs)) hm hr

/-! ## The two results -/

/-- When a slot is called, the current sender and the current signal are those of
its activation, unless a handler of this activation returned before: then the
signal is the one from before the activation. -/
theorem slot_context {allocs : Option Nat} {as : List Action} {σ σ' : State} {f : Frame}
    {rest : List Frame} {b : Bool} (hr : run (State.start allocs) as = .ok σ)
    (hm : Runs.Meets step Unbroken (State.start allocs) as) (hst : σ.stack = f :: rest)
    (hcall : f.call = .compareThreads) (hs : step σ (.ret b) = .ok σ') :
    (∃ f', σ'.stack = f' :: rest ∧ f'.activation = f.activation ∧ f'.call.isSlot = true) ∧
      (σ'.cells = f.activation.own ↔
        f.activation.id ∉ handlersReturned (State.start allocs) as) := by
  have h := (contexts_start allocs).run hm hr
  rw [List.nil_append] at h
  obtain ⟨hcells, _⟩ : Nested _ (f :: rest) σ.cells := hst ▸ h.nested
  rw [Frame.cells_own (by rw [hcall]; exact fun hc => nomatch hc)] at hcells
  cases flow_of_step hs with
  | turned _ hst' _ hT =>
    rw [hst] at hst'
    obtain ⟨rfl, rfl⟩ := List.cons.inj hst'
    cases hT with
    | slot _ _ hst1 hact hslot hc =>
      refine ⟨⟨_, hst1, hact, hslot⟩, ?_⟩
      rw [hc, hcells]
      by_cases hi : f.activation.id ∈ handlersReturned (State.start allocs) as
      · rw [if_pos hi]
        refine ⟨fun he => ?_, fun he => absurd hi he⟩
        -- the signal from before belongs to an older activation
        have := h.older f (hst ▸ List.mem_cons_self) _ (congrArg Prod.snd he)
        exact absurd this (Nat.lt_irrefl _)
      · rw [if_neg hi]
        exact ⟨fun _ => hi, fun _ => rfl⟩
    | again _ hne => exact absurd hcall hne
    | returned hne => exact absurd hcall hne
    | handler hthrow => cases hthrow
    | left hthrow => cases hthrow
  | call hret => cases hret
  | entered ha => cases ha
  | passed ha => cases ha
  | failed ha => cases ha

/-- A slot emits again. -/
def emitsInside : List Action :=
  [.newSender 100, .newReceiver,
    .connect .methodSlot 0 (.method 0 (some 1)) 0 (.method 1 (some 1)) .directConnection false,
    .connect .methodSlot 0 (.method 0 (some 2)) 0 (.method 1 (some 2)) .directConnection false,
    .activate 0 (.method 0 (some 1)), .ret true, .activate 0 (.method 0 (some 2))]

theorem slot_context_inside :
    (Runs.reached step (after emitsInside) [.ret true]).cells =
      (some 0, some ⟨1, .method 0 (some 2)⟩) := by
  let f : Frame := ⟨⟨1, 0, 100, .method 0 (some 2), some 0, some ⟨0, .method 0 (some 1)⟩, 3, 2⟩, 1,
    0, .compareThreads, 0⟩
  have hr : run (State.start none) emitsInside = .ok (after emitsInside) :=
    Runs.run_reached (by decide +kernel)
  have hst : (after emitsInside).stack = f :: (after emitsInside).stack.tail := by decide +kernel
  exact (slot_context hr (by decide +kernel) hst rfl
    (Runs.step_reached (by decide +kernel))).2.mpr (by decide +kernel)

/-- Two connections; the slot of the first one throws, and its handler returns. -/
def throwsFirst : List Action :=
  [.newSender 100, .newReceiver,
    .connect .methodSlot 0 (.method 0 (some 1)) 0 (.method 1 (some 1)) .directConnection false,
    .connect .methodSlot 0 (.method 0 (some 1)) 0 (.method 1 (some 2)) .directConnection false,
    .activate 0 (.method 0 (some 1)), .ret true, .throw, .ret true]

/-- The second slot is called without a current signal. -/
theorem slot_context_lost :
    ¬ ∀ (as : List Action) (σ σ' : State) (f : Frame) (rest : List Frame) (b : Bool),
      run State.init as = .ok σ → Runs.Meets step Unbroken State.init as →
      σ.stack = f :: rest → f.call = .compareThreads → step σ (.ret b) = .ok σ' →
      σ'.cells = f.activation.own := by
  intro h
  let f : Frame := ⟨⟨0, 0, 100, .method 0 (some 1), none, none, 2, 2⟩, 1, 0, .compareThreads, 0⟩
  have hst : (after throwsFirst).stack = f :: (after throwsFirst).stack.tail := by decide +kernel
  have := h throwsFirst _ _ f _ true (Runs.run_reached (by decide +kernel)) (by decide +kernel)
    hst rfl (Runs.step_reached (by decide +kernel))
  exact absurd this (by decide +kernel)

/-- Each call found what the one below it left in the cells; a handler has put it back. -/
def OnTop (bottom : Cells) : List Frame → Cells → Prop
  | [], cells => cells = bottom
  | f :: rest, cells =>
    (f.call = .handleException → cells = f.activation.prior) ∧ OnTop bottom rest f.activation.prior

/-- The calls that run on top of those of an older state, whatever they found there. -/
def Inside (σ0 σ : State) : Prop :=
  ∃ above, σ.stack = above ++ σ0.stack ∧ OnTop σ0.cells above σ.cells

/-- A step that ends none of the older calls. -/
theorem Inside.flow {σ0 σ σ' : State} {a : Action} (h : Inside σ0 σ) (hu : Unbroken σ a)
    (hF : Flow σ a σ') (hne : a.isRet = true ∨ a.isThrow = true → σ.stack ≠ σ0.stack) :
    Inside σ0 σ' := by
  obtain ⟨above, hst, hS⟩ := h
  cases hF with
  | call _ hst' hcells => exact ⟨above, hst'.trans hst, hcells ▸ hS⟩
  | passed _ hst' hcells => exact ⟨above, hst'.trans hst, hcells ▸ hS⟩
  | @entered s sig f _ hst' hcall _ hprior =>
    refine ⟨f :: above, by rw [hst', hst]; rfl, fun hc => ?_, hprior ▸ hS⟩
    rw [hcall] at hc
    cases hc
  | failed ha hfail => exact absurd hfail (hu.2 (by rw [ha]; rfl))
  | @turned f rest hend hst0 _ hT =>
    cases above with
    | nil => exact absurd hst (hne hend)
    | cons g above =>
      rw [hst] at hst0
      obtain ⟨rfl, rfl⟩ := List.cons.inj hst0
      obtain ⟨hhandler, hbelow⟩ := hS
      cases hT with
      | @slot f' _ _ hst' hact hslot =>
        refine ⟨f' :: above, hst', fun hc => ?_, hact ▸ hbelow⟩
        rw [hc] at hslot
        cases hslot
      | @again f' _ _ hst' hact hcmp =>
        refine ⟨f' :: above, hst', fun hc => ?_, hact ▸ hbelow⟩
        rw [hc] at hcmp
        cases hcmp
      | returned _ hst' hcells => exact ⟨above, hst', hcells ▸ hbelow⟩
      | @handler f' _ hst' hact _ hcells =>
        exact ⟨f' :: above, hst', fun _ => hact ▸ hcells, hact ▸ hbelow⟩
      | left hthrow hcall hst' hcells =>
        rcases hcall with hc | hc
        · exact absurd hc (hu.1 hthrow g (by rw [hst]; rfl))
        · rw [← hhandler hc] at hbelow
          exact ⟨above, hst', hcells ▸ hbelow⟩

theorem Inside.run {σ0 σ σ' : State} {bs : List Action} {id : Nat} (h : Inside σ0 σ)
    (h0 : ¬ σ0.InProgress id) (hu : Runs.Meets step Unbroken σ bs)
    (hin : Runs.Meets step (fun τ _ => τ.InProgress id) σ bs) (hr : run σ bs = .ok σ') :
    Inside σ0 σ' := by
  have hstep : ∀ τ a τ', Inside σ0 τ → Unbroken τ a ∧ τ.InProgress id → step τ a = .ok τ' →
      Inside σ0 τ' := fun τ a τ' hI hc hs => hI.flow hc.1 (flow_of_step hs) fun _ hst => by
    obtain ⟨f, hf, hid⟩ := hc.2
    exact h0 ⟨f, hst ▸ hf, hid⟩
  exact Runs.run_invariant hstep (hu.and hin) hr h

/-- An activation leaves the current sender and the current signal as it found them,
whatever happened before, and whatever its slots and handlers do, as long as no
exception leaves `compareThreads` and there is memory for the guards. -/
theorem context_restored {allocs : Option Nat} {as bs : List Action} {σ0 σ σ1 : State}
    {s : SenderId} {sig : Bento} (hr : run (State.start allocs) as = .ok σ0)
    (hm : Runs.Meets step Unbroken σ0 (.activate s sig :: bs))
    (hL : Leaves σ0 s sig σ bs σ1) : σ1.cells = σ0.cells := by
  have hN := numbered_run (numbered_start allocs) hr
  obtain ⟨hu, hmb⟩ := hm
  rw [hL.begins] at hmb
  have h0 : Inside σ0 σ0 := ⟨[], rfl, rfl⟩
  have hbegin : Inside σ0 σ :=
    h0.flow hu (flow_of_step hL.begins) (by simp [Action.isRet, Action.isThrow])
  obtain ⟨above, hst, hS⟩ := hbegin.run hN.not_inProgress hmb hL.inside hL.runs
  rw [hL.stack hN] at hst
  obtain rfl : above = [] := List.self_eq_append_left.mp hst
  exact hS

/-- A slot emits again; the inner slot throws, and so does its handler. -/
def handlerThrows : List Action :=
  [.ret true, .activate 0 (.method 0 (some 2)), .ret true, .throw, .throw, .ret true]

theorem context_restored_thrown :
    (Runs.reached step (after (emitsInside.take 4))
      (.activate 0 (.method 0 (some 1)) :: handlerThrows)).cells = (none, none) := by
  have hr : run (State.start none) (emitsInside.take 4) = .ok (after (emitsInside.take 4)) :=
    Runs.run_reached (by decide +kernel)
  have hL : Leaves (after (emitsInside.take 4)) 0 (.method 0 (some 1))
      (Runs.reached step (after (emitsInside.take 4)) [.activate 0 (.method 0 (some 1))])
      handlerThrows _ :=
    ⟨Runs.step_reached (by decide +kernel), Runs.run_reached (by decide +kernel),
      by decide +kernel, by decide +kernel⟩
  exact (by decide +kernel : (Runs.reached step (after (emitsInside.take 4))
    (.activate 0 (.method 0 (some 1)) :: handlerThrows)).cells = (Runs.reached step
      (Runs.reached step (after (emitsInside.take 4)) [.activate 0 (.method 0 (some 1))])
      handlerThrows).cells).trans
    ((context_restored hr (by decide +kernel) hL).trans (by decide +kernel))

/-- The exception of `compareThreads` leaves the sender of the activation behind. -/
theorem context_restored_lost :
    ¬ ∀ (as bs : List Action) (σ0 σ σ1 : State) (s : SenderId) (sig : Bento),
      run State.init as = .ok σ0 → Leaves σ0 s sig σ bs σ1 → σ1.cells = σ0.cells := by
  intro h
  have hL : Leaves (after (emitsInside.take 4)) 0 (.method 0 (some 1))
      (Runs.reached step (after (emitsInside.take 4)) [.activate 0 (.method 0 (some 1))])
      [.throw] _ :=
    ⟨Runs.step_reached (by decide +kernel), Runs.run_reached (by decide +kernel),
      by decide +kernel, by decide +kernel⟩
  have := h (emitsInside.take 4) [.throw] _ _ _ 0 _ (Runs.run_reached (by decide +kernel)) hL
  exact absurd this (by decide +kernel)

end CsSignal
