-- The library never deadlocks, except when code that runs inside `handleException` leads
-- back to the mutex of `beingDestroyed`, which `activate` holds there.
import CsSignal.CrossingSteps
import CsSignal.Holding

namespace CsSignal

open LinkedCells Calls

namespace Process

variable {π π' : Process} {t : ThreadId} {f : Running} {fs : List Running}

/-! ## `activate` and the destructors -/

/-- The stack of a thread after its function went on. -/
theorem replaced_setStack (f' : Option Running) (ht : π.thread t = none) (hs : π.stack t = f :: fs)
    (hthread : π'.thread = π.thread) (hstack : π'.stack = π.stack)
    (hbelow : ∀ x ∈ f', x.atDestroyed = true → ∀ y ∈ fs, y.inHandler = false) :
    Replaced π (π'.setStack t (f'.toList ++ fs)) t f fs f' where
  idle := ht
  stack := hs
  thread' := hthread
  stack' := by
    unfold setStack
    rw [hstack]
  below := hbelow

theorem Inv.notInHandler (h : π.Inv) (hs : π.stack t = f :: fs) (hf : f.atDestroyed = true) :
    ∀ y ∈ fs, y.inHandler = false := by
  have hb := h.below t
  rw [hs, List.pairwise_cons] at hb
  exact fun y hy => (hb.1 y hy).2 hf

/-- The function goes on, away from the mutex of `beingDestroyed` or at it as before. -/
theorem Inv.goesOn (h : π.Inv) (f' : Option Running) (ht : π.thread t = none)
    (hs : π.stack t = f :: fs) (hthread : π'.thread = π.thread) (hstack : π'.stack = π.stack)
    (ho : π'.owner = π.owner) (hheld : f'.bind Running.held = f.held)
    (hat : ∀ x ∈ f', x.atDestroyed = true → f.atDestroyed = true) :
    (π'.setStack t (f'.toList ++ fs)).Inv :=
  (replaced_setStack f' ht hs hthread hstack
    fun x hx hxat => h.notInHandler hs (hat x hx hxat)).keep h ho hheld

theorem Inv.locksDestroyed (h : π.Inv) (ht : π.thread t = none) (hs : π.stack t = f :: fs)
    {x : Running} (hf : f.wants = some .beingDestroyed) (hx : x.held = some .beingDestroyed)
    (hstep : π.lockDestroyed t (x :: fs) = .ok π') : π'.Inv := by
  unfold Process.lockDestroyed at hstep
  split at hstep
  · next hfree =>
    cases hstep
    have hr : Replaced π ((π.setDestroyedMutex (some t)).setStack t ((some x).toList ++ fs)) t f fs
        (some x) :=
      replaced_setStack _ ht hs rfl rfl fun y _ _ => h.notInHandler hs (f.atDestroyed_of_wants hf)
    have hfree : π.owner .beingDestroyed = none := hfree
    exact hr.acquire h hfree (owner_setDestroyed rfl rfl rfl) (f.held_of_wants hf) hx
  · cases hstep

theorem Inv.unlocksDestroyed (h : π.Inv) (f' : Option Running) (ht : π.thread t = none)
    (hs : π.stack t = f :: fs) (hf : f.held = some .beingDestroyed)
    (hheld : f'.bind Running.held = none) :
    ((π.setDestroyedMutex none).setStack t (f'.toList ++ fs)).Inv := by
  have hr : Replaced π ((π.setDestroyedMutex none).setStack t (f'.toList ++ fs)) t f fs f' :=
    replaced_setStack _ ht hs rfl rfl fun y _ _ => h.notInHandler hs (f.atDestroyed_of_held hf)
  exact hr.release h _ (owner_setDestroyed rfl rfl rfl) hf hheld

theorem Inv.activateStep {s : SenderId} {signal : Bento} {g : Activating} (h : π.Inv)
    (ht : π.thread t = none) (hs : π.stack t = .activate s signal g :: fs)
    (hstep : π.activateStep t s signal fs g = .ok π') : π'.Inv := by
  cases g with
  | loop g old =>
    simp only [Process.activateStep] at hstep
    split at hstep
    · cases hstep
      exact h.goesOn none ht hs rfl rfl rfl rfl fun x hx => nomatch hx
    · next g' _ _ =>
      cases hstep
      exact h.goesOn (some (.activate s signal (.loop g' old))) ht hs rfl rfl rfl rfl
        (by rintro x ⟨⟩ hx; cases hx)
    · cases hstep
  | lock n old threw => exact h.locksDestroyed ht hs rfl rfl hstep
  | lookup n old threw =>
    simp only [Process.activateStep] at hstep
    split at hstep
    · cases hstep
      refine h.goesOn (some (.activate s signal (.unlock n true))) ht hs ?_ ?_ ?_ rfl
        fun _ _ _ => rfl
      · split <;> rfl
      · split <;> rfl
      · split <;> rfl
    · split at hstep
      · cases hstep
        exact h.goesOn (some (.activate s signal (.handleException n))) ht hs rfl rfl rfl rfl
          fun _ _ _ => rfl
      · cases hstep
        exact h.goesOn (some (.activate s signal (.unlock n false))) ht hs rfl rfl rfl rfl
          fun _ _ _ => rfl
  | handleException n => cases hstep
  | unlock n leaves =>
    simp only [Process.activateStep] at hstep
    split at hstep
    · cases hstep
      exact h.unlocksDestroyed none ht hs rfl rfl
    · cases hstep
      exact h.unlocksDestroyed (some (.activate s signal (.decrement n))) ht hs rfl rfl
  | decrement n =>
    cases hstep
    exact h.goesOn (some (.activate s signal (.loop (.next n) 0))) ht hs rfl rfl rfl rfl
      (by rintro x ⟨⟩ hx; cases hx)

end Process

/-- What a step of a destructor does to the mutexes of the peers. -/
theorem Sweep.Does.mutexes {α β : Type} {d : Cleanup α β} {own : NodeList α} {ps ps' : Peers β}
    {w w' : Sweep} (h : w.Does d own ps ps' w') :
    (ps'.mutex = ps.mutex ∧ w'.holding = w.holding) ∨
    (∃ n p, w = .lock n p ∧ w' = .first n p ∧ ps.mutex p = none ∧
      ps'.mutex = Function.update ps.mutex p (some d.thread)) ∨
    ∃ n p, w = .unlock n p ∧ w' = .next n ∧ ps'.mutex = Function.update ps.mutex p none := by
  cases h with
  | lock hp => exact Or.inr (Or.inl ⟨_, _, rfl, rfl, hp, rfl⟩)
  | unlock => exact Or.inr (Or.inr ⟨_, _, rfl, rfl, rfl⟩)
  | _ => exact Or.inl ⟨rfl, rfl⟩

namespace Process

variable {π π' : Process} {t : ThreadId} {fs : List Running}

/-- A step of the loop of a destructor. `name` says which mutexes are those of its peers. -/
theorem Inv.sweeps {α β : Type} {d : Cleanup α β} {own : NodeList α} {ps ps' : Peers β}
    {w w' : Sweep} (h : π.Inv) (mk : Sweep → Running) (name : Nat → Mutex)
    (hheld : ∀ w, (mk w).held = w.holding.map name) (hat : ∀ w, (mk w).atDestroyed = false)
    (ht : π.thread t = none) (hs : π.stack t = mk w :: fs) (hd : w.Does d own ps ps' w')
    (hdt : d.thread = t) (hmutex : ∀ p, π.owner (name p) = ps.mutex p)
    (hthread : π'.thread = π.thread) (hstack : π'.stack = π.stack)
    (hsame : ps'.mutex = ps.mutex → π'.owner = π.owner)
    (hset : ∀ p o, ps'.mutex = Function.update ps.mutex p o →
      π'.owner = Function.update π.owner (name p) o) :
    (π'.setStack t (if w' = .done then fs else mk w' :: fs)).Inv := by
  have hnot : ∀ f' : Option Running, (∀ x ∈ f', x = mk w') →
      ∀ x ∈ f', x.atDestroyed = true → ∀ y ∈ fs, y.inHandler = false := by
    intro f' hf' x hx hxat
    rw [hf' x hx, hat] at hxat
    cases hxat
  rcases hd.mutexes with ⟨hm, hhold⟩ | ⟨n, p, rfl, rfl, hfree, hm⟩ | ⟨n, p, rfl, rfl, hm⟩
  · split
    · next hdone =>
      subst hdone
      refine (replaced_setStack none ht hs hthread hstack fun x hx => nomatch hx).keep h (hsame hm) ?_
      rw [hheld, ← hhold]
      rfl
    · refine (replaced_setStack (some (mk w')) ht hs hthread hstack
        (hnot _ fun x hx => (Option.some.inj hx).symm)).keep h (hsame hm) ?_
      rw [Option.bind_some, hheld, hheld, hhold]
  · rw [if_neg (fun he => nomatch he)]
    refine (replaced_setStack (some (mk (.first n p))) ht hs hthread hstack
      (hnot _ fun x hx => (Option.some.inj hx).symm)).acquire h ((hmutex p).trans hfree)
      (hdt ▸ hset p _ hm) ?_ ?_
    · rw [hheld]
      rfl
    · rw [Option.bind_some, hheld]
      rfl
  · rw [if_neg (fun he => nomatch he)]
    refine (replaced_setStack (some (mk (.next n))) ht hs hthread hstack
      (hnot _ fun x hx => (Option.some.inj hx).symm)).release h (name p) (hset p _ hm) ?_ ?_
    · rw [hheld]
      rfl
    · rw [Option.bind_some, hheld]
      rfl

theorem Inv.signalBaseStep {s : SenderId} {g : Destroying} (h : π.Inv) (ht : π.thread t = none)
    (hs : π.stack t = .signalBase s g :: fs)
    (hc : g = .begin → π.activateBusy s > 0 → ∀ y ∈ fs, y.inHandler = false)
    (hstep : π.signalBaseStep t s fs g = .ok π') : π'.Inv := by
  cases g with
  | begin =>
    simp only [Process.signalBaseStep] at hstep
    split at hstep
    · next hbusy =>
      cases hstep
      exact (replaced_setStack (some (.signalBase s .lock)) ht hs rfl rfl
        fun x _ _ => hc rfl hbusy).keep h rfl rfl
    · cases hstep
      exact h.goesOn (some (.signalBase s (.sweep .begin))) ht hs rfl rfl rfl rfl
        (by rintro x ⟨⟩ hx; cases hx)
  | lock => exact h.locksDestroyed ht hs rfl rfl hstep
  | insert =>
    cases hstep
    exact h.goesOn (some (.signalBase s .unlock)) ht hs rfl rfl rfl rfl fun _ _ _ => rfl
  | unlock =>
    cases hstep
    exact h.unlocksDestroyed (some (.signalBase s (.sweep .begin))) ht hs rfl rfl
  | sweep w =>
    simp only [Process.signalBaseStep] at hstep
    split at hstep
    · next ps w' hrun =>
      cases hstep
      exact h.sweeps (fun w => .signalBase s (.sweep w)) .possibleSenders (fun _ => rfl)
        (fun _ => rfl) ht hs (Sweep.does_of_step hrun) rfl (fun _ => rfl) rfl rfl
        (fun hm => owner_same rfl hm rfl) fun p o hm => owner_setPossible rfl hm rfl
    · cases hstep

theorem Inv.slotBaseStep {r : ReceiverId} {w : Sweep} (h : π.Inv) (ht : π.thread t = none)
    (hs : π.stack t = .slotBase r w :: fs) (hstep : π.slotBaseStep t r fs w = .ok π') :
    π'.Inv := by
  unfold Process.slotBaseStep at hstep
  split at hstep
  · next ps w' hrun =>
    cases hstep
    exact h.sweeps (fun w => .slotBase r w) .connectList (fun _ => rfl) (fun _ => rfl) ht hs
      (Sweep.does_of_step hrun) rfl (fun _ => rfl) rfl rfl (fun hm => owner_same hm rfl rfl)
      fun p o hm => owner_setConnect hm rfl rfl
  · cases hstep

theorem Inv.runningStep {f : Running} (h : π.Inv) (ht : π.thread t = none)
    (hs : π.stack t = f :: fs)
    (hc : ∀ s, f = .signalBase s .begin → π.activateBusy s > 0 → ∀ y ∈ fs, y.inHandler = false)
    (hstep : π.runningStep t fs f = .ok π') : π'.Inv := by
  cases f with
  | activate s signal g => exact h.activateStep ht hs hstep
  | signalBase s g => exact h.signalBaseStep ht hs (fun hg => hc s (by rw [hg])) hstep
  | slotBase r w => exact h.slotBaseStep ht hs hstep
  | readSender s g =>
    simp only [Process.runningStep] at hstep
    split at hstep
    · next g' _ =>
      cases hstep
      exact h.goesOn (some (.readSender s g')) ht hs rfl rfl rfl rfl (by rintro x ⟨⟩ hx; cases hx)
    · cases hstep
      exact h.goesOn none ht hs rfl rfl rfl rfl fun x hx => nomatch hx
    · cases hstep
  | readReceiver r g =>
    simp only [Process.runningStep] at hstep
    split at hstep
    · next g' _ =>
      cases hstep
      exact h.goesOn (some (.readReceiver r g')) ht hs rfl rfl rfl rfl
        (by rintro x ⟨⟩ hx; cases hx)
    · cases hstep
      exact h.goesOn none ht hs rfl rfl rfl rfl fun x hx => nomatch hx
    · cases hstep

/-! ## User code -/

theorem Inv.returned {fs : List Running} {b : Bool} (h : π.Inv) (ht : π.thread t = none)
    (hs : π.stack t = fs)
    (hc : ∀ s signal n r k old gs, fs = .activate s signal (.loop (.call n r k) old) :: gs →
      ∀ y ∈ gs, y.inHandler = false)
    (hstep : π.returned t b fs = .ok π') : π'.Inv := by
  unfold Process.returned at hstep
  split at hstep
  · next s signal n r old gs =>
    split at hstep
    · next g _ =>
      cases hstep
      exact h.goesOn (some (.activate s signal (.loop g (π.activateBusy s)))) ht hs rfl rfl rfl rfl
        (by rintro x ⟨⟩ hx; cases hx)
    · cases hstep
  · next s signal n r k old gs =>
    cases hstep
    exact (replaced_setStack (some (.activate s signal (.lock n old false))) ht hs rfl rfl
      fun x _ _ => hc s signal n r k old gs rfl).keep h rfl rfl
  · next s signal n gs =>
    cases hstep
    exact h.goesOn (some (.activate s signal (.unlock n false))) ht hs rfl rfl rfl rfl
      fun _ _ _ => rfl
  · cases hstep

theorem Inv.threw {fs : List Running} (h : π.Inv) (ht : π.thread t = none) (hs : π.stack t = fs)
    (hc : ∀ s signal n r k old gs, fs = .activate s signal (.loop (.call n r k) old) :: gs →
      ∀ y ∈ gs, y.inHandler = false)
    (hstep : π.threw t fs = .ok π') : π'.Inv := by
  unfold Process.threw at hstep
  split at hstep
  · cases hstep
    exact h.goesOn none ht hs rfl rfl rfl rfl fun x hx => nomatch hx
  · next s signal n r k old gs =>
    cases hstep
    exact (replaced_setStack (some (.activate s signal (.lock n old true))) ht hs rfl rfl
      fun x _ _ => hc s signal n r k old gs rfl).keep h rfl rfl
  · next s signal n gs =>
    cases hstep
    exact h.goesOn (some (.activate s signal (.unlock n true))) ht hs rfl rfl rfl rfl
      fun _ _ _ => rfl
  · cases hstep

/-- User code calls a function of the library. -/
theorem Inv.pushed (h : π.Inv) (f : Running) (ht : π.thread t = none)
    (hu : ∀ x ∈ π.stack t, x.inUser = true) (hf : f.held = none) (hat : f.atDestroyed = false) :
    (π.setStack t (f :: π.stack t)).Inv := by
  have hstack : (π.setStack t (f :: π.stack t)).stack t = f :: π.stack t := Function.update_self _ _ _
  have hm : Moved π (π.setStack t (f :: π.stack t)) t := by
    refine ⟨fun _ _ => rfl, fun t' ht' => Function.update_of_ne ht' _ _, fun hs => ?_, ?_⟩
    · have hs : (π.thread t).isSome = true := hs
      rw [ht] at hs
      cases hs
    · rw [hstack, List.pairwise_cons]
      refine ⟨fun x hx => ⟨hu x hx, fun he => ?_⟩, h.below t⟩
      rw [hat] at he
      cases he
  refine h.keep hm rfl fun m => ?_
  unfold Holds
  rw [hstack]
  simp [setStack, hf]

/-- The frames below a function, or below user code, are those of user code. -/
theorem Inv.all_inUser (h : π.Inv) (hu : ∀ f fs, π.stack t = f :: fs → f.inUser = true) :
    ∀ x ∈ π.stack t, x.inUser = true := by
  cases hs : π.stack t with
  | nil => exact fun x hx => nomatch hx
  | cons f fs =>
    have hb := h.below t
    rw [hs, List.pairwise_cons] at hb
    intro x hx
    rcases List.mem_cons.mp hx with rfl | hx
    · exact hu x fs hs
    · exact (hb.1 x hx).1

theorem Inv.userStep {e : ProcessEvent} (h : π.Inv) (ht : π.thread t = none)
    (hu : ∀ f fs, π.stack t = f :: fs → f.inUser = true) (hc : π.Handled (t, e))
    (hstep : π.userStep t e = .ok π') : π'.Inv := by
  have hall := h.all_inUser hu
  have hslot : π.locksDestroyed (t, e) = true → ∀ y ∈ (π.stack t).tail, y.inHandler = false := by
    intro hl y hy
    by_contra hne
    rw [Bool.not_eq_false] at hne
    rw [hc ⟨y, hy, hne⟩] at hl
    cases hl
  cases e with
  | newSender s =>
    cases hstep
    exact ⟨h.owner, h.inside, h.below⟩
  | newReceiver r =>
    cases hstep
    exact ⟨h.owner, h.inside, h.below⟩
  | call c =>
    simp only [Process.userStep] at hstep
    cases hstep
    split
    · have hm : Moved π { π with toThreads := π.goto t c .lock } t := by
        refine ⟨fun t' ht' => Function.update_of_ne ht' _ _, fun _ _ => rfl, fun _ => hall, h.below t⟩
      refine h.keep hm rfl fun m => ?_
      have hthread : (π.goto t c .lock).thread t = some (c, .lock) := Function.update_self _ _ _
      unfold Holds
      rw [hthread, ht]
      constructor
      · rintro (⟨c', g', he, hh⟩ | he)
        · cases he
          rcases hh with ⟨hne, _⟩ | ⟨r, hr, _⟩
          · exact absurd rfl hne
          · cases hr
        · exact Or.inr he
      · rintro (⟨c', g', he, _⟩ | he)
        · cases he
        · exact Or.inr he
    · exact h
  | activate s signal =>
    cases hstep
    exact h.pushed _ ht hall rfl rfl
  | destroySender s =>
    cases hstep
    exact h.pushed _ ht hall rfl rfl
  | destroyReceiver r =>
    cases hstep
    exact h.pushed _ ht hall rfl rfl
  | readSender s =>
    cases hstep
    exact h.pushed _ ht hall rfl rfl
  | readReceiver r =>
    cases hstep
    exact h.pushed _ ht hall rfl rfl
  | ret b =>
    refine h.returned ht rfl (fun s signal n r k old gs hs => ?_) hstep
    unfold Process.locksDestroyed at hslot
    simp only [hs, List.tail_cons] at hslot
    exact hslot trivial
  | throw =>
    refine h.threw ht rfl (fun s signal n r k old gs hs => ?_) hstep
    unfold Process.locksDestroyed at hslot
    simp only [hs, List.tail_cons] at hslot
    exact hslot trivial
  | go => cases hstep

end Process

/-! ## `connect` and `internal_disconnect` -/

theorem senderStep_held {c : LibCall} {l l' : SenderNodes} {q : SenderJob} {g : Stage}
    (h : senderStep c l q = .ok (l', g)) : g.held = (Stage.sender q).held ∧ g ≠ .lock := by
  cases q with
  | begin =>
    cases c <;> cases h <;> exact ⟨rfl, fun h => by cases h⟩
  | scan iter =>
    cases iter with
    | none =>
      cases h
      exact ⟨rfl, fun h => by cases h⟩
    | some n =>
      obtain ⟨item, _, h⟩ := bind_ok h
      cases c with
      | connect a =>
        simp only at h
        split at h <;> cases h <;> exact ⟨rfl, fun h => by cases h⟩
      | disconnect a => cases h
  | pushBack =>
    cases c with
    | connect a =>
      obtain ⟨l1, _, h⟩ := bind_ok h
      cases h
      exact ⟨rfl, fun h => by cases h⟩
    | disconnect a => cases h
  | visit iter b =>
    cases iter with
    | none =>
      cases h
      exact ⟨rfl, fun h => by cases h⟩
    | some n =>
      obtain ⟨temp, _, h⟩ := bind_ok h
      cases c with
      | connect a => cases h
      | disconnect a =>
        simp only at h
        split at h <;> cases h <;> exact ⟨rfl, fun h => by cases h⟩
  | erase n r =>
    obtain ⟨x, _, h⟩ := bind_ok h
    cases h
    exact ⟨rfl, fun h => by cases h⟩
  | next n =>
    obtain ⟨temp, _, h⟩ := bind_ok h
    cases h
    exact ⟨rfl, fun h => by cases h⟩

theorem receiverStep_held {s : SenderId} {r : ReceiverId} {l l' : ReceiverNodes} {q : ReceiverJob}
    {g : Stage} (h : receiverStep s r l q = .ok (l', g)) : g.held = some r ∧ g ≠ .lock := by
  cases q with
  | pushBack =>
    obtain ⟨l1, _, h⟩ := bind_ok h
    cases h
    exact ⟨rfl, fun h => by cases h⟩
  | begin n =>
    cases h
    exact ⟨rfl, fun h => by cases h⟩
  | find n node =>
    cases node with
    | none =>
      cases h
      exact ⟨rfl, fun h => by cases h⟩
    | some m =>
      obtain ⟨c, _, h⟩ := bind_ok h
      split at h <;> cases h <;> exact ⟨rfl, fun h => by cases h⟩
  | erase n found =>
    cases found with
    | none => cases h
    | some m =>
      obtain ⟨x, _, h⟩ := bind_ok h
      cases h
      exact ⟨rfl, fun h => by cases h⟩

namespace Process

variable {π π' : Process} {t : ThreadId} {c : LibCall} {g g' : Stage}

/-- A thread in `connect` or `internal_disconnect` goes on there. -/
structure Called (π π' : Process) (t : ThreadId) (c : LibCall) (g : Stage) (g' : Option Stage) :
    Prop where
  before : π.thread t = some (c, g)
  after : π'.thread = Function.update π.thread t (g'.map fun g' => (c, g'))
  stack : π'.stack = π.stack

namespace Called

variable {o : Option Stage}

theorem moved (hd : Called π π' t c g o) (h : π.Inv) : Moved π π' t where
  thread t' ht := by rw [hd.after, Function.update_of_ne ht]
  stack t' _ := by rw [hd.stack]
  inside _ := by
    rw [hd.stack]
    exact h.inside t (by rw [hd.before]; rfl)
  below := by
    rw [hd.stack]
    exact h.below t

theorem holds (hd : Called π π' t c g o) (m : Mutex) :
    π.Holds t m ↔ CallHolds c g m ∨ ∃ f ∈ π.stack t, f.held = some m := by
  unfold Holds
  rw [hd.before]
  simp

theorem holds' (hd : Called π π' t c g o) (m : Mutex) :
    π'.Holds t m ↔ (∃ x ∈ o, CallHolds c x m) ∨ ∃ f ∈ π.stack t, f.held = some m := by
  unfold Holds
  rw [hd.after, Function.update_self, hd.stack]
  cases o <;> simp

/-- The functions below hold the mutex of `beingDestroyed` at most. -/
theorem below (hd : Called π π' t c g o) (h : π.Inv) {m : Mutex} (hne : m ≠ .beingDestroyed) :
    ¬ ∃ f ∈ π.stack t, f.held = some m := by
  rintro ⟨f, hf, hm⟩
  have hu := h.inside t (by rw [hd.before]; rfl) f hf
  exact hne (f.held_of_inUser hu hm).1

theorem keep (hd : Called π π' t c g o) (h : π.Inv) (ho : π'.owner = π.owner)
    (hh : ∀ m, (∃ x ∈ o, CallHolds c x m) ↔ CallHolds c g m) : π'.Inv := by
  refine h.keep (hd.moved h) ho fun m => ?_
  rw [hd.holds, hd.holds', hh]

theorem acquire (hd : Called π π' t c g o) (h : π.Inv) {m0 : Mutex} (hfree : π.owner m0 = none)
    (ho : π'.owner = Function.update π.owner m0 (some t))
    (hh : ∀ m, (∃ x ∈ o, CallHolds c x m) ↔ CallHolds c g m ∨ m = m0) : π'.Inv := by
  refine h.acquire (hd.moved h) hfree ho fun m => ?_
  rw [hd.holds, hd.holds', hh, or_right_comm]

theorem release (hd : Called π π' t c g o) (h : π.Inv) (m0 : Mutex) (hne : m0 ≠ .beingDestroyed)
    (hheld : CallHolds c g m0) (ho : π'.owner = Function.update π.owner m0 none)
    (hh : ∀ m, (∃ x ∈ o, CallHolds c x m) ↔ CallHolds c g m ∧ m ≠ m0) : π'.Inv := by
  refine h.release (hd.moved h) ((hd.holds m0).mpr (Or.inl hheld)) ho fun m => ?_
  rw [hd.holds, hd.holds', hh]
  have hbelow : (∃ f ∈ π.stack t, f.held = some m) → m ≠ m0 :=
    fun hf hm => hd.below h (hm ▸ hne) hf
  rw [or_and_right, and_iff_left_of_imp hbelow]

end Called

/-- Outside of `lock` the list of the signal is held, and the one that the stage names. -/
theorem callHolds_iff {m : Mutex} (hg : g ≠ .lock) :
    CallHolds c g m ↔ m = .connectList c.sender ∨ ∃ r, g.held = some r ∧ m = .possibleSenders r := by
  unfold CallHolds
  tauto

theorem callHolds_lock {m : Mutex} : ¬ CallHolds c .lock m := by
  rintro (⟨hne, _⟩ | ⟨r, hr, _⟩)
  · exact hne rfl
  · cases hr

theorem Inv.goStep {τ : Threads} (h : π.Inv) (ht : π.thread t = some (c, g))
    (hstep : π.goStep t c g = .ok τ) : { π with toThreads := τ }.Inv := by
  cases g with
  | lock =>
    simp only [Threads.goStep] at hstep
    split at hstep
    · next hfree =>
      cases hstep
      have hd : Called π { π with toThreads :=
          (π.setConnectMutex c.sender (some t)).goto t c (.sender c.first) } t c .lock
          (some (.sender c.first)) := ⟨ht, rfl, rfl⟩
      have hfree : π.owner (.connectList c.sender) = none := hfree
      refine hd.acquire h hfree (owner_setConnect rfl rfl rfl) fun m => ?_
      have hfirst : (Stage.sender c.first).held = none := by
        cases c with
        | connect a =>
          simp only [LibCall.first]
          split <;> rfl
        | disconnect a => rfl
      simp [callHolds_lock, callHolds_iff, hfirst]
    · cases hstep
  | sender q =>
    simp only [Threads.goStep] at hstep
    split at hstep
    · next l g' hrun =>
      cases hstep
      obtain ⟨hheld, hne⟩ := senderStep_held hrun
      have hd : Called π { π with toThreads := (π.setConnectList c.sender l).goto t c g' } t c
          (.sender q) (some g') := ⟨ht, rfl, rfl⟩
      refine hd.keep h rfl fun m => ?_
      simp [callHolds_iff, hne, hheld]
    · cases hstep
  | lockReceiver r iter =>
    simp only [Threads.goStep] at hstep
    split at hstep
    · next hfree =>
      cases hstep
      have hd : Called π { π with toThreads :=
          (π.setPossibleMutex r (some t)).goto t c (.receiver r (Threads.afterLock iter)) } t c
          (.lockReceiver r iter) (some (.receiver r (Threads.afterLock iter))) := ⟨ht, rfl, rfl⟩
      have hfree : π.owner (.possibleSenders r) = none := hfree
      refine hd.acquire h hfree (owner_setPossible rfl rfl rfl) fun m => ?_
      simp [callHolds_iff, Stage.held]
    · cases hstep
  | receiver r q =>
    simp only [Threads.goStep] at hstep
    split at hstep
    · next l g' hrun =>
      cases hstep
      obtain ⟨hheld, hne⟩ := receiverStep_held hrun
      have hd : Called π { π with toThreads := (π.setPossibleSenders r l).goto t c g' } t c
          (.receiver r q) (some g') := ⟨ht, rfl, rfl⟩
      have hheld' : (Stage.receiver r q).held = some r := rfl
      refine hd.keep h rfl fun m => ?_
      simp [callHolds_iff, hne, hheld, hheld']
    · cases hstep
  | unlockReceiver r iter =>
    cases hstep
    have hd : Called π { π with toThreads :=
        (π.setPossibleMutex r none).goto t c (Threads.afterUnlock iter) } t c
        (.unlockReceiver r iter) (some (Threads.afterUnlock iter)) := ⟨ht, rfl, rfl⟩
    refine hd.release h (.possibleSenders r) (by simp) (Or.inr ⟨r, rfl, rfl⟩)
      (owner_setPossible rfl rfl rfl) fun m => ?_
    have hafter : Threads.afterUnlock iter ≠ .lock ∧ (Threads.afterUnlock iter).held = none := by
      cases iter <;> exact ⟨(by simp [Threads.afterUnlock]), rfl⟩
    have hbefore : CallHolds c (.unlockReceiver r iter) m ↔
        m = .connectList c.sender ∨ m = .possibleSenders r := by
      simp [callHolds_iff, Stage.held]
    rw [hbefore]
    simp only [Option.mem_some_iff, exists_eq_left', callHolds_iff hafter.1, hafter.2]
    cases m <;> simp
  | unlock b =>
    cases hstep
    have hd : Called π { π with toThreads :=
        (π.setConnectMutex c.sender none).finish t c (some b) } t c (.unlock b) none :=
      ⟨ht, rfl, rfl⟩
    refine hd.release h (.connectList c.sender) (by simp)
      (Or.inl ⟨(by simp), rfl⟩) (owner_setConnect rfl rfl rfl) fun m => ?_
    simp [callHolds_iff, Stage.held]

theorem Inv.step {x : ThreadId × ProcessEvent} (h : π.Inv) (hc : π.Handled x)
    (hstep : π.step x = .ok π') : π'.Inv := by
  obtain ⟨t, e⟩ := x
  simp only [Process.step] at hstep
  split at hstep
  · next _ _ c g ht =>
    split at hstep
    · next τ hrun =>
      cases hstep
      exact h.goStep ht hrun
    · cases hstep
  · cases hstep
  · next f fs _ ht hs =>
    split at hstep
    · next hu =>
      refine h.userStep ht (fun f' fs' hs' => ?_) hc hstep
      rw [hs] at hs'
      cases hs'
      exact hu
    · split at hstep
      · refine h.runningStep ht hs (fun s hf hbusy y hy => ?_) hstep
        by_contra hne
        rw [Bool.not_eq_false] at hne
        have hlock := hc ⟨y, by simp only [hs]; exact hy, hne⟩
        unfold Process.locksDestroyed at hlock
        simp only [hs, hf, decide_eq_false_iff_not] at hlock
        exact hlock hbusy
      · cases hstep
  · next ht hs =>
    refine h.userStep ht (fun f' fs' hs' => ?_) hc hstep
    rw [hs] at hs'
    cases hs'

theorem step_user {f : Running} {fs : List Running} {e : ProcessEvent} (ht : π.thread t = none)
    (hs : π.stack t = f :: fs) (hu : f.inUser = true) : π.step (t, e) = π.userStep t e := by
  simp only [Process.step, ht, hs]
  rw [if_pos hu]

theorem step_running {f : Running} {fs : List Running} (ht : π.thread t = none)
    (hs : π.stack t = f :: fs) (hu : f.inUser = false) :
    π.step (t, .go) = π.runningStep t fs f := by
  simp only [Process.step, ht, hs]
  rw [if_neg (by rw [hu]; exact Bool.false_ne_true)]

theorem step_inside {e : ProcessEvent} (ht : (π.thread t).isSome = true) (he : e ≠ .go) :
    π.step (t, e) = .error .illegal := by
  obtain ⟨x, hx⟩ := Option.isSome_iff_exists.mp ht
  cases e with
  | go => exact absurd rfl he
  | _ => simp only [Process.step, hx]

/-- A step that the condition rules out leads to a lock of a mutex that the thread holds. -/
theorem Inv.relocks {x : ThreadId × ProcessEvent} (h : π.Inv) (hc : ¬ π.Handled x)
    (hstep : π.step x = .ok π') : ¬ π'.NoDeadlock := by
  obtain ⟨t, e⟩ := x
  unfold Handled at hc
  rw [Classical.not_imp, Bool.not_eq_false] at hc
  obtain ⟨⟨y, hy, hhand⟩, hlocks⟩ := hc
  have howner : π.owner .beingDestroyed = some t := by
    refine (h.owner _ t).mpr (Or.inr ⟨y, List.mem_of_mem_tail hy, ?_⟩)
    unfold Running.inHandler at hhand
    split at hhand
    · rfl
    · cases hhand
  -- all three steps put a function on the stack that asks for the mutex
  have hwants : ∀ f fs, π' = π.setStack t (f :: fs) → π.thread t = none →
      f.wants = some .beingDestroyed → ¬ π'.NoDeadlock := by
    rintro f fs rfl ht hf hno
    refine hno.1 t .beingDestroyed ?_ howner
    unfold wants
    have ht' : (π.setStack t (f :: fs)).thread t = none := ht
    have hs' : (π.setStack t (f :: fs)).stack t = f :: fs := Function.update_self _ _ _
    rw [ht', hs']
    exact hf
  have hidle : e ≠ .go → π.thread t = none := by
    intro he
    by_contra ht
    rw [step_inside (Option.isSome_iff_ne_none.mpr ht) he] at hstep
    cases hstep
  unfold Process.locksDestroyed at hlocks
  split at hlocks
  · next s signal n r k old fs b hs he =>
    obtain rfl : e = .ret b := he
    have hs : π.stack t = .activate s signal (.loop (.call n r k) old) :: fs := hs
    have ht := hidle (fun he => nomatch he)
    rw [step_user ht hs rfl] at hstep
    simp only [Process.userStep, hs, Process.returned, Except.ok.injEq] at hstep
    exact hwants _ fs hstep.symm ht rfl
  · next s signal n r k old fs hs he =>
    obtain rfl : e = .throw := he
    have hs : π.stack t = .activate s signal (.loop (.call n r k) old) :: fs := hs
    have ht := hidle (fun he => nomatch he)
    rw [step_user ht hs rfl] at hstep
    simp only [Process.userStep, hs, Process.threw, Except.ok.injEq] at hstep
    exact hwants _ fs hstep.symm ht rfl
  · next s fs hs he =>
    obtain rfl : e = .go := he
    have hs : π.stack t = .signalBase s .begin :: fs := hs
    cases ht : π.thread t with
    | some c =>
      have hu := h.inside t (by rw [ht]; rfl) _ (by rw [hs]; exact List.mem_cons_self)
      cases hu
    | none =>
      rw [step_running ht hs rfl] at hstep
      simp only [Process.runningStep, Process.signalBaseStep] at hstep
      rw [if_pos (of_decide_eq_true hlocks), Except.ok.injEq] at hstep
      exact hwants _ fs hstep.symm ht rfl
  · cases hlocks

end Process

/-- Every state of a run is free of deadlocks if and only if, inside `handleException`, no
call of a slot ends and no busy signal is destroyed. -/
theorem no_deadlock {es : List (ThreadId × ProcessEvent)} {π : Process}
    (hrun : Runs.run Process.step Process.start es = .ok π) :
    Runs.Meets Process.step Process.Handled Process.start es ↔
      ∀ es1 π1, es1 <+: es → Runs.run Process.step Process.start es1 = .ok π1 → π1.NoDeadlock :=
  Runs.meets_iff_good (fun _ h => h.noDeadlock) (fun _ _ _ h hc hs => h.step hc hs)
    (fun _ _ _ h hc hs => h.relocks hc hs) Process.inv_start hrun

/-! ## Two runs -/

/-- A slot throws, and `handleException` runs. -/
def slotThrows : List (ThreadId × ProcessEvent) :=
  [(0, .newSender 0), (0, .newReceiver 0), (0, .call (.connect ⟨.methodSlot, 0,
    .method 0 (some 1), 0, .method 1 (some 1), .autoConnection, false⟩))] ++
  List.replicate 6 (0, .go) ++
  [(0, .activate 0 (.method 0 (some 1))), (0, .go), (0, .go), (0, .ret true), (0, .throw), (0, .go),
    (0, .go)]

/-- `handleException` disconnects the signal while another thread does the same. -/
def disconnectsInside : List (ThreadId × ProcessEvent) :=
  slotThrows ++ [(1, .call (disconnectAll 0)), (0, .call (disconnectAll 0)), (1, .go), (1, .go)]

theorem no_deadlock_waiting :
    (Runs.reached Process.step Process.start disconnectsInside).NoDeadlock :=
  (no_deadlock (Runs.run_reached (by decide +kernel))).mp (by decide +kernel) _ _
    (List.prefix_refl _) (Runs.run_reached (by decide +kernel))

/-- `handleException` emits the signal, and the slot returns. -/
def emitsInHandler : List (ThreadId × ProcessEvent) :=
  slotThrows ++ [(0, .activate 0 (.method 0 (some 1))), (0, .go), (0, .go), (0, .ret true),
    (0, .ret false)]

/-- The thread asks for the mutex of `beingDestroyed`, which it holds. -/
theorem no_deadlock_handler : ∃ π, Runs.run Process.step Process.start emitsInHandler = .ok π ∧
    π.wants 0 = some .beingDestroyed ∧ π.owner .beingDestroyed = some 0 :=
  ⟨_, Runs.run_reached (by decide +kernel), by decide +kernel, by decide +kernel⟩

end CsSignal
