-- Which mutexes a thread holds, by the functions that it is in. The mutexes are taken in
-- one order: that of `beingDestroyed`, that of a signal's list, that of a slot's.
import CsSignal.Process

namespace CsSignal

open LinkedCells Calls

/-- The order in which the mutexes are taken. -/
def Mutex.rank : Mutex → Nat
  | .beingDestroyed => 0
  | .connectList _ => 1
  | .possibleSenders _ => 2

/-! ## What a function holds -/

def Sweep.holding : Sweep → Option Nat
  | .first _ p => some p
  | .scan _ p _ => some p
  | .erase _ p _ => some p
  | .unlock _ p => some p
  | _ => none

/-- The mutex that a running function holds. -/
def Running.held : Running → Option Mutex
  | .activate _ _ (.lookup _ _ _) => some .beingDestroyed
  | .activate _ _ (.handleException _) => some .beingDestroyed
  | .activate _ _ (.unlock _ _) => some .beingDestroyed
  | .signalBase _ .insert => some .beingDestroyed
  | .signalBase _ .unlock => some .beingDestroyed
  | .signalBase _ (.sweep w) => w.holding.map .possibleSenders
  | .slotBase _ w => w.holding.map .connectList
  | _ => none

/-- `connect` and `internal_disconnect` hold the list of the signal, and that of a slot. -/
def CallHolds (c : LibCall) (g : Stage) (m : Mutex) : Prop :=
  g ≠ .lock ∧ m = .connectList c.sender ∨ ∃ r, g.held = some r ∧ m = .possibleSenders r

/-- Does the function ask for the mutex of `beingDestroyed`, or hold it? -/
def Running.atDestroyed : Running → Bool
  | .activate _ _ (.lock _ _ _) => true
  | .activate _ _ (.lookup _ _ _) => true
  | .activate _ _ (.handleException _) => true
  | .activate _ _ (.unlock _ _) => true
  | .signalBase _ .lock => true
  | .signalBase _ .insert => true
  | .signalBase _ .unlock => true
  | _ => false

/-- What a function knows of those that wait for it. -/
def Below (f x : Running) : Prop :=
  x.inUser = true ∧ (f.atDestroyed = true → x.inHandler = false)

theorem Running.held_of_inUser {f : Running} {m : Mutex} (hf : f.inUser = true)
    (hm : f.held = some m) : m = .beingDestroyed ∧ f.inHandler = true := by
  cases f with
  | activate s signal g =>
    cases g with
    | loop g old => cases hm
    | handleException n =>
      cases hm
      exact ⟨rfl, rfl⟩
    | _ => cases hf
  | _ => cases hf

theorem Running.held_of_wants {f : Running} {m : Mutex} (hw : f.wants = some m) :
    f.held = none := by
  cases f with
  | activate s signal g => cases g <;> first | rfl | cases hw
  | signalBase s g =>
    cases g with
    | sweep w => cases w <;> first | rfl | cases hw
    | _ => first | rfl | cases hw
  | slotBase r w => cases w <;> first | rfl | cases hw
  | _ => cases hw

theorem Running.atDestroyed_of_held {f : Running} (hm : f.held = some .beingDestroyed) :
    f.atDestroyed = true := by
  cases f with
  | activate s signal g => cases g <;> first | rfl | cases hm
  | signalBase s g =>
    cases g with
    | sweep w => cases w <;> cases hm
    | _ => first | rfl | cases hm
  | slotBase r w => cases w <;> cases hm
  | _ => cases hm

theorem Running.atDestroyed_of_wants {f : Running} (hm : f.wants = some .beingDestroyed) :
    f.atDestroyed = true := by
  cases f with
  | activate s signal g => cases g <;> first | rfl | cases hm
  | signalBase s g =>
    cases g with
    | sweep w => cases w <;> cases hm
    | _ => first | rfl | cases hm
  | slotBase r w => cases w <;> cases hm
  | _ => cases hm

namespace Process

variable {π π' : Process} {t : ThreadId}

/-- The mutexes that a thread holds, by what it is doing. -/
def Holds (π : Process) (t : ThreadId) (m : Mutex) : Prop :=
  (∃ c g, π.thread t = some (c, g) ∧ CallHolds c g m) ∨ ∃ f ∈ π.stack t, f.held = some m

structure Inv (π : Process) : Prop where
  owner : ∀ m t, π.owner m = some t ↔ π.Holds t m
  /-- A thread inside `connect` or `internal_disconnect` came there from user code. -/
  inside : ∀ t, (π.thread t).isSome = true → ∀ f ∈ π.stack t, f.inUser = true
  below : ∀ t, (π.stack t).Pairwise Below

theorem inv_start : start.Inv where
  owner m t := by
    refine iff_of_false ?_ ?_
    · cases m <;> exact fun h => nomatch h
    · rintro (⟨c, g, h, _⟩ | ⟨f, h, _⟩) <;> cases h
  inside t h := nomatch h
  below t := .nil

/-! ## The order of the mutexes -/

theorem Inv.ordered (h : π.Inv) : LockOrder.Ordered π.wants π.owner Mutex.rank := by
  intro t m m' hw ho
  unfold wants at hw
  have hstack : ∀ f ∈ π.stack t, f.inUser = true → f.held = some m' → m' = .beingDestroyed :=
    fun f _ hf hm => (f.held_of_inUser hf hm).1
  rcases (h.owner m' t).mp ho with ⟨c, g, ht, hc⟩ | ⟨f, hf, hm⟩
  · rw [ht] at hw
    cases g with
    | lock =>
      rcases hc with ⟨hne, _⟩ | ⟨r, hr, _⟩
      · exact absurd rfl hne
      · cases hr
    | lockReceiver r iter =>
      cases hw
      rcases hc with ⟨_, rfl⟩ | ⟨r, hr, _⟩
      · simp [Mutex.rank]
      · cases hr
    | _ => cases hw
  · cases ht : π.thread t with
    | some x =>
      obtain ⟨c, g⟩ := x
      rw [ht] at hw
      have hm' := hstack f hf (h.inside t (by rw [ht]; rfl) f hf) hm
      subst hm'
      cases g with
      | lock =>
        cases hw
        simp [Mutex.rank]
      | lockReceiver r iter =>
        cases hw
        simp [Mutex.rank]
      | _ => cases hw
    | none =>
      rw [ht] at hw
      cases hs : π.stack t with
      | nil =>
        rw [hs] at hf
        cases hf
      | cons f0 fs =>
        rw [hs] at hw hf
        have hw : f0.wants = some m := hw
        have hb := h.below t
        rw [hs, List.pairwise_cons] at hb
        rcases List.mem_cons.mp hf with rfl | hf
        · rw [f.held_of_wants hw] at hm
          cases hm
        · obtain ⟨hu, hnot⟩ := hb.1 f hf
          obtain ⟨rfl, hhand⟩ := f.held_of_inUser hu hm
          cases m with
          | beingDestroyed =>
            rw [hnot (f0.atDestroyed_of_wants hw)] at hhand
            cases hhand
          | connectList s => simp [Mutex.rank]
          | possibleSenders r => simp [Mutex.rank]

theorem Inv.noDeadlock (h : π.Inv) : π.NoDeadlock :=
  ⟨fun _ _ hw => h.ordered.not_owner hw, h.ordered.no_cycle⟩

/-! ## Steps of one thread -/

/-- Only the thread moves, and ends up in a place where it may be. -/
structure Moved (π π' : Process) (t : ThreadId) : Prop where
  thread : ∀ t', t' ≠ t → π'.thread t' = π.thread t'
  stack : ∀ t', t' ≠ t → π'.stack t' = π.stack t'
  inside : (π'.thread t).isSome = true → ∀ f ∈ π'.stack t, f.inUser = true
  below : (π'.stack t).Pairwise Below

theorem Moved.holds (hm : Moved π π' t) {t' : ThreadId} (ht : t' ≠ t) (m : Mutex) :
    π'.Holds t' m ↔ π.Holds t' m := by
  unfold Holds
  rw [hm.thread t' ht, hm.stack t' ht]

theorem Inv.of_moved (h : π.Inv) (hm : Moved π π' t)
    (hself : ∀ m, π'.owner m = some t ↔ π'.Holds t m)
    (hother : ∀ m t', t' ≠ t → (π'.owner m = some t' ↔ π.owner m = some t')) : π'.Inv where
  owner m t' := by
    by_cases ht : t' = t
    · rw [ht]
      exact hself m
    · rw [hother m t' ht, hm.holds ht, h.owner]
  inside t' ht' := by
    by_cases ht : t' = t
    · subst ht
      exact hm.inside ht'
    · rw [hm.stack t' ht]
      rw [hm.thread t' ht] at ht'
      exact h.inside t' ht'
  below t' := by
    by_cases ht : t' = t
    · rw [ht]
      exact hm.below
    · rw [hm.stack t' ht]
      exact h.below t'

theorem Inv.keep (h : π.Inv) (hm : Moved π π' t) (ho : π'.owner = π.owner)
    (hh : ∀ m, π'.Holds t m ↔ π.Holds t m) : π'.Inv := by
  refine h.of_moved hm (fun m => ?_) fun m t' _ => by rw [ho]
  rw [ho, hh, h.owner]

theorem Inv.acquire (h : π.Inv) (hm : Moved π π' t) {m0 : Mutex} (hfree : π.owner m0 = none)
    (ho : π'.owner = Function.update π.owner m0 (some t))
    (hh : ∀ m, π'.Holds t m ↔ π.Holds t m ∨ m = m0) : π'.Inv := by
  refine h.of_moved hm (fun m => ?_) fun m t' ht => ?_
  · rw [ho, hh, ← h.owner]
    by_cases hmm : m = m0
    · subst hmm
      simp
    · rw [Function.update_of_ne hmm]
      simp [hmm]
  · rw [ho]
    by_cases hmm : m = m0
    · subst hmm
      rw [Function.update_self, hfree, Option.some.injEq]
      exact ⟨fun he => absurd he.symm ht, (fun he => nomatch he)⟩
    · rw [Function.update_of_ne hmm]

theorem Inv.release (h : π.Inv) (hm : Moved π π' t) {m0 : Mutex} (hheld : π.Holds t m0)
    (ho : π'.owner = Function.update π.owner m0 none)
    (hh : ∀ m, π'.Holds t m ↔ π.Holds t m ∧ m ≠ m0) : π'.Inv := by
  refine h.of_moved hm (fun m => ?_) fun m t' ht => ?_
  · rw [ho, hh, ← h.owner]
    by_cases hmm : m = m0
    · subst hmm
      simp
    · rw [Function.update_of_ne hmm]
      simp [hmm]
  · rw [ho]
    by_cases hmm : m = m0
    · subst hmm
      rw [Function.update_self, (h.owner m t).mpr hheld, Option.some.injEq]
      exact ⟨(fun he => nomatch he), fun he => absurd he.symm ht⟩
    · rw [Function.update_of_ne hmm]

/-! ### A step of the function that runs -/

/-- The function `f` of the thread that is on top goes on as `f'`, or ends. -/
structure Replaced (π π' : Process) (t : ThreadId) (f : Running) (fs : List Running)
    (f' : Option Running) : Prop where
  idle : π.thread t = none
  stack : π.stack t = f :: fs
  thread' : π'.thread = π.thread
  stack' : π'.stack = Function.update π.stack t (f'.toList ++ fs)
  below : ∀ x ∈ f', x.atDestroyed = true → ∀ y ∈ fs, y.inHandler = false

variable {f : Running} {fs : List Running} {f' : Option Running}

theorem Replaced.moved (hr : Replaced π π' t f fs f') (h : π.Inv) : Moved π π' t where
  thread t' _ := by rw [hr.thread']
  stack t' ht := by rw [hr.stack', Function.update_of_ne ht]
  inside hs := by
    rw [hr.thread', hr.idle] at hs
    cases hs
  below := by
    have hb := h.below t
    rw [hr.stack, List.pairwise_cons] at hb
    rw [hr.stack', Function.update_self]
    cases f' with
    | none => exact hb.2
    | some x =>
      exact List.pairwise_cons.mpr
        ⟨fun y hy => ⟨(hb.1 y hy).1, fun hx => hr.below x rfl hx y hy⟩, hb.2⟩

theorem Replaced.holds (hr : Replaced π π' t f fs f') (m : Mutex) :
    π.Holds t m ↔ f.held = some m ∨ ∃ x ∈ fs, x.held = some m := by
  unfold Holds
  rw [hr.idle, hr.stack]
  simp

theorem Replaced.holds' (hr : Replaced π π' t f fs f') (m : Mutex) :
    π'.Holds t m ↔ f'.bind Running.held = some m ∨ ∃ x ∈ fs, x.held = some m := by
  unfold Holds
  rw [hr.thread', hr.idle, hr.stack', Function.update_self]
  cases f' <;> simp

theorem Replaced.keep (hr : Replaced π π' t f fs f') (h : π.Inv) (ho : π'.owner = π.owner)
    (hh : f'.bind Running.held = f.held) : π'.Inv := by
  refine h.keep (hr.moved h) ho fun m => ?_
  rw [hr.holds, hr.holds', hh]

theorem Replaced.acquire (hr : Replaced π π' t f fs f') (h : π.Inv) {m0 : Mutex}
    (hfree : π.owner m0 = none) (ho : π'.owner = Function.update π.owner m0 (some t))
    (hh : f.held = none) (hh' : f'.bind Running.held = some m0) : π'.Inv := by
  refine h.acquire (hr.moved h) hfree ho fun m => ?_
  rw [hr.holds, hr.holds', hh, hh']
  constructor
  · rintro (he | he)
    · exact Or.inr (Option.some.inj he).symm
    · exact Or.inl (Or.inr he)
  · rintro ((he | he) | he)
    · cases he
    · exact Or.inr he
    · exact Or.inl (by rw [he])

theorem Replaced.release (hr : Replaced π π' t f fs f') (h : π.Inv) (m0 : Mutex)
    (ho : π'.owner = Function.update π.owner m0 none) (hh : f.held = some m0)
    (hh' : f'.bind Running.held = none) : π'.Inv := by
  refine h.release (hr.moved h) ((hr.holds m0).mpr (Or.inl hh)) ho fun m => ?_
  rw [hr.holds, hr.holds', hh, hh']
  -- no other function of the thread holds the mutex
  have hfs : ∀ x ∈ fs, x.held ≠ some m0 := by
    intro x hx hm
    have hb := h.below t
    rw [hr.stack, List.pairwise_cons] at hb
    obtain ⟨hu, hnot⟩ := hb.1 x hx
    obtain ⟨rfl, hhand⟩ := x.held_of_inUser hu hm
    rw [hnot (f.atDestroyed_of_held hh)] at hhand
    cases hhand
  constructor
  · rintro (he | ⟨x, hx, hm⟩)
    · cases he
    · exact ⟨Or.inr ⟨x, hx, hm⟩, fun he => hfs x hx (he ▸ hm)⟩
  · rintro ⟨he | he, hne⟩
    · exact absurd (Option.some.inj he).symm hne
    · exact Or.inr he

/-! ### Changes of the owners -/

theorem owner_setDestroyed {o : Option ThreadId} (hc : π'.connectMutex = π.connectMutex)
    (hp : π'.possibleMutex = π.possibleMutex) (hd : π'.destroyedMutex = o) :
    π'.owner = Function.update π.owner .beingDestroyed o := by
  funext m
  cases m <;> simp [owner, hc, hp, hd]

theorem owner_setConnect {s : SenderId} {o : Option ThreadId}
    (hc : π'.connectMutex = Function.update π.connectMutex s o)
    (hp : π'.possibleMutex = π.possibleMutex) (hd : π'.destroyedMutex = π.destroyedMutex) :
    π'.owner = Function.update π.owner (.connectList s) o := by
  funext m
  cases m <;> simp [owner, Function.update_apply, hc, hp, hd]

theorem owner_setPossible {r : ReceiverId} {o : Option ThreadId}
    (hc : π'.connectMutex = π.connectMutex)
    (hp : π'.possibleMutex = Function.update π.possibleMutex r o)
    (hd : π'.destroyedMutex = π.destroyedMutex) :
    π'.owner = Function.update π.owner (.possibleSenders r) o := by
  funext m
  cases m <;> simp [owner, Function.update_apply, hc, hp, hd]

theorem owner_same (hc : π'.connectMutex = π.connectMutex) (hp : π'.possibleMutex = π.possibleMutex)
    (hd : π'.destroyedMutex = π.destroyedMutex) : π'.owner = π.owner := by
  funext m
  cases m <;> simp [owner, hc, hp, hd]

end Process

end CsSignal
