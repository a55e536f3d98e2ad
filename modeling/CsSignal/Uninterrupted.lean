-- The calls of a shared list, one after another. A call that nobody interrupts does to the
-- list what the function says that is written as one call, so the calls of the one model
-- are runs of the steps of the other.
import CsSignal.EntrySteps

namespace CsSignal

open LinkedCells

/-! ## Whole calls -/

/-- What a handle has while it is accessed. -/
structure Accessed where
  write : Bool
  guard : Nat
  iter : Option Nat := none

/-- A list, and the handles on it, between two calls. -/
structure HandleUse (α : Type) where
  list : RcuList α := {}
  m_write_mutex : Option Handle := none
  handle : Handle → Option Accessed := fun _ => none

namespace HandleUse

variable {α : Type}

def set (u : HandleUse α) (h : Handle) (a : Option Accessed) : HandleUse α :=
  { u with handle := Function.update u.handle h a }

/-- A whole call of a handle. The first access locks it, and its destructor unlocks it. -/
def call (u : HandleUse α) (x : Handle × Event α) : Except Refusal (HandleUse α) :=
  let (h, e) := x
  match u.handle h, e with
  | none, .lock false =>
    let (z, l) := u.list.rcuReadLock
    .ok ({ u with list := l }.set h (some ⟨false, z, none⟩))
  | none, .lock true =>
    match u.m_write_mutex with
    | none =>
      let (z, l) := u.list.rcuReadLock
      .ok ({ u with list := l, m_write_mutex := some h }.set h (some ⟨true, z, none⟩))
    | some _ => .error .illegal
  | some a, .begin => .ok (u.set h (some { a with iter := u.list.head }))
  | some ⟨_, _, some n⟩, .read => do
    let _ ← SharedList.access (u.list.deref n)
    .ok u
  | some ⟨write, z, some n⟩, .next => do
    let c ← SharedList.access (u.list.deref n)
    .ok (u.set h (some ⟨write, z, c.next⟩))
  | some ⟨true, _, _⟩, .pushBack data => do
    let l ← SharedList.access (u.list.pushBack data)
    .ok { u with list := l }
  | some ⟨true, z, some n⟩, .erase assign => do
    let (next, l) ← SharedList.access (u.list.erase n)
    .ok ({ u with list := l }.set h (some ⟨true, z, if assign then next else some n⟩))
  | some a, .unlock => do
    let l ← SharedList.access (u.list.unlock a.guard)
    .ok ({ u with
      list := l
      m_write_mutex := if a.write then none else u.m_write_mutex }.set h none)
  | _, _ => .error .illegal

/-- What a call does, of a handle that is accessed. -/
inductive Called (u : HandleUse α) (h : Handle) : Accessed → Event α → HandleUse α → Prop
  | begin {a : Accessed} : Called u h a .begin (u.set h (some { a with iter := u.list.head }))
  | read {write : Bool} {z n : Nat} {c : Node α} (hd : u.list.deref n = .ok c) :
      Called u h ⟨write, z, some n⟩ .read u
  | next {write : Bool} {z n : Nat} {c : Node α} (hd : u.list.deref n = .ok c) :
      Called u h ⟨write, z, some n⟩ .next (u.set h (some ⟨write, z, c.next⟩))
  | pushBack {z : Nat} {iter : Option Nat} {data : α} {l : RcuList α}
      (hl : u.list.pushBack data = .ok l) :
      Called u h ⟨true, z, iter⟩ (.pushBack data) { u with list := l }
  | erase {z n : Nat} {assign : Bool} {next : Option Nat} {l : RcuList α}
      (hl : u.list.erase n = .ok (next, l)) :
      Called u h ⟨true, z, some n⟩ (.erase assign)
        ({ u with list := l }.set h (some ⟨true, z, if assign then next else some n⟩))
  | unlock {a : Accessed} {l : RcuList α} (hl : u.list.unlock a.guard = .ok l) :
      Called u h a .unlock
        ({ u with list := l, m_write_mutex := if a.write then none else u.m_write_mutex }.set h none)

theorem called_of_call {u u' : HandleUse α} {h : Handle} {a : Accessed} {e : Event α}
    (hu : u.handle h = some a) (hc : u.call (h, e) = .ok u') : Called u h a e u' := by
  obtain ⟨write, z, iter⟩ := a
  cases e with
  | begin =>
    simp only [call, hu] at hc
    cases hc
    exact .begin
  | read =>
    cases iter with
    | none =>
      simp only [call, hu] at hc
      cases hc
    | some n =>
      simp only [call, hu] at hc
      obtain ⟨c, hd, hc⟩ := bind_ok hc
      cases hc
      exact .read (mapError_ok hd)
  | next =>
    cases iter with
    | none =>
      simp only [call, hu] at hc
      cases hc
    | some n =>
      simp only [call, hu] at hc
      obtain ⟨c, hd, hc⟩ := bind_ok hc
      cases hc
      exact .next (mapError_ok hd)
  | pushBack data =>
    cases write with
    | false =>
      simp only [call, hu] at hc
      cases hc
    | true =>
      simp only [call, hu] at hc
      obtain ⟨l, hl, hc⟩ := bind_ok hc
      cases hc
      exact .pushBack (mapError_ok hl)
  | erase assign =>
    cases iter with
    | none => cases write <;> simp only [call, hu] at hc <;> cases hc
    | some n =>
      cases write with
      | false =>
        simp only [call, hu] at hc
        cases hc
      | true =>
        simp only [call, hu] at hc
        obtain ⟨⟨next, l⟩, hl, hc⟩ := bind_ok hc
        cases hc
        exact .erase (mapError_ok hl)
  | unlock =>
    simp only [call, hu] at hc
    obtain ⟨l, hl, hc⟩ := bind_ok hc
    cases hc
    exact .unlock (mapError_ok hl)
  | _ =>
    simp only [call, hu] at hc
    cases hc

end HandleUse

/-- A handle that has no call in progress. -/
def Accessed.phase : Option Accessed → Phase
  | none => .idle
  | some a => .active a.write a.guard a.iter .none

/-- A handle begins a call; the other events are steps of calls. -/
def Event.begins {α : Type} (x : Handle × Event α) : Option (Handle × Event α) :=
  match x.2 with
  | .go | .swap _ => none
  | _ => some x

namespace SharedList

variable {α : Type} {σ σ' σ1 : SharedList α} {h : Handle} {z : Nat} {iter : Option Nat}

/-! ## The handle goes on alone -/

theorem lock_alone (write : Bool) (hp : σ.phase h = .idle) : ∃ σ',
    Runs.run step σ [(h, .lock write), (h, .go), (h, .go), (h, .swap true)] = .ok σ' ∧
      σ'.list = σ.list.rcuReadLock.2 ∧ σ'.m_write_mutex = σ.m_write_mutex ∧
      σ'.phase = Function.update σ.phase h (if write then .lockMutex σ.list.rcuReadLock.1
        else .active false σ.list.rcuReadLock.1 none .none) := by
  simp [Runs.run, step, hp, goto, allocZombie, lockStep, pushEntry, ok_bind, access,
    RcuList.writeZombie, Except.mapError, CanSwap, RcuList.rcuReadLock, RcuList.pushZombie]

theorem pushBack_alone {data : α} {l : RcuList α} (hp : σ.phase h = .active true z iter .none)
    (hl : σ.list.pushBack data = .ok l) : ∃ k σ',
    Runs.run step σ ((h, .pushBack data) :: List.replicate k (h, .go)) = .ok σ' ∧
      σ'.list = l ∧ σ'.m_write_mutex = σ.m_write_mutex ∧ σ'.phase = σ.phase := by
  obtain ⟨nl, hnl, hl⟩ := bind_ok hl
  cases hl
  have hsame : Function.update σ.phase h (.active true z iter .none) = σ.phase := by
    rw [← hp, Function.update_eq_self]
  cases ht : σ.list.tail with
  | none =>
    refine ⟨3, ?_⟩
    simp only [NodeList.pushBack, ht, Except.ok.injEq] at hnl
    subst hnl
    simp [Runs.run, step, hp, activeStep, jobStep, goto, allocNode, withNodes, ht, List.replicate,
      hsame]
  | some t =>
    refine ⟨4, ?_⟩
    simp only [NodeList.pushBack, ht] at hnl
    obtain ⟨nl1, h1, hnl⟩ := bind_ok hnl
    obtain ⟨nl2, h2, hnl⟩ := bind_ok hnl
    cases hnl
    simp [Runs.run, step, hp, activeStep, jobStep, goto, allocNode, withNodes, ht, List.replicate,
      hsame, access, h1, h2, Except.mapError, ok_bind]

/-- The part of `erase` before the allocation of the entry. -/
theorem unlink_alone (assign : Bool) {n : Nat} {c : Node α} {next : Option Nat} {b : Bool}
    {nl : NodeList α} (hp : σ.phase h = .active true z (some n) .none)
    (hc : σ.list.deref n = .ok c) (hdel : c.deleted = false)
    (hl : σ.list.unlink n = .ok (next, b, nl)) : ∃ σ',
    Runs.run step σ ((h, .erase assign) :: List.replicate 4 (h, .go)) = .ok σ' ∧ b = true ∧
      σ'.list = { σ.list with toNodeList := nl } ∧ σ'.m_write_mutex = σ.m_write_mutex ∧
      σ'.phase = Function.update σ.phase h
        (.active true z (some n) (.eraseAlloc n assign next)) := by
  obtain ⟨c0, hc0, hl⟩ := bind_ok hl
  obtain rfl := Except.ok.inj (hc.symm.trans hc0)
  simp only [hdel, Bool.false_eq_true, if_false] at hl
  obtain ⟨nl1, h1, hl⟩ := bind_ok hl
  -- the pointers of the node are the ones that were read before it was marked
  have hc1 : nl1.deref n = .ok { c with deleted := true } := by
    unfold NodeList.deref at hc
    unfold NodeList.write at h1
    cases hn : σ.list.node n with
    | none =>
      rw [hn] at hc
      cases hc
    | some c1 =>
      rw [hn] at hc h1
      obtain rfl := Except.ok.inj hc
      cases h1
      simp only [NodeList.deref, Function.update_self]
  cases hb : c.back with
  | none =>
    cases hx : c.next with
    | none =>
      simp only [hb, hx, ok_bind] at hl
      cases hl
      simp [Runs.run, List.replicate, step, hp, activeStep, jobStep, goto, withNodes, access,
        Except.mapError, ok_bind, hc, hdel, h1, hc1, hb, hx]
    | some m =>
      simp only [hb, hx, ok_bind] at hl
      obtain ⟨nl2, h2, hl⟩ := bind_ok hl
      cases hl
      simp [Runs.run, List.replicate, step, hp, activeStep, jobStep, goto, withNodes, access,
        Except.mapError, ok_bind, hc, hdel, h1, hc1, hb, hx, h2]
  | some q =>
    cases hx : c.next with
    | none =>
      simp only [hb, hx] at hl
      obtain ⟨nl2, h2, hl⟩ := bind_ok hl
      cases hl
      simp [Runs.run, List.replicate, step, hp, activeStep, jobStep, goto, withNodes, access,
        Except.mapError, ok_bind, hc, hdel, h1, hc1, hb, hx, h2]
    | some m =>
      simp only [hb, hx] at hl
      obtain ⟨nl2, h2, hl⟩ := bind_ok hl
      obtain ⟨nl3, h3, hl⟩ := bind_ok hl
      cases hl
      simp [Runs.run, List.replicate, step, hp, activeStep, jobStep, goto, withNodes, access,
        Except.mapError, ok_bind, hc, hdel, h1, hc1, hb, hx, h2, h3]

/-- The part of `erase` that makes the entry and pushes it. -/
theorem retire_alone {n : Nat} {assign : Bool} {next : Option Nat}
    (hp : σ.phase h = .active true z iter (.eraseAlloc n assign next)) : ∃ σ',
    Runs.run step σ [(h, .go), (h, .go), (h, .go), (h, .swap true)] = .ok σ' ∧
      σ'.list = σ.list.pushZombie false (some n) ∧ σ'.m_write_mutex = σ.m_write_mutex ∧
      σ'.phase = Function.update σ.phase h
        (.active true z (if assign then next else iter) .none) := by
  simp [Runs.run, step, hp, jobStep, goto, allocZombie, pushEntry, ok_bind, access,
    RcuList.writeZombie, Except.mapError, CanSwap, RcuList.pushZombie]

theorem erase_alone (assign : Bool) {n : Nat} {next : Option Nat} {l : RcuList α}
    (hp : σ.phase h = .active true z (some n) .none) (hl : σ.list.erase n = .ok (next, l)) :
    ∃ as σ', Runs.run step σ ((h, .erase assign) :: as) = .ok σ' ∧
      as.filterMap Event.begins = [] ∧ σ'.list = l ∧ σ'.m_write_mutex = σ.m_write_mutex ∧
      σ'.phase = Function.update σ.phase h
        (.active true z (if assign then next else some n) .none) := by
  obtain ⟨⟨next', erased, nl⟩, hnl, hl⟩ := bind_ok hl
  cases hl
  obtain ⟨c, hc, _⟩ := bind_ok hnl
  cases hdel : c.deleted with
  | true =>
    refine ⟨[(h, .go)], ?_⟩
    simp only [NodeList.unlink, hc, ok_bind, hdel, if_true, Except.ok.injEq] at hnl
    cases hnl
    simp [Runs.run, step, hp, activeStep, jobStep, goto, access, hc, Except.mapError, ok_bind, hdel,
      Event.begins]
  | false =>
    obtain ⟨σ1, h1, rfl, hlist, hmutex, hphase⟩ := unlink_alone assign hp hc hdel hnl
    obtain ⟨σ2, h2, hlist2, hmutex2, hphase2⟩ :=
      retire_alone (σ := σ1) (h := h) (by rw [hphase, Function.update_self])
    refine ⟨_, σ2, Runs.run_append.mpr ⟨σ1, h1, h2⟩, rfl, ?_, hmutex2.trans hmutex, ?_⟩
    · rw [hlist2, hlist]
      rfl
    · rw [hphase2, hphase, Function.update_idem]

/-! ## The loops of an unlock -/

/-- The handle comes to `p` by steps of its own, and leaves the list as `l` and the mutex
as `m`. -/
def Goes (σ : SharedList α) (h : Handle) (l : RcuList α) (m : Option Handle) (p : Phase) : Prop :=
  ∃ k σ', Runs.run step σ (List.replicate k (h, .go)) = .ok σ' ∧ σ'.list = l ∧
    σ'.m_write_mutex = m ∧ σ'.phase = Function.update σ.phase h p

variable {l : RcuList α} {m : Option Handle} {p q : Phase}

theorem goes_here (hp : σ.phase h = p) : Goes σ h σ.list σ.m_write_mutex p :=
  ⟨0, σ, rfl, rfl, rfl, by rw [← hp, Function.update_eq_self]⟩

theorem Goes.step (hs : σ.step (h, .go) = .ok σ1) (hph : σ1.phase = Function.update σ.phase h q)
    (G : Goes σ1 h l m p) : Goes σ h l m p := by
  obtain ⟨k, σ', hr, hl, hm, hp⟩ := G
  refine ⟨k + 1, σ', Runs.run_cons.mpr ⟨σ1, hs, hr⟩, hl, hm, ?_⟩
  rw [hp, hph, Function.update_idem]

theorem Goes.trans {l1 : RcuList α} {m1 : Option Handle} (G : Goes σ h l1 m1 q)
    (G' : ∀ σ1, σ1.list = l1 → σ1.m_write_mutex = m1 → σ1.phase h = q → Goes σ1 h l m p) :
    Goes σ h l m p := by
  obtain ⟨j, σ1, hr, hl, hm, hp⟩ := G
  obtain ⟨k, σ', hr', hl', hm', hp'⟩ := G' σ1 hl hm (by rw [hp, Function.update_self])
  refine ⟨j + k, σ', ?_, hl', hm', by rw [hp', hp, Function.update_idem]⟩
  rw [List.replicate_add]
  exact Runs.run_append.mpr ⟨σ1, hr, hr'⟩

theorem scan_alone {fuel : Nat} {cached_next n : Option Nat} {last : Bool}
    (hl : σ.list.scanLast fuel n = .ok last) (hp : σ.phase h = scanAt z cached_next n) :
    Goes σ h σ.list σ.m_write_mutex (if last then sweepAt z cached_next else .clear z) := by
  induction fuel generalizing σ n with
  | zero =>
    cases n with
    | none =>
      cases hl
      exact goes_here hp
    | some n => cases hl
  | succ fuel ih =>
    cases n with
    | none =>
      cases hl
      exact goes_here hp
    | some n =>
      obtain ⟨c, hc, hl⟩ := bind_ok hl
      have h1 : σ.step (h, .go) =
          .ok (σ.goto h (if c.owner then .clear z else .scanNext z cached_next n)) := by
        simp [step, hp, scanAt, access, hc, Except.mapError, ok_bind]
      refine Goes.step h1 rfl ?_
      cases ho : c.owner with
      | true =>
        rw [ho, if_pos rfl] at hl
        cases hl
        exact goes_here (Function.update_self _ _ _)
      | false =>
        simp only [ho, Bool.false_eq_true, if_false] at hl ⊢
        have h2 : (σ.goto h (.scanNext z cached_next n)).step (h, .go) =
            .ok ((σ.goto h (.scanNext z cached_next n)).goto h (scanAt z cached_next c.next)) := by
          simp [step, goto, access, hc, Except.mapError, ok_bind]
        exact Goes.step h2 rfl (ih (σ := (σ.goto h _).goto h _) hl (Function.update_self _ _ _))

theorem sweep_alone {fuel : Nat} {n : Option Nat} (hl : RcuList.freeFrom fuel n σ.list = .ok l)
    (hp : σ.phase h = sweepAt z n) : Goes σ h l σ.m_write_mutex (.cut z) := by
  induction fuel generalizing σ n with
  | zero =>
    cases n with
    | none =>
      cases hl
      exact goes_here hp
    | some n => cases hl
  | succ fuel ih =>
    cases n with
    | none =>
      cases hl
      exact goes_here hp
    | some n =>
      obtain ⟨c, hc, hl⟩ := bind_ok hl
      obtain ⟨l1, hl1, hl⟩ := bind_ok hl
      obtain ⟨l2, hl2, hl⟩ := bind_ok hl
      have hc1 : l1.derefZombie n = .ok c := by
        unfold RcuList.derefZombie at hc ⊢
        rw [RcuList.zombie_freeZombieNode hl1]
        exact hc
      let σ1 := { σ with list := l1 }.goto h (.sweepNext z n)
      let σ2 := σ1.goto h (.sweepFree z n c.next)
      let σ3 := { σ2 with list := l2 }.goto h (sweepAt z c.next)
      have h1 : σ.step (h, .go) = .ok σ1 := by
        simp [step, hp, sweepAt, access, hc, hl1, Except.mapError, ok_bind, σ1]
      have h2 : σ1.step (h, .go) = .ok σ2 := by
        simp [step, goto, access, hc1, Except.mapError, ok_bind, σ1, σ2]
      have h3 : σ2.step (h, .go) = .ok σ3 := by
        simp [step, goto, access, hl2, Except.mapError, ok_bind, σ1, σ2, σ3]
      exact (((ih (σ := σ3) hl (Function.update_self _ _ _)).step h3 rfl).step h2 rfl).step h1 rfl

theorem clear_alone (hl : σ.list.writeZombie z (fun e => { e with owner := false }) = .ok l)
    (hp : σ.phase h = .clear z) : Goes σ h l σ.m_write_mutex .idle := by
  have h1 : σ.step (h, .go) = .ok ({ σ with list := l }.goto h .idle) := by
    simp [step, hp, access, hl, Except.mapError, ok_bind]
  let σ1 := { σ with list := l }.goto h .idle
  exact (goes_here (σ := σ1) (Function.update_self _ _ _)).step h1 rfl

theorem cut_alone {l1 : RcuList α}
    (hl1 : σ.list.writeZombie z (fun e => { e with next := none }) = .ok l1)
    (hl : l1.writeZombie z (fun e => { e with owner := false }) = .ok l)
    (hp : σ.phase h = .cut z) : Goes σ h l σ.m_write_mutex .idle := by
  have h1 : σ.step (h, .go) = .ok ({ σ with list := l1 }.goto h (.clear z)) := by
    simp [step, hp, access, hl1, Except.mapError, ok_bind]
  exact (clear_alone (σ := { σ with list := l1 }.goto h (.clear z)) hl
    (Function.update_self _ _ _)).step h1 rfl

theorem unlockGuard_alone (hl : σ.list.unlock z = .ok l) (hp : σ.phase h = .unlock z) :
    Goes σ h l σ.m_write_mutex .idle := by
  obtain ⟨c, hc, hl⟩ := bind_ok hl
  obtain ⟨last, hlast, hl⟩ := bind_ok hl
  have h1 : σ.step (h, .go) = .ok (σ.goto h (scanAt z c.next c.next)) := by
    simp [step, hp, access, hc, Except.mapError, ok_bind]
  refine Goes.step h1 rfl ?_
  have hscan := scan_alone (σ := σ.goto h (scanAt z c.next c.next)) (z := z) hlast
    (Function.update_self _ _ _)
  cases last with
  | false =>
    simp only [Bool.false_eq_true, if_false, ok_bind] at hl hscan
    refine hscan.trans fun σ1 hl1 hm1 hp1 => ?_
    have hl' : σ1.list.writeZombie z (fun e => { e with owner := false }) = .ok l := hl1 ▸ hl
    exact hm1 ▸ clear_alone hl' hp1
  | true =>
    simp only [if_true] at hl hscan
    obtain ⟨l1, hfree, hl⟩ := bind_ok hl
    obtain ⟨l2, hcut, hclear⟩ := bind_ok hl
    refine hscan.trans fun σ1 hl1 hm1 hp1 => ?_
    have hfree' : RcuList.freeFrom σ.list.zombieCount c.next σ1.list = .ok l1 := hl1 ▸ hfree
    refine (sweep_alone hfree' hp1).trans fun σ2 hl2 hm2 hp2 => ?_
    subst hl2
    exact (hm2.trans hm1) ▸ cut_alone hcut hclear hp2

theorem unlock_alone {write : Bool} (hl : σ.list.unlock z = .ok l)
    (hp : σ.phase h = .active write z iter .none) : ∃ k σ',
    Runs.run step σ ((h, .unlock) :: List.replicate k (h, .go)) = .ok σ' ∧ σ'.list = l ∧
      σ'.m_write_mutex = (if write then none else σ.m_write_mutex) ∧
      σ'.phase = Function.update σ.phase h .idle := by
  have h1 : σ.step (h, .unlock) =
      .ok (σ.goto h (if write then .unlockMutex z else .unlock z)) := by
    simp [step, hp, activeStep]
  cases write with
  | false =>
    obtain ⟨k, σ', hr, hl', hm, hp'⟩ := unlockGuard_alone (σ := σ.goto h (.unlock z)) hl
      (Function.update_self _ _ _)
    refine ⟨k, σ', Runs.run_cons.mpr ⟨_, h1, hr⟩, hl', hm, ?_⟩
    rw [hp']
    exact Function.update_idem _ _ _
  | true =>
    let σ1 := σ.goto h (.unlockMutex z)
    have h2 : σ1.step (h, .go) = .ok ({ σ1 with m_write_mutex := none }.goto h (.unlock z)) := by
      simp [step, goto, σ1]
    obtain ⟨k, σ', hr, hl', hm, hp'⟩ :=
      (unlockGuard_alone (σ := { σ1 with m_write_mutex := none }.goto h (.unlock z)) hl
        (Function.update_self _ _ _)).step h2 rfl
    refine ⟨k, σ', Runs.run_cons.mpr ⟨_, h1, hr⟩, hl', hm, ?_⟩
    rw [hp']
    exact Function.update_idem _ _ _

/-! ## Runs of whole calls -/

/-- The handles of the two models stand at the same place, between two calls. -/
structure Between (u : HandleUse α) (σ : SharedList α) : Prop where
  list : σ.list = u.list
  mutex : σ.m_write_mutex = u.m_write_mutex
  phase : σ.phase = fun h => Accessed.phase (u.handle h)

theorem between_init : Between ({} : HandleUse α) init := ⟨rfl, rfl, rfl⟩

variable {u u' : HandleUse α}

theorem Between.at (B : Between u σ) (h : Handle) : σ.phase h = Accessed.phase (u.handle h) :=
  congrFun B.phase h

/-- The handle ends its call. -/
theorem Between.set (B : Between u σ) {a : Option Accessed} {l : RcuList α} {m : Option Handle}
    (hl : σ'.list = l) (hm : σ'.m_write_mutex = m)
    (hp : σ'.phase = Function.update σ.phase h (Accessed.phase a)) :
    Between ({ u with list := l, m_write_mutex := m }.set h a) σ' := by
  refine ⟨hl, hm, ?_⟩
  rw [hp, B.phase]
  funext h'
  by_cases hh : h' = h
  · subst hh
    simp [HandleUse.set]
  · simp [HandleUse.set, hh]

theorem begins_go (h : Handle) (k : Nat) :
    (List.replicate k (h, (.go : Event α))).filterMap Event.begins = [] :=
  List.filterMap_eq_nil_iff.mpr fun x hx => by
    rw [List.eq_of_mem_replicate hx]
    rfl

/-- The handle makes the call `x` by steps of its own, and comes to where `u'` says. -/
def Makes (σ : SharedList α) (x : Handle × Event α) (u' : HandleUse α) : Prop :=
  ∃ as σ', Runs.run step σ as = .ok σ' ∧ as.filterMap Event.begins = [x] ∧ Between u' σ'

/-- A call that is one step. -/
theorem Makes.of_step {x : Handle × Event α} (hs : σ.step x = .ok σ')
    (hx : Event.begins x = some x) (B : Between u' σ') : Makes σ x u' :=
  ⟨[x], σ', Runs.run_cons.mpr ⟨σ', hs, rfl⟩, by rw [List.filterMap_cons_some hx]; rfl, B⟩

theorem Between.lock (B : Between u σ) {write : Bool} (hu : u.handle h = none)
    (hc : u.call (h, .lock write) = .ok u') : Makes σ (h, .lock write) u' := by
  have hp := B.at h
  rw [hu] at hp
  obtain ⟨σ1, hr, hl, hm, hph⟩ := lock_alone write hp
  rw [B.list] at hl hph
  cases write with
  | false =>
    simp only [HandleUse.call, hu] at hc
    cases hc
    exact ⟨_, σ1, hr, rfl, B.set hl (hm.trans B.mutex) hph⟩
  | true =>
    simp only [HandleUse.call, hu] at hc
    cases hmu : u.m_write_mutex with
    | some h' =>
      rw [hmu] at hc
      cases hc
    | none =>
      rw [hmu] at hc
      cases hc
      have h1 : σ1.step (h, .go) = .ok ({ σ1 with m_write_mutex := some h }.goto h
          (.active true u.list.rcuReadLock.1 none .none)) := by
        simp [step, hph, hm, B.mutex, hmu]
      refine ⟨[(h, .lock true), (h, .go), (h, .go), (h, .swap true)] ++ [(h, .go)], _,
        Runs.run_append.mpr ⟨σ1, hr, Runs.run_cons.mpr ⟨_, h1, rfl⟩⟩, rfl, ?_⟩
      refine B.set hl rfl ?_
      simp [goto, hph, Accessed.phase]

/-- A call of a handle that is accessed. -/
theorem Between.called (B : Between u σ) {a : Accessed} {e : Event α} (hu : u.handle h = some a)
    (hc : u.Called h a e u') : Makes σ (h, e) u' := by
  have hp := B.at h
  rw [hu] at hp
  cases hc with
  | begin =>
    have h1 : σ.step (h, .begin) = .ok (σ.goto h (.active a.write a.guard u.list.head .none)) := by
      simp [step, hp, Accessed.phase, activeStep, B.list]
    exact .of_step h1 rfl (B.set B.list B.mutex rfl)
  | read hd =>
    have h1 : σ.step (h, .read) = .ok σ := by
      simp [step, hp, Accessed.phase, activeStep, access, B.list, hd, Except.mapError, ok_bind]
    exact .of_step h1 rfl B
  | @next write z n c hd =>
    have h1 : σ.step (h, .next) = .ok (σ.goto h (.active write z c.next .none)) := by
      simp [step, hp, Accessed.phase, activeStep, access, B.list, hd, Except.mapError, ok_bind]
    exact .of_step h1 rfl (B.set B.list B.mutex rfl)
  | pushBack hl =>
    rw [← B.list] at hl
    obtain ⟨k, σ', hr, hlist, hm, hph⟩ := pushBack_alone hp hl
    refine ⟨_, σ', hr, ?_, hlist, hm.trans B.mutex, hph.trans B.phase⟩
    rw [List.filterMap_cons_some (by rfl), begins_go]
  | @erase z n assign next l hl =>
    rw [← B.list] at hl
    obtain ⟨as, σ', hr, hsee, hlist, hm, hph⟩ := erase_alone assign hp hl
    refine ⟨_, σ', hr, ?_, B.set hlist (hm.trans B.mutex) hph⟩
    rw [List.filterMap_cons_some (by rfl), hsee]
  | unlock hl =>
    rw [← B.list] at hl
    obtain ⟨k, σ', hr, hlist, hm, hph⟩ := unlock_alone hl hp
    refine ⟨_, σ', hr, ?_, B.set hlist ?_ hph⟩
    · rw [List.filterMap_cons_some (by rfl), begins_go]
    · rw [hm, B.mutex]

theorem Between.call (B : Between u σ) {x : Handle × Event α} (hc : u.call x = .ok u') :
    Makes σ x u' := by
  obtain ⟨h, e⟩ := x
  cases hu : u.handle h with
  | none =>
    cases e with
    | lock write => exact B.lock hu hc
    | _ =>
      simp only [HandleUse.call, hu] at hc
      cases hc
  | some a => exact B.called hu (HandleUse.called_of_call hu hc)

/-- Calls that are made one after another: what the functions make of the list, written as
one call each, is what some run of the steps makes of it, in which the handles begin the
same calls in the same order. -/
theorem calls_one_by_one {xs : List (Handle × Event α)}
    (hr : Runs.run HandleUse.call ({} : HandleUse α) xs = .ok u) :
    ∃ as σ, Runs.run step init as = .ok σ ∧ as.filterMap Event.begins = xs ∧
      σ.list = u.list ∧ σ.m_write_mutex = u.m_write_mutex ∧
      ∀ h, σ.phase h = Accessed.phase (u.handle h) := by
  obtain ⟨as, σ, hrun, hsee, B⟩ :=
    Runs.run_weak (fun _ _ _ _ B hc => Between.call B hc) between_init hr
  exact ⟨as, σ, hrun, hsee, B.list, B.mutex, B.at⟩

/-- A reader stands on an element that a writer erases. -/
def readAfterErase : List (Handle × Event Nat) :=
  [(0, .lock true), (0, .pushBack 7), (0, .pushBack 8), (1, .lock false), (1, .begin),
    (0, .begin), (0, .erase true), (0, .unlock), (1, .read), (1, .next), (1, .unlock)]

theorem readAfterErase_run : Runs.run HandleUse.call {} readAfterErase =
    .ok (Runs.reached HandleUse.call {} readAfterErase) :=
  Runs.run_reached (by decide +kernel)

theorem calls_one_by_one_readAfterErase : ∃ as σ, Runs.run step init as = .ok σ ∧
    as.filterMap Event.begins = readAfterErase ∧ σ.list.toList = [(1, 8)] ∧ σ.phase 1 = .idle := by
  obtain ⟨as, σ, hrun, hsee, hlist, _, hphase⟩ := calls_one_by_one readAfterErase_run
  refine ⟨as, σ, hrun, hsee, ?_, (hphase 1).trans rfl⟩
  have htoList : (Runs.reached HandleUse.call {} readAfterErase).list.toList = [(1, 8)] := by
    decide +kernel
  rw [hlist]
  exact htoList

end SharedList

end CsSignal
