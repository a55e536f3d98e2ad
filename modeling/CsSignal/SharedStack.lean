-- The zombie stack of a list that is shared. An entry is on the stack from its
-- push to its release, and a `next` pointer leads to the newest entry that is
-- older. The one exception is the entry of a guard that frees the entries below
-- it: its pointer is stale until the cut, and nobody reads it meanwhile.
import CsSignal.Lib.Stamps
import CsSignal.SharedList
import Mathlib.Order.Nat

namespace CsSignal

open Stamps

/-! ## What a handle has -/

namespace Phase

/-- The entry of the guard. -/
def entry : Phase → Option Nat
  | idle => none
  | lock _ z _ | lockMutex z | active _ z _ _ | unlockMutex z | unlock z | scanOwner z _ _
  | scanNext z _ _ | sweepNode z _ | sweepNext z _ | sweepFree z _ _ | cut z | clear z => some z

/-- Is the entry of the guard on the stack? -/
def pushed : Phase → Bool
  | lock .. => false
  | _ => true

/-- The entry that `erase` is about to push, and its node. -/
def newZombie : Phase → Option (Nat × Nat)
  | active _ _ _ (.eraseLink current _ _ z _) => some (z, current)
  | _ => none

/-- The call in progress. -/
def job : Phase → Job
  | active _ _ _ job => job
  | _ => .none

def holds : Phase → Bool
  | active write _ _ _ => write
  | unlockMutex _ => true
  | _ => false

/-- The entry of a guard that frees the entries below its own. -/
def sweeps : Phase → Option Nat
  | sweepNode z _ | sweepNext z _ | sweepFree z _ _ | cut z => some z
  | _ => none

theorem sweeps_entry {p : Phase} {z : Nat} (h : p.sweeps = some z) : p.entry = some z := by
  cases p <;> simp_all [sweeps, entry]

theorem newZombie_job {p : Phase} {x : Nat × Nat} (h : p.newZombie = some x) : p.job ≠ .none := by
  unfold newZombie at h
  split at h
  · simp [job]
  · cases h

end Phase

namespace SharedList

variable {α : Type} {σ σ' : SharedList α}

/-! ## The mutex -/

/-- The mutex knows its holder, and only the holder changes the list. -/
structure Exclusive (σ : SharedList α) : Prop where
  holder : ∀ h, (σ.phase h).holds = true ↔ σ.m_write_mutex = some h
  writer : ∀ h, (σ.phase h).job ≠ .none → (σ.phase h).holds = true

theorem Exclusive.unique (E : Exclusive σ) {h h' : Handle} (hj : (σ.phase h).job ≠ .none)
    (hj' : (σ.phase h').job ≠ .none) : h' = h := by
  have h1 := (E.holder h).mp (E.writer h hj)
  have h2 := (E.holder h').mp (E.writer h' hj')
  rw [h1] at h2
  exact (Option.some.inj h2).symm

/-- Only the handle `h` makes a step. -/
def Others (σ σ' : SharedList α) (h : Handle) : Prop := ∀ h', h' ≠ h → σ'.phase h' = σ.phase h'

theorem others_goto (σ : SharedList α) (h : Handle) (p : Phase) : Others σ (σ.goto h p) h :=
  fun _ hne => Function.update_of_ne hne _ _

theorem Exclusive.step {h : Handle} (E : Exclusive σ) (ho : Others σ σ' h)
    (hm : σ'.m_write_mutex = σ.m_write_mutex) (hh : (σ'.phase h).holds = (σ.phase h).holds)
    (hj : (σ'.phase h).job ≠ .none → (σ'.phase h).holds = true) : Exclusive σ' where
  holder h' := by
    rw [hm]
    by_cases hne : h' = h
    · subst hne
      rw [hh]
      exact E.holder h'
    · rw [ho h' hne]
      exact E.holder h'
  writer h' := by
    by_cases hne : h' = h
    · subst hne
      exact hj
    · rw [ho h' hne]
      exact E.writer h'

/-! ## The entries on the stack -/

/-- The entry `e` is on the stack, where the push of number `t` put it. -/
def Placed (σ : SharedList α) (e t : Nat) : Prop :=
  σ.stamp e = some t ∧ (σ.list.zombie e).isSome = true

def Owned (σ : SharedList α) (e : Nat) : Prop := ∃ c, σ.list.zombie e = some c ∧ c.owner = true

/-- No entry that the pushes from `a` on and before `t` put there has an owner. -/
def Unowned (σ : SharedList α) (a t : Nat) : Prop :=
  ∀ e v, σ.Placed e v → a ≤ v → v < t → ¬ σ.Owned e

def Next (σ : SharedList α) (e : Nat) (p : Option Nat) : Prop :=
  ∃ c, σ.list.zombie e = some c ∧ c.next = p

/-- What an unlock in progress has found out. -/
def Stage (σ : SharedList α) : Phase → Prop
  | .scanOwner z cached_next n => ∃ t u, σ.stamp z = some t ∧ σ.Next z cached_next ∧
      σ.Placed n u ∧ u < t ∧ σ.Unowned (u + 1) t
  | .scanNext z cached_next n => ∃ t u, σ.stamp z = some t ∧ σ.Next z cached_next ∧
      σ.Placed n u ∧ u < t ∧ σ.Unowned u t
  | .sweepNode z n | .sweepNext z n => ∃ t, σ.stamp z = some t ∧ σ.Unowned 0 t ∧
      Leads σ.Placed t (some n)
  | .sweepFree z n next => ∃ t, σ.stamp z = some t ∧ σ.Unowned 0 t ∧
      Leads σ.Placed t (some n) ∧ σ.Next n next
  | .cut z => ∃ t, σ.stamp z = some t ∧ σ.Unowned 0 t ∧ Leads σ.Placed t none
  | _ => True

/-- What a handle knows of the entries that it has. -/
structure Local (σ : SharedList α) (p : Phase) : Prop where
  own : ∀ z, p.entry = some z → ∃ c, σ.list.zombie z = some c ∧ c.owner = true ∧
    c.zombieNode = none ∧ (σ.stamp z).isSome = p.pushed
  new : ∀ z n, p.newZombie = some (z, n) → ∃ c, σ.list.zombie z = some c ∧ c.owner = false ∧
    c.zombieNode = some n ∧ σ.stamp z = none
  stage : σ.Stage p

structure Entries (σ : SharedList α) : Prop where
  bound : ∀ e, σ.list.zombieCount ≤ e → σ.list.zombie e = none ∧ σ.stamp e = none
  older : ∀ e t, σ.stamp e = some t → t < σ.pushes
  inj : ∀ e e' t, σ.stamp e = some t → σ.stamp e' = some t → e = e'
  top : Leads σ.Placed σ.pushes σ.list.zombieHead
  chain : ∀ e c t, σ.list.zombie e = some c → σ.stamp e = some t →
    (∀ h, (σ.phase h).sweeps ≠ some e) → Leads σ.Placed t c.next
  handle : ∀ h, Local σ (σ.phase h)
  apart : ∀ h h' z, (σ.phase h).entry = some z → (σ.phase h').entry = some z → h' = h

theorem Local.owned {p : Phase} {z : Nat} (L : Local σ p) (hz : p.entry = some z) : σ.Owned z := by
  obtain ⟨c, hc, ho, _⟩ := L.own z hz
  exact ⟨c, hc, ho⟩

theorem Local.placed {p : Phase} {z t : Nat} (L : Local σ p) (hz : p.entry = some z)
    (ht : σ.stamp z = some t) : σ.Placed z t := by
  obtain ⟨c, hc, _⟩ := L.own z hz
  exact ⟨ht, by rw [hc]; rfl⟩

theorem Entries.lt_of_unowned {h : Handle} {z t u : Nat} (I : Entries σ)
    (hz : (σ.phase h).entry = some z) (ht : σ.stamp z = some t) (hu : σ.Unowned 0 u) : u ≤ t := by
  by_contra hlt
  exact hu z t ((I.handle h).placed hz ht) (Nat.zero_le _) (by omega) ((I.handle h).owned hz)

/-- An entry without an owner is the entry of no guard. -/
theorem Entries.not_entry {h : Handle} {e : Nat} (I : Entries σ) (he : ¬ σ.Owned e) :
    (σ.phase h).entry ≠ some e := fun hz => he ((I.handle h).owned hz)

theorem Entries.not_sweeps {h : Handle} {e : Nat} (I : Entries σ) (he : ¬ σ.Owned e) :
    (σ.phase h).sweeps ≠ some e := fun hz => I.not_entry he (Phase.sweeps_entry hz)

/-! ## A step on one entry -/

/-- A step of a handle on the entry `w`, which it pushes when `b` says so. -/
structure Touch (σ σ' : SharedList α) (w : Nat) (b : Bool) : Prop where
  zombie : ∀ e, e ≠ w → σ'.list.zombie e = σ.list.zombie e
  stamp : ∀ e, e ≠ w → σ'.stamp e = σ.stamp e
  stamped : σ'.stamp w = if b then some σ.pushes else σ.stamp w
  unpushed : b = true → σ.stamp w = none
  there : (σ'.list.zombie w).isSome = true
  was : (σ.list.zombie w).isSome = true ∨ σ.stamp w = none
  owner : σ'.Owned w → σ.Owned w ∨ σ'.stamp w = none
  pushes : σ'.pushes = if b then σ.pushes + 1 else σ.pushes
  head : σ'.list.zombieHead = if b then some w else σ.list.zombieHead
  count : σ.list.zombieCount ≤ σ'.list.zombieCount ∧ w < σ'.list.zombieCount

variable {w : Nat} {b : Bool} {h : Handle}

theorem Touch.stamp_of {e v : Nat} (T : Touch σ σ' w b) (he : σ.stamp e = some v) :
    σ'.stamp e = some v := by
  by_cases hne : e = w
  · subst hne
    rw [T.stamped]
    cases b with
    | false => simpa using he
    | true => rw [T.unpushed rfl] at he; cases he
  · rw [T.stamp e hne, he]

theorem Touch.of_stamp {e v : Nat} (T : Touch σ σ' w b) (he : σ'.stamp e = some v) :
    σ.stamp e = some v ∨ b = true ∧ e = w ∧ v = σ.pushes := by
  by_cases hne : e = w
  · subst hne
    rw [T.stamped] at he
    cases b with
    | false => exact Or.inl (by simpa using he)
    | true => exact Or.inr ⟨rfl, rfl, by simpa using he.symm⟩
  · rw [T.stamp e hne] at he
    exact Or.inl he

theorem Touch.placed (T : Touch σ σ' w b) (e v : Nat) :
    σ'.Placed e v ↔ σ.Placed e v ∨ b = true ∧ e = w ∧ v = σ.pushes := by
  constructor
  · rintro ⟨hs, hz⟩
    rcases T.of_stamp hs with h | h
    · refine Or.inl ⟨h, ?_⟩
      by_cases hne : e = w
      · subst hne
        rcases T.was with hw | hw
        · exact hw
        · rw [hw] at h
          cases h
      · rwa [← T.zombie e hne]
    · exact Or.inr h
  · rintro (⟨hs, hz⟩ | ⟨hb, rfl, rfl⟩)
    · refine ⟨T.stamp_of hs, ?_⟩
      by_cases hne : e = w
      · exact hne ▸ T.there
      · rwa [T.zombie e hne]
    · exact ⟨by rw [T.stamped, hb]; rfl, T.there⟩

theorem Touch.leads {t : Nat} {p : Option Nat} (T : Touch σ σ' w b) (ht : t ≤ σ.pushes)
    (hl : Leads σ.Placed t p) : Leads σ'.Placed t p := by
  cases b with
  | false => exact hl.congr fun e u => by simp [T.placed]
  | true =>
    have hR : ∀ e u, σ'.Placed e u ↔ σ.Placed e u ∨ e = w ∧ u = σ.pushes := fun e u => by
      simp [T.placed]
    exact hl.push hR ht

theorem Touch.unowned {a t : Nat} (T : Touch σ σ' w b) (ht : t ≤ σ.pushes)
    (hu : σ.Unowned a t) : σ'.Unowned a t := by
  intro e v he ha hv ho
  rcases (T.placed e v).mp he with h | ⟨_, _, rfl⟩
  · refine hu e v h ha hv ?_
    by_cases hne : e = w
    · subst hne
      rcases T.owner ho with ho | hn
      · exact ho
      · rw [T.stamp_of h.1] at hn
        cases hn
    · obtain ⟨c, hc, ho⟩ := ho
      exact ⟨c, by rw [← T.zombie e hne, hc], ho⟩
  · omega

theorem Touch.next {e : Nat} {p : Option Nat} (T : Touch σ σ' w b) (hne : e ≠ w)
    (hn : σ.Next e p) : σ'.Next e p := by
  obtain ⟨c, hc, hn⟩ := hn
  exact ⟨c, by rw [T.zombie e hne, hc], hn⟩

/-- What an unlock of another handle has found out stays true. -/
theorem Touch.stage {p : Phase} (T : Touch σ σ' w b)
    (hold : ∀ e t, σ.stamp e = some t → t < σ.pushes) (hz : p.entry ≠ some w)
    (hown : ∀ v, σ.Placed w v → σ.Owned w) (S : σ.Stage p) : σ'.Stage p := by
  cases p with
  | scanOwner z cached_next n =>
    obtain ⟨t, u, ht, hn, hp, hlt, hu⟩ := S
    have hle := Nat.le_of_lt (hold z t ht)
    exact ⟨t, u, T.stamp_of ht, T.next (fun he => hz (congrArg some he)) hn,
      (T.placed n u).mpr (Or.inl hp), hlt, T.unowned hle hu⟩
  | scanNext z cached_next n =>
    obtain ⟨t, u, ht, hn, hp, hlt, hu⟩ := S
    have hle := Nat.le_of_lt (hold z t ht)
    exact ⟨t, u, T.stamp_of ht, T.next (fun he => hz (congrArg some he)) hn,
      (T.placed n u).mpr (Or.inl hp), hlt, T.unowned hle hu⟩
  | sweepNode z n | sweepNext z n | cut z =>
    obtain ⟨t, ht, hu, hl⟩ := S
    have hle := Nat.le_of_lt (hold z t ht)
    exact ⟨t, T.stamp_of ht, T.unowned hle hu, T.leads hle hl⟩
  | sweepFree z n next =>
    obtain ⟨t, ht, hu, hl, hn⟩ := S
    have hle := Nat.le_of_lt (hold z t ht)
    refine ⟨t, T.stamp_of ht, T.unowned hle hu, T.leads hle hl, T.next ?_ hn⟩
    -- the entry that is freed has no owner
    rintro rfl
    obtain ⟨u, hp, hlt, _⟩ := hl
    exact hu n u hp (Nat.zero_le _) hlt (hown u hp)
  | idle => trivial
  | lock => trivial
  | lockMutex => trivial
  | active => trivial
  | unlockMutex => trivial
  | unlock => trivial
  | clear => trivial

theorem Touch.handle {p : Phase} (T : Touch σ σ' w b)
    (hold : ∀ e t, σ.stamp e = some t → t < σ.pushes) (hz : p.entry ≠ some w)
    (hnew : ∀ n, p.newZombie ≠ some (w, n)) (hown : ∀ v, σ.Placed w v → σ.Owned w)
    (L : Local σ p) : Local σ' p where
  own z he := by
    have hne : z ≠ w := fun h => hz (h ▸ he)
    rw [T.zombie z hne, T.stamp z hne]
    exact L.own z he
  new z n he := by
    have hne : z ≠ w := fun h => hnew n (h ▸ he)
    rw [T.zombie z hne, T.stamp z hne]
    exact L.new z n he
  stage := T.stage hold hz hown L.stage

/-- No handle but `h` has the entry `w`. -/
structure Mine (σ : SharedList α) (h : Handle) (w : Nat) : Prop where
  entry : ∀ h', h' ≠ h → (σ.phase h').entry ≠ some w
  new : ∀ h', h' ≠ h → ∀ n, (σ.phase h').newZombie ≠ some (w, n)
  owned : ∀ v, σ.Placed w v → σ.Owned w

theorem Entries.touch (I : Entries σ) (T : Touch σ σ' w b) (ho : Others σ σ' h)
    (M : Mine σ h w) (hL : Local σ' (σ'.phase h))
    (hchain : ∀ c t, σ'.list.zombie w = some c → σ'.stamp w = some t →
      (∀ h, (σ'.phase h).sweeps ≠ some w) → Leads σ'.Placed t c.next)
    (hsweep : ∀ e, e ≠ w → (σ.phase h).sweeps = some e → (σ'.phase h).sweeps = some e)
    (hentry : ∀ z, (σ'.phase h).entry = some z → (σ.phase h).entry = some z ∨ z = w) :
    Entries σ' where
  bound e he := by
    have hc := T.count
    have hne : e ≠ w := by omega
    rw [T.zombie e hne, T.stamp e hne]
    exact I.bound e (by omega)
  older e t he := by
    rw [T.pushes]
    rcases T.of_stamp he with h | ⟨hb, _, rfl⟩
    · have := I.older e t h
      split <;> omega
    · simp [hb]
  inj e e' t he he' := by
    rcases T.of_stamp he with h | ⟨_, rfl, rfl⟩ <;> rcases T.of_stamp he' with h' | ⟨_, rfl, h'⟩
    · exact I.inj e e' t h h'
    · have := I.older e t h
      omega
    · have := I.older e' _ h'
      omega
    · rfl
  top := by
    rw [T.pushes, T.head]
    cases b with
    | false => exact T.leads (Nat.le_refl _) I.top
    | true =>
      have hR : ∀ e u, σ'.Placed e u ↔ σ.Placed e u ∨ e = w ∧ u = σ.pushes := fun e u => by
        simp [T.placed]
      exact leads_top hR (fun e u he => I.older e u he.1) (Nat.lt_succ_self _)
  chain e c t hc ht hs := by
    by_cases hne : e = w
    · subst hne
      exact hchain c t hc ht hs
    · rw [T.zombie e hne] at hc
      rw [T.stamp e hne] at ht
      refine T.leads (Nat.le_of_lt (I.older e t ht)) (I.chain e c t hc ht fun h' hh => ?_)
      by_cases hh' : h' = h
      · subst hh'
        exact hs h' (hsweep e hne hh)
      · exact hs h' (by rw [ho h' hh', hh])
  handle h' := by
    by_cases hne : h' = h
    · exact hne ▸ hL
    · rw [ho h' hne]
      exact T.handle I.older (M.entry h' hne) (M.new h' hne) M.owned (I.handle h')
  apart h1 h2 z hz hz' := by
    by_cases h1e : h1 = h <;> by_cases h2e : h2 = h
    · rw [h1e, h2e]
    · subst h1e
      rw [ho h2 h2e] at hz'
      rcases hentry z hz with hz | rfl
      · exact I.apart h1 h2 z hz hz'
      · exact absurd hz' (M.entry h2 h2e)
    · subst h2e
      rw [ho h1 h1e] at hz
      rcases hentry z hz' with hz' | rfl
      · exact I.apart h1 h2 z hz hz'
      · exact absurd hz (M.entry h1 h1e)
    · rw [ho h1 h1e] at hz
      rw [ho h2 h2e] at hz'
      exact I.apart h1 h2 z hz hz'

/-! ## Whose entry it is -/

theorem Entries.mine {z : Nat} (I : Entries σ) (hz : (σ.phase h).entry = some z) :
    Mine σ h z where
  entry h' hne hz' := hne (I.apart h h' z hz hz')
  new h' _ n hn := by
    obtain ⟨c, hc, ho, _⟩ := (I.handle h).own z hz
    obtain ⟨c', hc', ho', _⟩ := (I.handle h').new z n hn
    rw [hc, Option.some.injEq] at hc'
    rw [hc', ho'] at ho
    cases ho
  owned _ _ := (I.handle h).owned hz

theorem Entries.mine_new {z n : Nat} (I : Entries σ) (E : Exclusive σ)
    (hn : (σ.phase h).newZombie = some (z, n)) : Mine σ h z where
  entry h' _ hz := by
    obtain ⟨c, hc, ho, _⟩ := (I.handle h').own z hz
    obtain ⟨c', hc', ho', _⟩ := (I.handle h).new z n hn
    rw [hc, Option.some.injEq] at hc'
    rw [hc', ho'] at ho
    cases ho
  new h' hne _ hn' := hne (E.unique (Phase.newZombie_job hn) (Phase.newZombie_job hn'))
  owned v hv := by
    obtain ⟨_, _, _, _, hs⟩ := (I.handle h).new z n hn
    have := hv.1
    rw [hs] at this
    cases this

theorem Entries.mine_fresh (I : Entries σ) : Mine σ h σ.list.zombieCount where
  entry h' _ hz := by
    obtain ⟨c, hc, _⟩ := (I.handle h').own _ hz
    rw [(I.bound _ (Nat.le_refl _)).1] at hc
    cases hc
  new h' _ n hn := by
    obtain ⟨c, hc, _⟩ := (I.handle h').new _ n hn
    rw [(I.bound _ (Nat.le_refl _)).1] at hc
    cases hc
  owned v hv := by
    have := hv.1
    rw [(I.bound _ (Nat.le_refl _)).2] at this
    cases this

/-! ## The steps that leave the stack alone -/

/-- The two states have the same stack. -/
structure SameStack (σ σ' : SharedList α) : Prop where
  zombie : σ'.list.zombie = σ.list.zombie
  zombieHead : σ'.list.zombieHead = σ.list.zombieHead
  zombieCount : σ'.list.zombieCount = σ.list.zombieCount
  stamp : σ'.stamp = σ.stamp
  pushes : σ'.pushes = σ.pushes

theorem sameStack_goto (σ : SharedList α) (h : Handle) (p : Phase) : SameStack σ (σ.goto h p) :=
  ⟨rfl, rfl, rfl, rfl, rfl⟩

theorem SameStack.touch {z : Nat} {c : ZombieListNode} (S : SameStack σ σ') (I : Entries σ)
    (hc : σ.list.zombie z = some c) : Touch σ σ' z false where
  zombie _ _ := by rw [S.zombie]
  stamp _ _ := by rw [S.stamp]
  stamped := by rw [S.stamp]; rfl
  unpushed hb := by cases hb
  there := by rw [S.zombie, hc]; rfl
  was := Or.inl (by rw [hc]; rfl)
  owner ho := Or.inl (by
    unfold Owned at ho
    rwa [S.zombie] at ho)
  pushes := S.pushes
  head := S.zombieHead
  count := by
    rw [S.zombieCount]
    refine ⟨Nat.le_refl _, ?_⟩
    by_contra hle
    rw [(I.bound z (by omega)).1] at hc
    cases hc

theorem SameStack.placed (S : SameStack σ σ') : σ'.Placed = σ.Placed := by
  funext e t
  unfold Placed
  rw [S.stamp, S.zombie]

theorem SameStack.stage (S : SameStack σ σ') (p : Phase) : σ'.Stage p = σ.Stage p := by
  unfold Stage Unowned Next Owned
  rw [S.placed, S.stamp, S.zombie]

theorem Entries.quiet {z : Nat} {p p' : Phase} (I : Entries σ) (S : SameStack σ σ')
    (ho : Others σ σ' h) (hp : σ.phase h = p) (hp' : σ'.phase h = p') (hz : p.entry = some z)
    (hz' : p'.entry = some z) (hpushed : p'.pushed = p.pushed)
    (hnew : p'.newZombie = none ∨ p'.newZombie = p.newZombie)
    (hsweep : p.sweeps = none ∨ p'.sweeps = p.sweeps) (hS : σ.Stage p') : Entries σ' := by
  subst hp
  obtain ⟨c, hc, hown⟩ := (I.handle h).own z hz
  have hnew' : ∀ x, p'.newZombie = some x → (σ.phase h).newZombie = some x := by
    intro x hx
    rcases hnew with hn | hn
    · rw [hn] at hx
      cases hx
    · rw [← hn, hx]
  have hsweep' : ∀ e, (σ.phase h).sweeps = some e → (σ'.phase h).sweeps = some e := by
    intro e he
    rcases hsweep with hs | hs
    · rw [hs] at he
      cases he
    · rw [hp', hs, he]
  refine I.touch (S.touch I hc) ho (I.mine hz) ?_ ?_ (fun e _ he => hsweep' e he) ?_
  · rw [hp']
    refine ⟨fun y hy => ?_, fun y n hy => ?_, ?_⟩
    · rw [hz', Option.some.injEq] at hy
      subst hy
      rw [S.zombie, S.stamp, hpushed]
      exact ⟨c, hc, hown⟩
    · rw [S.zombie, S.stamp]
      exact (I.handle h).new y n (hnew' _ hy)
    · rw [S.stage]
      exact hS
  · intro c' t hc' ht hs
    rw [S.zombie] at hc'
    rw [S.stamp] at ht
    rw [S.placed]
    refine I.chain z c' t hc' ht fun h' hh => ?_
    by_cases hne : h' = h
    · subst hne
      exact hs h' (hsweep' z hh)
    · exact hs h' (by rw [ho h' hne, hh])
  · intro y hy
    rw [hp', hz', ← hz] at hy
    exact Or.inl hy

/-! ## Looking for a guard -/

theorem Entries.stage_unlock {z : Nat} {c : ZombieListNode} (I : Entries σ)
    (hp : σ.phase h = .unlock z) (hc : σ.list.zombie z = some c) :
    σ.Stage (scanAt z c.next c.next) := by
  have hz : (σ.phase h).entry = some z := by rw [hp]; rfl
  obtain ⟨_, _, _, _, hs⟩ := (I.handle h).own z hz
  rw [hp] at hs
  obtain ⟨t, ht⟩ := Option.isSome_iff_exists.mp hs
  have hl : Leads σ.Placed t c.next := by
    refine I.chain z c t hc ht fun h' hh => ?_
    have := I.apart h h' z hz (Phase.sweeps_entry hh)
    rw [this, hp] at hh
    cases hh
  cases hn : c.next with
  | none =>
    rw [hn] at hl
    exact ⟨t, ht, fun e v he _ hv _ => absurd (hl e v he) (by omega), hl⟩
  | some n =>
    rw [hn] at hl
    obtain ⟨u, hpl, hu, hmax⟩ := hl
    exact ⟨t, u, ht, ⟨c, hc, hn⟩, hpl, hu, fun e v he h1 h2 _ => by
      have := hmax e v he h2
      omega⟩

theorem stage_owner {z n : Nat} {cached_next : Option Nat} {c : ZombieListNode}
    (hinj : ∀ e e' t, σ.stamp e = some t → σ.stamp e' = some t → e = e')
    (S : σ.Stage (.scanOwner z cached_next n)) (hc : σ.list.zombie n = some c)
    (ho : c.owner = false) : σ.Stage (.scanNext z cached_next n) := by
  obtain ⟨t, u, ht, hn, hp, hlt, hu⟩ := S
  refine ⟨t, u, ht, hn, hp, hlt, fun e v he h1 h2 => ?_⟩
  by_cases hv : v = u
  · rw [hv] at he
    rw [hinj e n u he.1 hp.1]
    rintro ⟨c', hc', ho'⟩
    rw [hc, Option.some.injEq] at hc'
    rw [← hc', ho] at ho'
    cases ho'
  · exact hu e v he (by omega) h2

/-- The pointer of an entry without an owner is not stale. -/
theorem Entries.leads {e t : Nat} {c : ZombieListNode} (I : Entries σ) (he : σ.Placed e t)
    (hc : σ.list.zombie e = some c) (ho : ¬ σ.Owned e) : Leads σ.Placed t c.next :=
  I.chain e c t hc he.1 fun _ => I.not_sweeps ho

theorem Entries.stage_next {z n : Nat} {cached_next : Option Nat} {c : ZombieListNode}
    (I : Entries σ) (hp : σ.phase h = .scanNext z cached_next n) (hc : σ.list.zombie n = some c) :
    σ.Stage (scanAt z cached_next c.next) := by
  have hz : (σ.phase h).entry = some z := by rw [hp]; rfl
  obtain ⟨t, u, ht, ⟨cz, hcz, hcn⟩, hpl, hlt, hu⟩ : σ.Stage (.scanNext z cached_next n) :=
    hp ▸ (I.handle h).stage
  have hl := I.leads hpl hc (hu n u hpl (Nat.le_refl _) hlt)
  cases hn : c.next with
  | some m =>
    rw [hn] at hl
    obtain ⟨w, hw, hwu, hmax⟩ := hl
    refine ⟨t, w, ht, ⟨cz, hcz, hcn⟩, hw, by omega, fun e v he h1 h2 => ?_⟩
    by_cases hv : u ≤ v
    · exact hu e v he hv h2
    · have := hmax e v he (by omega)
      omega
  | none =>
    rw [hn] at hl
    -- every entry below the guard was looked at
    have hall : σ.Unowned 0 t := fun e v he _ hv => hu e v he (hl e v he) hv
    have hlz : Leads σ.Placed t cached_next := by
      rw [← hcn]
      refine I.chain z cz t hcz ht fun h' hh => ?_
      have := I.apart h h' z hz (Phase.sweeps_entry hh)
      rw [this, hp] at hh
      cases hh
    cases cached_next with
    | none => exact ⟨t, ht, hall, hlz⟩
    | some m => exact ⟨t, ht, hall, hlz⟩

theorem stage_free {z n : Nat} {c : ZombieListNode} (S : σ.Stage (.sweepNext z n))
    (hc : σ.list.zombie n = some c) : σ.Stage (.sweepFree z n c.next) := by
  obtain ⟨t, ht, hu, hl⟩ := S
  exact ⟨t, ht, hu, hl, c, hc, rfl⟩

/-! ## Allocating and pushing an entry -/

theorem Entries.touch_alloc (I : Entries σ) (owner : Bool) (zombieNode : Option Nat) (p : Phase) :
    Touch σ ((σ.allocZombie owner zombieNode).goto h p) σ.list.zombieCount false where
  zombie _ hne := Function.update_of_ne hne _ _
  stamp _ _ := rfl
  stamped := rfl
  unpushed hb := by cases hb
  there := by simp [allocZombie, goto]
  was := Or.inr (I.bound _ (Nat.le_refl _)).2
  owner _ := Or.inr (I.bound _ (Nat.le_refl _)).2
  pushes := rfl
  head := rfl
  count := ⟨Nat.le_succ _, Nat.lt_succ_self _⟩

/-- A handle allocates its guard. -/
theorem Entries.allocGuard (I : Entries σ) {write : Bool} (hp : σ.phase h = .idle) :
    Entries ((σ.allocZombie true none).goto h (.lock write σ.list.zombieCount .load)) := by
  have hf := I.bound _ (Nat.le_refl _)
  refine I.touch (I.touch_alloc true none _) (others_goto _ _ _) I.mine_fresh ?_ ?_ ?_ ?_
  · simp only [goto, Function.update_self]
    refine ⟨fun z hz => ?_, fun z n hz => (by cases hz), trivial⟩
    simp only [Phase.entry, Option.some.injEq] at hz
    subst hz
    exact ⟨_, Function.update_self _ _ _, rfl, rfl, by simp [allocZombie, hf.2, Phase.pushed]⟩
  · intro c t _ ht
    simp [goto, allocZombie, hf.2] at ht
  · intro e _ he
    rw [hp] at he
    cases he
  · intro z hz
    simp only [goto, Function.update_self, Phase.entry, Option.some.injEq] at hz
    exact Or.inr hz.symm

/-- `erase` allocates the entry of its node. -/
theorem Entries.allocErased (I : Entries σ) {z current : Nat} {iter oldNext : Option Nat}
    {write assign : Bool}
    (hp : σ.phase h = .active write z iter (.eraseAlloc current assign oldNext)) :
    Entries ((σ.allocZombie false (some current)).goto h
      (.active true z iter (.eraseLink current assign oldNext σ.list.zombieCount .load))) := by
  have hf := I.bound _ (Nat.le_refl _)
  obtain ⟨c, hc, ho, hn, hs⟩ := (I.handle h).own z (by rw [hp]; rfl)
  have hne : z ≠ σ.list.zombieCount := by
    rintro rfl
    rw [hf.1] at hc
    cases hc
  refine I.touch (I.touch_alloc false (some current) _) (others_goto _ _ _) I.mine_fresh ?_ ?_ ?_ ?_
  · simp only [goto, Function.update_self]
    refine ⟨fun y hy => ?_, fun y n hy => ?_, trivial⟩
    · simp only [Phase.entry, Option.some.injEq] at hy
      subst hy
      rw [hp] at hs
      exact ⟨c, (Function.update_of_ne hne _ _).trans hc, ho, hn, hs⟩
    · simp only [Phase.newZombie, Option.some.injEq, Prod.mk.injEq] at hy
      obtain ⟨rfl, rfl⟩ := hy
      exact ⟨_, Function.update_self _ _ _, rfl, rfl, hf.2⟩
  · intro c t _ ht
    simp [goto, allocZombie, hf.2] at ht
  · intro e _ he
    rw [hp] at he
    cases he
  · intro y hy
    rw [hp]
    simp only [goto, Function.update_self] at hy
    exact Or.inl hy

/-- What one step of the loop that pushes the entry `z` does. -/
structure PushStep (σ σ' : SharedList α) (z : Nat) (c : ZombieListNode)
    (stage : Option PushStage) : Prop where
  touch : Touch σ σ' z stage.isNone
  cell : ∃ nx, σ'.list.zombie z = some { c with next := nx } ∧
    (stage = none → nx = σ.list.zombieHead)
  nodes : σ'.list.toNodeList = σ.list.toNodeList
  phase : σ'.phase = σ.phase
  mutex : σ'.m_write_mutex = σ.m_write_mutex
  retired : σ'.retired = σ.retired

theorem Entries.pushStep {z : Nat} {c : ZombieListNode} (I : Entries σ)
    (hc : σ.list.zombie z = some c) (hs : σ.stamp z = none) (stage : PushStage) (e : Event α) :
    σ.pushEntry z stage e = .error .illegal ∨ ∃ σ' stage',
      σ.pushEntry z stage e = .ok (σ', stage') ∧ PushStep σ σ' z c stage' := by
  have hlt : z < σ.list.zombieCount := by
    by_contra hle
    rw [(I.bound z (by omega)).1] at hc
    cases hc
  have hload : ∀ st, PushStep σ σ z c (some st) := fun st =>
    ⟨⟨fun _ _ => rfl, fun _ _ => rfl, rfl, fun hb => (by cases hb), by rw [hc]; rfl, Or.inr hs,
      Or.inl, rfl, rfl, Nat.le_refl _, hlt⟩, ⟨c.next, hc, fun h => (by cases h)⟩, rfl, rfl, rfl, rfl⟩
  cases stage with
  | load =>
    cases e with
    | go => exact Or.inr ⟨σ, _, rfl, hload _⟩
    | _ => exact Or.inl rfl
  | store oldNext =>
    cases e with
    | go =>
      refine Or.inr ⟨{ σ with list := { σ.list with
        zombie := Function.update σ.list.zombie z (some { c with next := oldNext }) } },
        some (.cas oldNext), by
          simp only [pushEntry, RcuList.writeZombie, hc, access, Except.mapError, ok_bind], ?_⟩
      refine ⟨⟨fun _ hne => Function.update_of_ne hne _ _, fun _ _ => rfl, rfl,
        fun hb => (by cases hb), by simp, Or.inr hs, fun _ => Or.inr hs, rfl, rfl, Nat.le_refl _, hlt⟩,
        ⟨oldNext, Function.update_self _ _ _, fun h => (by cases h)⟩, rfl, rfl, rfl, rfl⟩
    | _ => exact Or.inl rfl
  | cas oldNext =>
    cases e with
    | swap success =>
      cases success with
      | false => exact Or.inr ⟨σ, _, rfl, hload _⟩
      | true =>
        by_cases hcan : σ.CanSwap oldNext
        · let σ1 : SharedList α := { σ with
            list := { σ.list with
              zombie := Function.update σ.list.zombie z (some { c with next := σ.list.zombieHead })
              zombieHead := some z }
            stamp := Function.update σ.stamp z (some σ.pushes)
            pushes := σ.pushes + 1 }
          have hrun : σ.pushEntry z (.cas oldNext) (.swap true) = .ok (σ1, none) := by
            simp only [pushEntry, if_pos hcan, RcuList.writeZombie, hc, access, Except.mapError,
              ok_bind, σ1]
          refine Or.inr ⟨σ1, none, hrun, ?_⟩
          refine ⟨⟨fun _ hne => Function.update_of_ne hne _ _,
            fun _ hne => Function.update_of_ne hne _ _, Function.update_self _ _ _, fun _ => hs,
            by simp [σ1], Or.inr hs, fun ho => Or.inl ?_, rfl, rfl, Nat.le_refl _, hlt⟩,
            ⟨_, Function.update_self _ _ _, fun _ => rfl⟩, rfl, rfl, rfl, rfl⟩
          obtain ⟨c', hc', ho⟩ := ho
          simp only [σ1, Function.update_self, Option.some.injEq] at hc'
          subst hc'
          exact ⟨c, hc, ho⟩
        · exact Or.inl (by simp only [pushEntry, if_neg hcan])
    | _ => exact Or.inl rfl

/-- A new entry on the top leads to the old top. -/
theorem PushStep.chain {z t : Nat} {c c' : ZombieListNode} {stage : Option PushStage}
    (P : PushStep σ σ' z c stage) (I : Entries σ) (hs : σ.stamp z = none)
    (hc : σ'.list.zombie z = some c') (ht : σ'.stamp z = some t) : Leads σ'.Placed t c'.next := by
  obtain ⟨nx, hcell, hnx⟩ := P.cell
  rw [hc, Option.some.injEq] at hcell
  subst hcell
  cases stage with
  | some st =>
    rw [P.touch.stamped] at ht
    simp [hs] at ht
  | none =>
    rw [P.touch.stamped] at ht
    simp only [Option.isNone_none, if_true, Option.some.injEq] at ht
    rw [← ht, hnx rfl]
    exact P.touch.leads (Nat.le_refl _) I.top

theorem Entries.lockPush {write : Bool} {z : Nat} {stage : PushStage} {c : ZombieListNode}
    {stage' : Option PushStage} {σ1 : SharedList α} {p : Phase} (I : Entries σ)
    (hp : σ.phase h = .lock write z stage) (hc : σ.list.zombie z = some c)
    (P : PushStep σ σ1 z c stage') (hz : p.entry = some z) (hn : p.newZombie = none)
    (hpushed : p.pushed = stage'.isNone) (hS : ∀ σ : SharedList α, σ.Stage p) :
    Entries (σ1.goto h p) := by
  have hent : (σ.phase h).entry = some z := by rw [hp]; rfl
  obtain ⟨c', hc', ho, hzn, hst⟩ := (I.handle h).own z hent
  rw [hc, Option.some.injEq] at hc'
  subst hc'
  have hs : σ.stamp z = none := by
    rw [hp] at hst
    simpa [Phase.pushed] using hst
  obtain ⟨nx, hcell, _⟩ := P.cell
  have hoth : Others σ (σ1.goto h p) h := fun h' hne => by
    rw [others_goto σ1 h p h' hne, P.phase]
  refine I.touch (b := stage'.isNone) ⟨P.touch.1, P.touch.2, P.touch.3, P.touch.4, P.touch.5,
    P.touch.6, P.touch.7, P.touch.8, P.touch.9, P.touch.10⟩ hoth (I.mine hent) ?_ ?_ ?_ ?_
  · simp only [goto, Function.update_self]
    refine ⟨fun y hy => ?_, fun y n hy => ?_, hS _⟩
    · rw [hz, Option.some.injEq] at hy
      subst hy
      refine ⟨_, hcell, ho, hzn, ?_⟩
      simp only [P.touch.stamped, hpushed, hs]
      cases stage'.isNone <;> rfl
    · rw [hn] at hy
      cases hy
  · exact fun c' t hc' ht _ => P.chain I hs hc' ht
  · intro e _ he
    rw [hp] at he
    cases he
  · intro y hy
    simp only [goto, Function.update_self, hz, Option.some.injEq] at hy
    exact Or.inr hy.symm

theorem Entries.erasePush {write assign : Bool} {z w current : Nat} {iter oldNext : Option Nat}
    {stage : PushStage} {c : ZombieListNode} {stage' : Option PushStage} {σ1 : SharedList α}
    {p : Phase} {r : Nat → Option Nat} (I : Entries σ) (E : Exclusive σ)
    (hp : σ.phase h = .active write z iter (.eraseLink current assign oldNext w stage))
    (hc : σ.list.zombie w = some c) (P : PushStep σ σ1 w c stage') (hz : p.entry = some z)
    (hpushed : p.pushed = true)
    (hn : p.newZombie = if stage'.isNone then none else some (w, current))
    (hS : ∀ σ : SharedList α, σ.Stage p) : Entries ({ σ1 with retired := r }.goto h p) := by
  have hent : (σ.phase h).entry = some z := by rw [hp]; rfl
  have hnew : (σ.phase h).newZombie = some (w, current) := by rw [hp]; rfl
  obtain ⟨cz, hcz, hoz, hzn, hst⟩ := (I.handle h).own z hent
  obtain ⟨c', hc', ho, hcn, hs⟩ := (I.handle h).new w current hnew
  rw [hc, Option.some.injEq] at hc'
  subst hc'
  have hzw : z ≠ w := by
    rintro rfl
    rw [hc, Option.some.injEq] at hcz
    rw [hcz, hoz] at ho
    cases ho
  obtain ⟨nx, hcell, _⟩ := P.cell
  have hoth : Others σ ({ σ1 with retired := r }.goto h p) h := fun h' hne => by
    rw [others_goto _ h p h' hne]
    exact congrFun P.phase h'
  refine I.touch (b := stage'.isNone) ⟨P.touch.1, P.touch.2, P.touch.3, P.touch.4, P.touch.5,
    P.touch.6, P.touch.7, P.touch.8, P.touch.9, P.touch.10⟩ hoth (I.mine_new E hnew) ?_ ?_ ?_ ?_
  · simp only [goto, Function.update_self]
    refine ⟨fun y hy => ?_, fun y n hy => ?_, hS _⟩
    · rw [hz, Option.some.injEq] at hy
      subst hy
      refine ⟨cz, (P.touch.zombie _ hzw).trans hcz, hoz, hzn, ?_⟩
      rw [hpushed]
      simp only [P.touch.stamp _ hzw]
      rw [hst, hp]
      rfl
    · rw [hn] at hy
      cases stage' with
      | none => cases hy
      | some st =>
        simp only [Option.isNone_some, Bool.false_eq_true, if_false, Option.some.injEq,
          Prod.mk.injEq] at hy
        obtain ⟨rfl, rfl⟩ := hy
        refine ⟨_, hcell, ho, hcn, ?_⟩
        simp [P.touch.stamped, hs]
  · exact fun c' t hc' ht _ => P.chain I hs hc' ht
  · intro e _ he
    rw [hp] at he
    cases he
  · intro y hy
    simp only [goto, Function.update_self] at hy
    rw [hz] at hy
    exact Or.inl (hent.trans hy)

/-! ## The end of an unlock -/

theorem Entries.cut {z : Nat} {c : ZombieListNode} (I : Entries σ) (hp : σ.phase h = .cut z)
    (hc : σ.list.zombie z = some c) :
    Entries ({ σ with list := { σ.list with
      zombie := Function.update σ.list.zombie z (some { c with next := none }) } }.goto h
        (.clear z)) := by
  have hent : (σ.phase h).entry = some z := by rw [hp]; rfl
  obtain ⟨c', hc', ho, hzn, hst⟩ := (I.handle h).own z hent
  rw [hc, Option.some.injEq] at hc'
  subst hc'
  obtain ⟨t, ht, hu, hl⟩ : σ.Stage (.cut z) := hp ▸ (I.handle h).stage
  have T : Touch σ ({ σ with list := { σ.list with
      zombie := Function.update σ.list.zombie z (some { c with next := none }) } }.goto h
        (.clear z)) z false :=
    { ((sameStack_goto σ h (.clear z)).touch I hc) with
      zombie := fun _ hne => Function.update_of_ne hne _ _
      there := by simp [goto]
      owner := fun _ => Or.inl ⟨c, hc, ho⟩ }
  refine I.touch T (others_goto _ _ _) (I.mine hent) ?_ ?_ ?_ ?_
  · simp only [goto, Function.update_self]
    refine ⟨fun y hy => ?_, fun y n hy => (by cases hy), trivial⟩
    simp only [Phase.entry, Option.some.injEq] at hy
    subst hy
    rw [hp] at hst
    exact ⟨_, Function.update_self _ _ _, ho, hzn, hst⟩
  · intro c' t' hc' ht' _
    simp only [goto, Function.update_self, Option.some.injEq] at hc' ht'
    subst hc'
    rw [ht, Option.some.injEq] at ht'
    subst ht'
    exact T.leads (Nat.le_of_lt (I.older z t ht)) hl
  · intro e hne he
    rw [hp] at he
    exact absurd (Option.some.inj he).symm hne
  · intro y hy
    simp only [goto, Function.update_self, Phase.entry, Option.some.injEq] at hy
    exact Or.inr hy.symm

theorem Entries.clear {z : Nat} {c : ZombieListNode} (I : Entries σ) (hp : σ.phase h = .clear z)
    (hc : σ.list.zombie z = some c) :
    Entries ({ σ with list := { σ.list with
      zombie := Function.update σ.list.zombie z (some { c with owner := false }) } }.goto h
        .idle) := by
  have hent : (σ.phase h).entry = some z := by rw [hp]; rfl
  have T : Touch σ ({ σ with list := { σ.list with
      zombie := Function.update σ.list.zombie z (some { c with owner := false }) } }.goto h
        .idle) z false :=
    { ((sameStack_goto σ h .idle).touch I hc) with
      zombie := fun _ hne => Function.update_of_ne hne _ _
      there := by simp [goto]
      owner := fun _ => Or.inl ((I.handle h).owned hent) }
  refine I.touch T (others_goto _ _ _) (I.mine hent) ?_ ?_ ?_ ?_
  · simp only [goto, Function.update_self]
    exact ⟨fun y hy => (by cases hy), fun y n hy => (by cases hy), trivial⟩
  · intro c' t hc' ht _
    simp only [goto, Function.update_self, Option.some.injEq] at hc' ht
    subst hc'
    refine T.leads (Nat.le_of_lt (I.older z t ht)) (I.chain z c t hc ht fun h' hh => ?_)
    have := I.apart h h' z hent (Phase.sweeps_entry hh)
    rw [this, hp] at hh
    cases hh
  · intro e hne he
    rw [hp] at he
    cases he
  · intro y hy
    simp only [goto, Function.update_self] at hy
    cases hy

/-! ## Freeing an entry -/

/-- The entry `n` is freed. -/
structure Freed (σ σ' : SharedList α) (n : Nat) : Prop where
  zombie : σ'.list.zombie = Function.update σ.list.zombie n none
  zombieHead : σ'.list.zombieHead = σ.list.zombieHead
  zombieCount : σ'.list.zombieCount = σ.list.zombieCount
  stamp : σ'.stamp = σ.stamp
  pushes : σ'.pushes = σ.pushes

variable {n : Nat}

theorem Freed.zombie_ne {e : Nat} (F : Freed σ σ' n) (hne : e ≠ n) :
    σ'.list.zombie e = σ.list.zombie e := by
  rw [F.zombie, Function.update_of_ne hne]

theorem Freed.ne {e : Nat} {c : ZombieListNode} (F : Freed σ σ' n)
    (hc : σ'.list.zombie e = some c) : e ≠ n := by
  rintro rfl
  rw [F.zombie, Function.update_self] at hc
  cases hc

theorem Freed.placed (F : Freed σ σ' n) (e v : Nat) :
    σ'.Placed e v ↔ σ.Placed e v ∧ e ≠ n := by
  unfold Placed
  rw [F.stamp]
  by_cases hne : e = n
  · subst hne
    rw [F.zombie, Function.update_self]
    simp
  · rw [F.zombie_ne hne]
    simp [hne]

theorem Freed.owned {e : Nat} (F : Freed σ σ' n) (ho : σ'.Owned e) : σ.Owned e := by
  obtain ⟨c, hc, ho⟩ := ho
  exact ⟨c, (F.zombie_ne (F.ne hc)) ▸ hc, ho⟩

theorem Freed.unowned {a t : Nat} (F : Freed σ σ' n) (hu : σ.Unowned a t) : σ'.Unowned a t :=
  fun e v he ha hv ho => hu e v ((F.placed e v).mp he).1 ha hv (F.owned ho)

/-- A guard `z` that frees finds its next entry among those that are older. -/
structure Sweeping (σ : SharedList α) (h : Handle) (z t n : Nat) : Prop where
  entry : (σ.phase h).entry = some z
  stamp : σ.stamp z = some t
  alone : σ.Unowned 0 t
  leads : Leads σ.Placed t (some n)

variable {z t : Nat}

theorem Sweeping.functional (e v w : Nat) (h1 : σ.Placed e v) (h2 : σ.Placed e w) : v = w :=
  Option.some.inj (h1.1.symm.trans h2.1)

/-- Only the pointer of the guard that frees leads to the entry. -/
theorem Sweeping.lead_ne {t' : Nat} {p : Option Nat} (W : Sweeping σ h z t n) (I : Entries σ)
    (ht' : t' ≠ t) (hx : t' < t → ∃ e, σ.Placed e t') (hl : Leads σ.Placed t' p) :
    p ≠ some n := by
  rintro rfl
  obtain ⟨u, hn, hu, hmax⟩ := W.leads
  obtain ⟨u', hn', hu', hmax'⟩ := hl
  have huu := functional n u' u hn' hn
  rcases Nat.lt_or_gt_of_ne ht' with hlt | hlt
  · obtain ⟨e, he⟩ := hx hlt
    have := hmax e t' he hlt
    omega
  · have := hmax' z t ((I.handle h).placed W.entry W.stamp) hlt
    omega

theorem Sweeping.below (W : Sweeping σ h z t n) : ∃ u, σ.Placed n u ∧ u < t :=
  let ⟨u, hn, hu, _⟩ := W.leads
  ⟨u, hn, hu⟩

theorem Sweeping.unowned (W : Sweeping σ h z t n) : ¬ σ.Owned n := by
  obtain ⟨u, hn, hu⟩ := W.below
  exact W.alone n u hn (Nat.zero_le _) hu

/-- At most one handle frees. -/
theorem Sweeping.only {h' : Handle} {z' t' : Nat} (W : Sweeping σ h z t n) (I : Entries σ)
    (hz' : (σ.phase h').entry = some z') (ht' : σ.stamp z' = some t') (hu' : σ.Unowned 0 t') :
    h' = h := by
  have h1 := I.lt_of_unowned hz' ht' W.alone
  have h2 := I.lt_of_unowned W.entry W.stamp hu'
  have hzz := I.inj z z' t W.stamp (by rw [ht', Nat.le_antisymm h1 h2])
  exact I.apart h h' z W.entry (hzz ▸ hz')

/-- What an unlock of another handle has found out stays true. -/
theorem Sweeping.stage {h' : Handle} {p : Phase} (W : Sweeping σ h z t n) (I : Entries σ)
    (F : Freed σ σ' n) (hne : h' ≠ h) (hp : σ.phase h' = p) : σ'.Stage p := by
  have S : σ.Stage p := hp ▸ (I.handle h').stage
  have hno : ∀ y ty, p.entry = some y → σ.stamp y = some ty → ¬ σ.Unowned 0 ty :=
    fun y ty hy hty hu => hne (W.only I (hp ▸ hy) hty hu)
  -- the guard that frees is below a guard that scans, and above the entry it frees
  have hscan : ∀ y ty m u, p.entry = some y → σ.stamp y = some ty → σ.Placed m u → u < ty →
      σ.Unowned (u + 1) ty → m ≠ n := by
    intro y ty m u hy hty hm _ hun hmn
    subst hmn
    obtain ⟨u', hn, hu'⟩ := W.below
    have huu := Sweeping.functional m u u' hm hn
    have hle := I.lt_of_unowned (hp ▸ hy) hty W.alone
    have htne : ty ≠ t := by
      intro he
      have hyz := I.inj y z t (he ▸ hty) W.stamp
      exact hne (I.apart h h' z W.entry (by rw [hp, ← hyz]; exact hy))
    exact hun z t ((I.handle h).placed W.entry W.stamp) (by omega) (by omega)
      ((I.handle h).owned W.entry)
  have hnext : ∀ y q, p.entry = some y → σ.Next y q → σ'.Next y q := by
    rintro y q hy ⟨c, hc, hq⟩
    refine ⟨c, ?_, hq⟩
    rw [F.zombie_ne ?_]
    · exact hc
    · rintro rfl
      exact W.unowned ((I.handle h').owned (hp ▸ hy))
  cases p with
  | scanOwner y cached_next m =>
    obtain ⟨ty, u, hty, hn, hm, hlt, hun⟩ := S
    have hmn := hscan y ty m u rfl hty hm hlt hun
    exact ⟨ty, u, by rw [F.stamp]; exact hty, hnext y _ rfl hn, (F.placed m u).mpr ⟨hm, hmn⟩, hlt,
      F.unowned hun⟩
  | scanNext y cached_next m =>
    obtain ⟨ty, u, hty, hn, hm, hlt, hun⟩ := S
    have hmn := hscan y ty m u rfl hty hm hlt fun e v he ha hv => hun e v he (by omega) hv
    exact ⟨ty, u, by rw [F.stamp]; exact hty, hnext y _ rfl hn, (F.placed m u).mpr ⟨hm, hmn⟩, hlt,
      F.unowned hun⟩
  | sweepNode y m | sweepNext y m | cut y =>
    obtain ⟨ty, hty, hun, _⟩ := S
    exact absurd hun (hno y ty rfl hty)
  | sweepFree y m next =>
    obtain ⟨ty, hty, hun, _⟩ := S
    exact absurd hun (hno y ty rfl hty)
  | idle => trivial
  | lock => trivial
  | lockMutex => trivial
  | active => trivial
  | unlockMutex => trivial
  | unlock => trivial
  | clear => trivial

theorem Entries.free {next : Option Nat} (I : Entries σ) (hp : σ.phase h = .sweepFree z n next)
    (F : Freed σ σ' n) (ho : Others σ σ' h) (hp' : σ'.phase h = sweepAt z next) : Entries σ' := by
  have hent : (σ.phase h).entry = some z := by rw [hp]; rfl
  obtain ⟨t, ht, hu, hl, c, hc, hcn⟩ : σ.Stage (.sweepFree z n next) := hp ▸ (I.handle h).stage
  have W : Sweeping σ h z t n := ⟨hent, ht, hu, hl⟩
  obtain ⟨u, hpl, hult, hmax⟩ := hl
  have hq : Leads σ.Placed u next := hcn ▸ I.leads hpl hc W.unowned
  have hnew : Leads σ'.Placed t next :=
    Leads.skip F.placed (fun e e' v he he' => I.inj e e' v he.1 he'.1) Sweeping.functional hpl hult
      hmax hq
  have hlead : ∀ t' p, t' ≠ t → (t' < t → ∃ e, σ.Placed e t') → Leads σ.Placed t' p →
      Leads σ'.Placed t' p := fun t' p hne hx hl => hl.remove F.placed (W.lead_ne I hne hx hl)
  have hzn : z ≠ n := by
    rintro rfl
    exact W.unowned ((I.handle h).owned hent)
  have hphase : (σ'.phase h).entry = some z ∧ (σ'.phase h).pushed = true ∧
      (σ'.phase h).newZombie = none ∧ (σ'.phase h).sweeps = some z := by
    rw [hp']
    cases next <;> exact ⟨rfl, rfl, rfl, rfl⟩
  refine ⟨fun e he => ?_, fun e v he => ?_, fun e e' v he he' => ?_, ?_, fun e c' v hc' hv hs => ?_,
    fun h' => ?_, fun h1 h2 y hy hy' => ?_⟩
  · rw [F.zombieCount] at he
    obtain ⟨h1, h2⟩ := I.bound e he
    rw [F.stamp, F.zombie, Function.update_apply]
    exact ⟨by split <;> [rfl; exact h1], h2⟩
  · rw [F.stamp] at he
    rw [F.pushes]
    exact I.older e v he
  · rw [F.stamp] at he he'
    exact I.inj e e' v he he'
  · rw [F.pushes, F.zombieHead]
    have := I.older z t ht
    exact hlead _ _ (by omega) (fun h => by omega) I.top
  · have hen := F.ne hc'
    rw [F.zombie_ne hen] at hc'
    rw [F.stamp] at hv
    have hez : e ≠ z := by
      rintro rfl
      exact hs h hphase.2.2.2
    refine hlead v _ ?_ (fun _ => ⟨e, hv, by rw [hc']; rfl⟩) (I.chain e c' v hc' hv fun h' hh => ?_)
    · rintro rfl
      exact hez (I.inj e z v hv ht)
    · by_cases hne : h' = h
      · subst hne
        rw [hp] at hh
        exact hez (Option.some.inj hh).symm
      · exact hs h' (by rw [ho h' hne, hh])
  · by_cases hne : h' = h
    · subst hne
      refine ⟨fun y hy => ?_, fun y m hy => ?_, ?_⟩
      · rw [hphase.1, Option.some.injEq] at hy
        subst hy
        rw [F.zombie_ne hzn, F.stamp, hphase.2.1]
        have := (I.handle h').own z hent
        rwa [hp] at this
      · rw [hphase.2.2.1] at hy
        cases hy
      · rw [hp']
        have ht' : σ'.stamp z = some t := by rw [F.stamp]; exact ht
        cases next with
        | none => exact ⟨t, ht', F.unowned hu, hnew⟩
        | some m => exact ⟨t, ht', F.unowned hu, hnew⟩
    · rw [ho h' hne]
      refine ⟨fun y hy => ?_, fun y m hy => ?_, W.stage I F hne rfl⟩
      · have hyn : y ≠ n := by
          rintro rfl
          exact W.unowned ((I.handle h').owned hy)
        rw [F.zombie_ne hyn, F.stamp]
        exact (I.handle h').own y hy
      · have hyn : y ≠ n := by
          rintro rfl
          obtain ⟨_, _, _, _, hs⟩ := (I.handle h').new y m hy
          have := hpl.1
          rw [hs] at this
          cases this
        rw [F.zombie_ne hyn, F.stamp]
        exact (I.handle h').new y m hy
  · have hsame : ∀ h', (σ'.phase h').entry = (σ.phase h').entry := fun h' => by
      by_cases hne : h' = h
      · subst hne
        rw [hphase.1, hent]
      · rw [ho h' hne]
    rw [hsame] at hy hy'
    exact I.apart h1 h2 y hy hy'

theorem entries_init : Entries (init : SharedList α) where
  bound _ _ := ⟨rfl, rfl⟩
  older e t he := by cases he
  inj e e' t he := by cases he
  top e u he := by cases he.1
  chain e c t hc := by cases hc
  handle h := ⟨fun z hz => (by cases hz), fun z n hz => (by cases hz), trivial⟩
  apart h h' z hz := by cases hz

theorem exclusive_init : Exclusive (init : SharedList α) where
  holder h := ⟨fun hh => (by cases hh), fun hh => (by cases hh)⟩
  writer h hj := absurd rfl hj

end SharedList

end CsSignal
