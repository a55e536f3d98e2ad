-- What a step makes of the entries of a shared list, whichever step it is: which entries
-- come and go, who has them, and when the top of the stack is another one.
import CsSignal.SharedLinks

namespace CsSignal

open Stamps

/-- How far the handle is with the push of an entry. -/
def Phase.pushStage : Phase → Option PushStage
  | .lock _ _ stage => some stage
  | .active _ _ _ (.eraseLink _ _ _ _ stage) => some stage
  | _ => none

/-- The entry is the one of the guard, or the one that `erase` is about to push. -/
def Phase.Has (p : Phase) (e : Nat) : Prop := p.entry = some e ∨ ∃ n, p.newZombie = some (e, n)

namespace RcuList

variable {α : Type} {l l' : RcuList α} {z : Nat}

theorem entry_of_deref {e : ZombieListNode} (h : l.derefZombie z = .ok e) :
    l.zombie z = some e := by
  unfold derefZombie at h
  cases hz : l.zombie z with
  | none =>
    rw [hz] at h
    cases h
  | some e' =>
    rw [hz] at h
    cases h
    rfl

theorem head_writeZombie {f : ZombieListNode → ZombieListNode}
    (h : l.writeZombie z f = .ok l') : l'.zombieHead = l.zombieHead := by
  unfold writeZombie at h
  split at h
  · cases h
    rfl
  · cases h

theorem head_freeZombie (h : l.freeZombie z = .ok l') : l'.zombieHead = l.zombieHead := by
  unfold freeZombie at h
  split at h
  · cases h
    rfl
  · cases h

theorem head_freeZombieNode {e : ZombieListNode} (h : l.freeZombieNode e = .ok l') :
    l'.zombieHead = l.zombieHead := by
  unfold freeZombieNode freeNode at h
  split at h
  · split at h
    · cases h
      rfl
    · cases h
  · cases h
    rfl


/-- A write to an entry that leaves its owner. -/
theorem zombie_writeZombie {f : ZombieListNode → ZombieListNode} (hf : ∀ c, (f c).owner = c.owner)
    (h : l.writeZombie z f = .ok l') {e : Nat} {c' : ZombieListNode} (hc : l'.zombie e = some c') :
    ∃ c, l.zombie e = some c ∧ c'.owner = c.owner := by
  unfold writeZombie at h
  split at h
  · rename_i c0 hc0
    cases h
    by_cases he : e = z
    · subst he
      have hw : Function.update l.zombie e (some (f c0)) e = some c' := hc
      rw [Function.update_self] at hw
      obtain rfl := Option.some.inj hw
      exact ⟨c0, hc0, hf c0⟩
    · exact ⟨c', (Function.update_of_ne he _ _).symm.trans hc, rfl⟩
  · cases h

theorem zombie_freeZombie (h : l.freeZombie z = .ok l') {e : Nat} {c : ZombieListNode}
    (hc : l'.zombie e = some c) : l.zombie e = some c := by
  unfold freeZombie at h
  split at h
  · cases h
    by_cases he : e = z
    · subst he
      have hw : Function.update l.zombie e none e = some c := hc
      rw [Function.update_self] at hw
      cases hw
    · exact (Function.update_of_ne he _ _).symm.trans hc
  · cases h

theorem zombie_freeZombieNode {e : ZombieListNode} (h : l.freeZombieNode e = .ok l') :
    l'.zombie = l.zombie := by
  unfold freeZombieNode freeNode at h
  split at h
  · split at h
    · cases h
      rfl
    · cases h
  · cases h
    rfl

end RcuList

namespace SharedList

variable {α : Type} {σ σ' σ1 : SharedList α} {h : Handle} {e : Event α} {z : Nat} {p p' : Phase}

/-- What a step of a handle makes of the entries. The top of the stack stays, or the step is
a push. The entries that were pushed keep their numbers, and a push starts with its load.
An entry that is not pushed, and one that has an owner, belongs to the handle or to
another one. -/
structure Stacks (σ σ' : SharedList α) (x : Handle × Event α) : Prop where
  stamp : ∀ e t, σ.stamp e = some t → σ'.stamp e = some t
  head : σ'.list.zombieHead = σ.list.zombieHead ∨ x.2 = .swap true
  starts : (σ.phase x.1).pushStage = none →
    (σ'.phase x.1).pushStage = none ∨ (σ'.phase x.1).pushStage = some .load
  unpushed : ∀ e, (σ'.list.zombie e).isSome = true → σ'.stamp e = none →
    (σ'.phase x.1).Has e ∨
      ¬ (σ.phase x.1).Has e ∧ (σ.list.zombie e).isSome = true ∧ σ.stamp e = none
  owned : ∀ e, σ'.Owned e →
    (σ'.phase x.1).entry = some e ∨ (σ.phase x.1).entry ≠ some e ∧ σ.Owned e

/-- What a step does to the entries that were there. -/
structure Wears (σ σ1 : SharedList α) : Prop where
  zombie : ∀ e c', σ1.list.zombie e = some c' → ∃ c, σ.list.zombie e = some c ∧ c'.owner = c.owner
  stamp : ∀ e t, σ.stamp e = some t → σ1.stamp e = some t
  unpushed : ∀ e, σ1.stamp e = none → σ.stamp e = none

theorem Wears.of_eq (hz : σ1.list.zombie = σ.list.zombie) (hs : σ1.stamp = σ.stamp) :
    Wears σ σ1 where
  zombie e c' hc := ⟨c', by rw [← hz, hc], rfl⟩
  stamp e t he := by rw [hs, he]
  unpushed e he := by rw [← hs, he]

/-- The handle goes on, with the entry that it has. -/
theorem Stacks.of_goto (hph : σ.phase h = p) (W : Wears σ σ1)
    (hh : σ1.list.zombieHead = σ.list.zombieHead ∨ e = .swap true)
    (hp : p.pushStage = none → p'.pushStage = none ∨ p'.pushStage = some .load)
    (he : p'.entry = p.entry)
    (hn : ∀ w n, p.newZombie = some (w, n) → σ1.stamp w = none → p'.Has w) :
    Stacks σ (σ1.goto h p') (h, e) where
  stamp := W.stamp
  head := hh
  starts := by
    rw [goto_phase, hph]
    exact hp
  unpushed w hw hs := by
    rw [goto_phase, hph]
    have hs0 := W.unpushed w hs
    obtain ⟨c', hc'⟩ := Option.isSome_iff_exists.mp hw
    obtain ⟨c, hc, _⟩ := W.zombie w c' hc'
    by_cases hhas : p.Has w
    · left
      rcases hhas with hentry | ⟨n, hnew⟩
      · exact Or.inl (he.trans hentry)
      · exact hn w n hnew hs
    · exact Or.inr ⟨hhas, by rw [hc]; rfl, hs0⟩
  owned w hw := by
    rw [goto_phase, hph, he]
    obtain ⟨c', hc', hown⟩ := hw
    obtain ⟨c, hc, hsame⟩ := W.zombie w c' hc'
    by_cases hentry : p.entry = some w
    · exact Or.inl hentry
    · exact Or.inr ⟨hentry, c, hc, hsame ▸ hown⟩

/-- No entry is touched. -/
theorem Stacks.of_rest (hph : σ.phase h = p) (hz : σ1.list.zombie = σ.list.zombie)
    (hs : σ1.stamp = σ.stamp) (hh : σ1.list.zombieHead = σ.list.zombieHead)
    (hp : p'.pushStage = none) (he : p'.entry = p.entry) (hn : p.newZombie = none) :
    Stacks σ (σ1.goto h p') (h, e) := by
  refine .of_goto hph (.of_eq hz hs) (Or.inl hh) (fun _ => Or.inl hp) he fun w n hw => ?_
  rw [hn] at hw
  cases hw

/-- The handle only reads. -/
theorem Stacks.of_stay (hph : σ.phase h = p) (hp : p.pushStage = none) :
    Stacks σ σ (h, e) where
  stamp _ _ ht := ht
  head := Or.inl rfl
  starts _ := by
    rw [hph]
    exact Or.inl hp
  unpushed w hw hs := by
    rw [hph]
    by_cases hhas : p.Has w
    · exact Or.inl hhas
    · exact Or.inr ⟨hhas, hw, hs⟩
  owned w hw := by
    by_cases he : (σ.phase h).entry = some w
    · exact Or.inl he
    · exact Or.inr ⟨he, hw⟩

/-- A new entry, which the handle is about to push. -/
theorem Stacks.of_alloc {owner : Bool} {zombieNode : Option Nat} (hph : σ.phase h = p)
    (hp : p'.pushStage = some .load)
    (hkeep : ∀ w, p.Has w → p'.Has w) (hnew : p'.Has σ.list.zombieCount)
    (hentry : ∀ w, p.entry = some w → p'.entry = some w)
    (hown : owner = true → p'.entry = some σ.list.zombieCount) :
    Stacks σ ((σ.allocZombie owner zombieNode).goto h p') (h, e) where
  stamp _ _ ht := ht
  head := Or.inl rfl
  starts _ := by
    rw [goto_phase]
    exact Or.inr hp
  unpushed w hw hs := by
    rw [goto_phase, hph]
    by_cases hhas : p.Has w
    · exact Or.inl (hkeep w hhas)
    · by_cases hwn : w = σ.list.zombieCount
      · exact Or.inl (hwn ▸ hnew)
      · refine Or.inr ⟨hhas, ?_, hs⟩
        rw [← hw]
        exact congrArg Option.isSome (Function.update_of_ne hwn _ _).symm
  owned w hw := by
    rw [goto_phase, hph]
    obtain ⟨c, hc, ho⟩ := hw
    by_cases hwn : w = σ.list.zombieCount
    · subst hwn
      have hw : Function.update σ.list.zombie σ.list.zombieCount (some ⟨none, owner, zombieNode⟩)
          σ.list.zombieCount = some c := hc
      rw [Function.update_self] at hw
      obtain rfl := Option.some.inj hw
      exact Or.inl (hown ho)
    · have hc0 : σ.list.zombie w = some c := (Function.update_of_ne hwn _ _).symm.trans hc
      by_cases he : p.entry = some w
      · exact Or.inl (hentry w he)
      · exact Or.inr ⟨he, c, hc0, ho⟩

/-! ## The steps -/

theorem wears_write {l : RcuList α} {f : ZombieListNode → ZombieListNode}
    (hf : ∀ c, (f c).owner = c.owner) (hl : σ.list.writeZombie z f = .ok l) :
    Wears σ { σ with list := l } where
  zombie _ _ hc := RcuList.zombie_writeZombie hf hl hc
  stamp _ _ he := he
  unpushed _ he := he

theorem stacks_pushEntry {stage : PushStage} {next : Option PushStage} (hz : σ.stamp z = none)
    (hs : σ.pushEntry z stage e = .ok (σ1, next)) :
    Wears σ σ1 ∧ (σ1.list.zombieHead = σ.list.zombieHead ∨ e = .swap true) ∧
      (next = none → σ1.stamp z ≠ none) := by
  unfold pushEntry at hs
  split at hs
  · cases hs
    exact ⟨.of_eq rfl rfl, Or.inl rfl, fun hn => by cases hn⟩
  · rename_i oldNext
    obtain ⟨l, hl, hs⟩ := bind_ok hs
    have hhead := RcuList.head_writeZombie (mapError_ok hl)
    have hwears := wears_write (f := fun e => { e with next := oldNext }) (fun _ => rfl)
      (mapError_ok hl)
    cases hs
    exact ⟨hwears, Or.inl hhead, fun hn => by cases hn⟩
  · split at hs
    · obtain ⟨l, hl, hs⟩ := bind_ok hs
      have hwears := wears_write (f := fun e => { e with next := σ.list.zombieHead })
        (fun _ => rfl) (mapError_ok hl)
      cases hs
      refine ⟨⟨hwears.zombie, fun x t hx => ?_, fun x hx => ?_⟩, Or.inr rfl, fun _ => ?_⟩
      · have hne : x ≠ z := by
          rintro rfl
          rw [hz] at hx
          cases hx
        exact (Function.update_of_ne hne _ _).trans hx
      · by_cases hne : x = z
        · rw [hne, hz]
        · exact (Function.update_of_ne hne _ _).symm.trans hx
      · show Function.update σ.stamp z (some σ.pushes) z ≠ none
        rw [Function.update_self]
        exact Option.some_ne_none _
    · cases hs
  · cases hs
    exact ⟨.of_eq rfl rfl, Or.inl rfl, fun hn => by cases hn⟩
  · cases hs

/-- The step of a call that pushes no entry. -/
theorem stacks_job {iter : Option Nat} {job : Job}
    (hn : Phase.newZombie (.active true z iter job) = none)
    (hph : σ.phase h = .active true z iter job)
    (hs : σ.jobStep h z iter job e = .ok σ') : Stacks σ σ' (h, e) := by
  rcases go_of_jobStep hs with rfl | ⟨current, assign, oldNext, newZombie, stage, rfl⟩
  · cases job with
    | none => cases hs
    | eraseLink => cases hn
    | pushLoad n =>
      simp only [jobStep] at hs
      split at hs <;> cases hs <;> exact .of_rest hph rfl rfl rfl rfl rfl rfl
    | pushHead n =>
      cases hs
      exact .of_rest hph rfl rfl rfl rfl rfl rfl
    | pushBack n oldTail =>
      obtain ⟨nl, _, hs⟩ := bind_ok hs
      cases hs
      exact .of_rest hph rfl rfl rfl rfl rfl rfl
    | pushNext n oldTail =>
      obtain ⟨nl, _, hs⟩ := bind_ok hs
      cases hs
      exact .of_rest hph rfl rfl rfl rfl rfl rfl
    | pushTail n =>
      cases hs
      exact .of_rest hph rfl rfl rfl rfl rfl rfl
    | eraseTest n assign oldNext =>
      obtain ⟨c, _, hs⟩ := bind_ok hs
      split at hs
      · cases hs
        exact .of_rest hph rfl rfl rfl rfl rfl rfl
      · obtain ⟨nl, _, hs⟩ := bind_ok hs
        cases hs
        exact .of_rest hph rfl rfl rfl rfl rfl rfl
    | eraseBack n assign oldNext =>
      obtain ⟨c, _, hs⟩ := bind_ok hs
      cases hs
      exact .of_rest hph rfl rfl rfl rfl rfl rfl
    | erasePrev n assign oldNext oldPrev =>
      cases oldPrev with
      | none =>
        cases hs
        exact .of_rest hph rfl rfl rfl rfl rfl rfl
      | some p =>
        obtain ⟨nl, _, hs⟩ := bind_ok hs
        cases hs
        exact .of_rest hph rfl rfl rfl rfl rfl rfl
    | eraseNext n assign oldNext oldPrev =>
      cases oldNext with
      | none =>
        cases hs
        exact .of_rest hph rfl rfl rfl rfl rfl rfl
      | some k =>
        obtain ⟨nl, _, hs⟩ := bind_ok hs
        cases hs
        exact .of_rest hph rfl rfl rfl rfl rfl rfl
    | eraseAlloc n assign oldNext =>
      cases hs
      refine .of_alloc hph rfl (fun w hw => ?_) (Or.inr ⟨_, rfl⟩) (fun _ hw => hw) fun ho => ?_
      · rcases hw with hw | ⟨_, hw⟩
        · exact Or.inl hw
        · cases hw
      · cases ho
  · cases hn

theorem quiet_sweepAt (z : Nat) (q : Option Nat) :
    (sweepAt z q).pushStage = none ∧ (sweepAt z q).entry = some z := by
  cases q <;> exact ⟨rfl, rfl⟩

theorem quiet_scanAt (z : Nat) (cached_next q : Option Nat) :
    (scanAt z cached_next q).pushStage = none ∧ (scanAt z cached_next q).entry = some z := by
  cases q with
  | none => exact quiet_sweepAt z cached_next
  | some n => exact ⟨rfl, rfl⟩

/-- The guard gives its entry up, which stays on the stack. -/
theorem Safe.stacks_clear (S : Safe σ) (hp : σ.phase h = .clear z)
    (hs : σ.step (h, (.go : Event α)) = .ok σ') : Stacks σ σ' (h, .go) := by
  obtain ⟨t, ht⟩ := S.pushed (z := z) (by rw [hp]; rfl) (by rw [hp]; rfl)
  simp only [step, hp] at hs
  obtain ⟨l, hl, hs⟩ := bind_ok hs
  have hhead := RcuList.head_writeZombie (mapError_ok hl)
  obtain ⟨c, hc⟩ : ∃ c, σ.list.zombie z = some c := by
    obtain ⟨c, hc, _⟩ := (S.entries.handle h).own z (by rw [hp]; rfl)
    exact ⟨c, hc⟩
  rw [writeZombie_ok _ hc] at hl
  cases hl
  cases hs
  have hother : ∀ w, w ≠ z →
      Function.update σ.list.zombie z (some { c with owner := false }) w = σ.list.zombie w :=
    fun w hw => Function.update_of_ne hw _ _
  refine ⟨fun _ _ hx => hx, Or.inl hhead, fun _ => ?_, fun w hw hstamp => ?_, fun w hw => ?_⟩
  · rw [goto_phase]
    exact Or.inl rfl
  · have hne : w ≠ z := by
      rintro rfl
      cases ht.symm.trans hstamp
    refine Or.inr ⟨?_, ?_, hstamp⟩
    · rw [hp]
      rintro (he | ⟨_, hnew⟩)
      · exact hne (Option.some.inj he).symm
      · cases hnew
    · rw [← hother w hne]
      exact hw
  · obtain ⟨c', hc', ho⟩ := hw
    have hc' : Function.update σ.list.zombie z (some { c with owner := false }) w = some c' := hc'
    by_cases hne : w = z
    · subst hne
      rw [Function.update_self] at hc'
      obtain rfl := Option.some.inj hc'
      cases ho
    · rw [hother w hne] at hc'
      refine Or.inr ⟨?_, c', hc', ho⟩
      rw [hp]
      exact fun he => hne (Option.some.inj he).symm

/-- A handle that is accessed begins a call, or ends one that takes one step. -/
theorem stacks_call {write : Bool} {iter : Option Nat} (hp : σ.phase h = .active write z iter .none)
    (hs : σ.step (h, e) = .ok σ') : Stacks σ σ' (h, e) := by
  simp only [step, hp] at hs
  cases e with
  | begin =>
    cases hs
    exact .of_rest hp rfl rfl rfl rfl rfl rfl
  | unlock =>
    cases hs
    cases write
    · exact .of_rest hp rfl rfl rfl rfl rfl rfl
    · exact .of_rest hp rfl rfl rfl rfl rfl rfl
  | read =>
    cases iter with
    | none => cases hs
    | some n =>
      obtain ⟨c, _, hs⟩ := bind_ok hs
      cases hs
      exact .of_stay hp rfl
  | next =>
    cases iter with
    | none => cases hs
    | some n =>
      obtain ⟨c, _, hs⟩ := bind_ok hs
      cases hs
      exact .of_rest hp rfl rfl rfl rfl rfl rfl
  | pushBack data =>
    cases write with
    | false => cases hs
    | true =>
      cases hs
      exact .of_rest hp rfl rfl rfl rfl rfl rfl
  | erase assign =>
    cases iter with
    | none => cases write <;> cases hs
    | some n =>
      cases write with
      | false => cases hs
      | true =>
        obtain ⟨c, _, hs⟩ := bind_ok hs
        cases hs
        exact .of_rest hp rfl rfl rfl rfl rfl rfl
  | _ => cases hs

/-- A step of a call of a write handle. -/
theorem Safe.stacks_goOn (S : Safe σ) {write : Bool} {iter : Option Nat} {job : Job}
    (hp : σ.phase h = .active write z iter job) (hj : job ≠ .none)
    (hs : σ.step (h, e) = .ok σ') : Stacks σ σ' (h, e) := by
  obtain ⟨xs, K⟩ := S.calls hp hj
  have hs' : σ.jobStep h z iter job e = .ok σ' := by
    cases job with
    | none => exact absurd rfl hj
    | _ => simpa only [step, hp] using hs
  cases hnew : Phase.newZombie (.active true z iter job) with
  | none => exact stacks_job hnew K.phase hs'
  | some x =>
    obtain ⟨w, current⟩ := x
    obtain ⟨_, _, _, _, hw⟩ := (S.entries.handle h).new w current (by rw [K.phase, hnew])
    cases job with
    | eraseLink current assign oldNext w stage =>
      cases hnew
      rw [jobStep_eraseLink] at hs'
      obtain ⟨⟨σ1, next⟩, hpush, hs'⟩ := bind_ok hs'
      obtain ⟨hwears, hhead, hdone⟩ := stacks_pushEntry hw hpush
      cases next with
      | some next =>
        cases hs'
        refine .of_goto hp hwears hhead (fun hn => ?_) rfl fun _ _ hnew _ => Or.inr ⟨_, hnew⟩
        cases hn
      | none =>
        cases hs'
        refine .of_goto hp ⟨hwears.zombie, hwears.stamp, hwears.unpushed⟩ hhead (fun hn => ?_) rfl
          fun w' n hnew hstamp => ?_
        · cases hn
        · cases hnew
          exact absurd hstamp (hdone rfl)
    | _ => cases hnew

/-- A turn of the loop that pushes the entry of a guard. -/
theorem Safe.stacks_lock (S : Safe σ) {write : Bool} {stage : PushStage}
    (hp : σ.phase h = .lock write z stage) (hs : σ.step (h, e) = .ok σ') :
    Stacks σ σ' (h, e) := by
  simp only [step, hp] at hs
  obtain ⟨⟨σ1, next⟩, hpush, hs⟩ := bind_ok hs
  obtain ⟨_, _, _, _, hst⟩ := (S.entries.handle h).own z (by rw [hp]; rfl)
  have hz : σ.stamp z = none := by
    rw [hp] at hst
    simpa [Phase.pushed] using hst
  obtain ⟨hwears, hhead, _⟩ := stacks_pushEntry hz hpush
  cases next with
  | some next =>
    cases hs
    refine .of_goto hp hwears hhead (fun hn => ?_) rfl fun _ _ hn => ?_ <;> cases hn
  | none =>
    cases hs
    refine .of_goto hp hwears hhead (fun hn => ?_) ?_ fun _ _ hn => ?_
    · cases hn
    · cases write <;> rfl
    · cases hn

/-- A step of the loop that frees takes entries away, and pushes none. -/
theorem stacks_sweep {n : Nat} (hs : σ.step (h, .go) = .ok σ')
    (hp : σ.phase h = .sweepNode z n ∨ σ.phase h = .sweepNext z n ∨
      ∃ next, σ.phase h = .sweepFree z n next) : Stacks σ σ' (h, .go) := by
  rcases hp with hp | hp | ⟨next, hp⟩ <;> simp only [step, hp] at hs
  · obtain ⟨c, _, hs⟩ := bind_ok hs
    obtain ⟨l, hl, hs⟩ := bind_ok hs
    have hhead := RcuList.head_freeZombieNode (mapError_ok hl)
    have hzombie := RcuList.zombie_freeZombieNode (mapError_ok hl)
    cases hs
    exact .of_rest hp hzombie rfl hhead rfl rfl rfl
  · obtain ⟨c, _, hs⟩ := bind_ok hs
    cases hs
    exact .of_rest hp rfl rfl rfl rfl rfl rfl
  · obtain ⟨l, hl, hs⟩ := bind_ok hs
    have hl := mapError_ok hl
    have hwears : Wears σ { σ with list := l } :=
      ⟨fun _ c hc => ⟨c, RcuList.zombie_freeZombie hl hc, rfl⟩, fun _ _ hx => hx, fun _ hx => hx⟩
    have hhead := RcuList.head_freeZombie hl
    cases hs
    exact .of_goto hp hwears (Or.inl hhead) (fun _ => Or.inl (quiet_sweepAt ..).1)
      (quiet_sweepAt ..).2 fun _ _ hn => by cases hn

theorem Safe.stacks (S : Safe σ) (hs : σ.step (h, e) = .ok σ') : Stacks σ σ' (h, e) := by
  cases hp : σ.phase h with
  | idle =>
    cases e with
    | lock write =>
      rw [step_idle hp] at hs
      cases hs
      refine .of_alloc hp rfl (fun w hw => ?_) (Or.inl rfl) (fun w hw => ?_) fun _ => rfl
      · rcases hw with hw | ⟨_, hw⟩ <;> cases hw
      · cases hw
    | _ =>
      simp only [step, hp] at hs
      cases hs
  | lock write z stage => exact S.stacks_lock hp hs
  | active write z iter job =>
    by_cases hj : job = .none
    · subst hj
      exact stacks_call hp hs
    · exact S.stacks_goOn hp hj hs
  | lockMutex z =>
    obtain rfl := go_of_step hs (by rw [hp]; rfl)
    simp only [step, hp] at hs
    split at hs
    · cases hs
      exact .of_rest hp rfl rfl rfl rfl rfl rfl
    · cases hs
  | unlockMutex z =>
    obtain rfl := go_of_step hs (by rw [hp]; rfl)
    simp only [step, hp] at hs
    cases hs
    exact .of_rest hp rfl rfl rfl rfl rfl rfl
  | unlock z =>
    obtain rfl := go_of_step hs (by rw [hp]; rfl)
    simp only [step, hp] at hs
    obtain ⟨c, _, hs⟩ := bind_ok hs
    cases hs
    exact .of_rest hp rfl rfl rfl (quiet_scanAt ..).1 (quiet_scanAt ..).2 rfl
  | scanOwner z cached_next n =>
    obtain rfl := go_of_step hs (by rw [hp]; rfl)
    simp only [step, hp] at hs
    obtain ⟨c, _, hs⟩ := bind_ok hs
    cases hs
    cases c.owner
    · exact .of_rest hp rfl rfl rfl rfl rfl rfl
    · exact .of_rest hp rfl rfl rfl rfl rfl rfl
  | scanNext z cached_next n =>
    obtain rfl := go_of_step hs (by rw [hp]; rfl)
    simp only [step, hp] at hs
    obtain ⟨c, _, hs⟩ := bind_ok hs
    cases hs
    exact .of_rest hp rfl rfl rfl (quiet_scanAt ..).1 (quiet_scanAt ..).2 rfl
  | sweepNode z n =>
    obtain rfl := go_of_step hs (by rw [hp]; rfl)
    exact stacks_sweep hs (Or.inl hp)
  | sweepNext z n =>
    obtain rfl := go_of_step hs (by rw [hp]; rfl)
    exact stacks_sweep hs (Or.inr (Or.inl hp))
  | sweepFree z n next =>
    obtain rfl := go_of_step hs (by rw [hp]; rfl)
    exact stacks_sweep hs (Or.inr (Or.inr ⟨next, hp⟩))
  | cut z =>
    obtain rfl := go_of_step hs (by rw [hp]; rfl)
    simp only [step, hp] at hs
    obtain ⟨l, hl, hs⟩ := bind_ok hs
    have hl := mapError_ok hl
    have hwears := wears_write (f := fun e => { e with next := none }) (fun _ => rfl) hl
    have hhead := RcuList.head_writeZombie hl
    cases hs
    exact .of_goto hp hwears (Or.inl hhead) (fun _ => Or.inl rfl) rfl fun _ _ hn => by cases hn
  | clear z =>
    obtain rfl := go_of_step hs (by rw [hp]; rfl)
    exact S.stacks_clear hp hs

end SharedList

end CsSignal
