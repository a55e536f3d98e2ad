-- Who can hold up whom on a shared list. Only the mutex makes a handle wait. An unlock
-- comes to its end after as many steps of its own as the entries pushed before its guard
-- allow, whatever the others do. A push of an entry is held up by other pushes only.
import CsSignal.EntrySteps
import CsSignal.Traversal

namespace CsSignal

open Stamps

/-- The handle is on its way out: nothing is left to choose before it is idle. -/
def Phase.leaves : Phase → Bool
  | .unlockMutex _ | .unlock _ | .scanOwner _ _ _ | .scanNext _ _ _ | .sweepNode _ _
  | .sweepNext _ _ | .sweepFree _ _ _ | .cut _ | .clear _ => true
  | _ => false

/-- A bound on the steps that are left before the handle is idle. Each turn of a loop
leads to an entry of a lesser level. -/
def Phase.stepsLeft (level : Nat → Nat) : Phase → Nat
  | .unlockMutex z => 5 * level z + 4
  | .unlock z => 5 * level z + 3
  | .scanOwner z _ n => 3 * level z + 2 * level n + 4
  | .scanNext z _ n => 3 * level z + 2 * level n + 3
  | .sweepNode _ n => 3 * level n + 5
  | .sweepNext _ n => 3 * level n + 4
  | .sweepFree _ n _ => 3 * level n + 3
  | .cut _ => 2
  | .clear _ => 1
  | _ => 0

theorem Phase.stepsLeft_pos {p : Phase} (level : Nat → Nat) :
    0 < p.stepsLeft level ↔ p.leaves = true := by
  cases p <;> simp [Phase.stepsLeft, Phase.leaves]

namespace SharedList

variable {α : Type} {σ σ' σ1 : SharedList α} {h : Handle} {e : Event α} {z n t u : Nat}
  {bs : List (Handle × Event α)}

/-! ## On the way out -/

/-- How many entries were pushed before the entry. -/
def level (σ : SharedList α) (n : Nat) : Nat := (σ.stamp n).getD 0

def stepsLeft (σ : SharedList α) (h : Handle) : Nat := (σ.phase h).stepsLeft σ.level

theorem level_eq (hn : σ.stamp n = some t) : σ.level n = t := by
  unfold level
  rw [hn]
  rfl

/-- The entries that a handle on its way out looks at were pushed before its own. -/
theorem Safe.levels (S : Safe σ) (hl : (σ.phase h).leaves = true) :
    ∃ z t, (σ.phase h).entry = some z ∧ σ.stamp z = some t := by
  have hz : ∃ z, (σ.phase h).entry = some z ∧ (σ.phase h).pushed = true := by
    cases hp : σ.phase h with
    | idle | lock | lockMutex | active =>
      rw [hp] at hl
      cases hl
    | _ => exact ⟨_, rfl, rfl⟩
  obtain ⟨z, hz, hpushed⟩ := hz
  obtain ⟨t, ht⟩ := S.pushed hz hpushed
  exact ⟨z, t, hz, ht⟩

theorem stepsLeft_sweepAt {p : Option Nat} (hl : Leads σ.Placed t p) :
    (sweepAt z p).stepsLeft σ.level ≤ 3 * t + 2 := by
  cases p with
  | none =>
    simp only [sweepAt, Phase.stepsLeft]
    omega
  | some n =>
    obtain ⟨u, hn, hu, _⟩ := hl
    simp only [sweepAt, Phase.stepsLeft, level_eq hn.1]
    omega

theorem stepsLeft_scanAt {cached_next p : Option Nat} (hz : σ.stamp z = some t)
    (hc : Leads σ.Placed t cached_next) (hl : Leads σ.Placed u p) :
    (scanAt z cached_next p).stepsLeft σ.level ≤ 3 * t + 2 * u + 2 := by
  cases p with
  | none =>
    have := stepsLeft_sweepAt (z := z) hc
    simp only [scanAt]
    omega
  | some n =>
    obtain ⟨v, hn, hv, _⟩ := hl
    simp only [scanAt, Phase.stepsLeft, level_eq hn.1, level_eq hz]
    omega

theorem leaves_sweepAt (z : Nat) (p : Option Nat) : (sweepAt z p).leaves = true := by
  cases p <;> rfl

theorem leaves_scanAt (z : Nat) (cached_next p : Option Nat) :
    (scanAt z cached_next p).leaves = true := by
  cases p with
  | none => exact leaves_sweepAt z cached_next
  | some n => rfl

/-- The pointer of a guard that does not free is not stale. -/
theorem Safe.leads_own {c : ZombieListNode} (S : Safe σ) (hz : (σ.phase h).entry = some z)
    (hp : (σ.phase h).sweeps = none) (ht : σ.stamp z = some t) (hc : σ.list.zombie z = some c) :
    Leads σ.Placed t c.next := by
  apply S.entries.chain z c t hc ht
  intro h' hs
  rw [S.entries.apart h h' z hz (Phase.sweeps_entry hs), hp] at hs
  cases hs

/-- A step of a handle on its way out: it is nearer to its end, and stays on its way. -/
def Nearer (σ σ' : SharedList α) (h : Handle) : Prop :=
  σ'.stepsLeft h < σ.stepsLeft h ∧ ((σ'.phase h).leaves = true ∨ σ'.phase h = .idle)

theorem nearer_goto {p' : Phase} (σ1 : SharedList α) (hst : σ1.stamp = σ.stamp)
    (hlt : p'.stepsLeft σ.level < (σ.phase h).stepsLeft σ.level)
    (hl : p'.leaves = true ∨ p' = .idle) : Nearer σ (σ1.goto h p') h := by
  have hlevel : (σ1.goto h p').level = σ.level := by
    unfold level
    rw [show (σ1.goto h p').stamp = σ.stamp from hst]
  unfold Nearer stepsLeft
  rw [hlevel, goto_phase]
  exact ⟨hlt, hl⟩

/-- The scan begins at the entry before its own. -/
theorem Safe.nearer_unlock (S : Safe σ) (hp : σ.phase h = .unlock z)
    (hs : σ.step (h, .go) = .ok σ') : Nearer σ σ' h := by
  simp only [step, hp] at hs
  obtain ⟨c, hc, hs⟩ := bind_ok hs
  cases hs
  have hc := RcuList.entry_of_deref (mapError_ok hc)
  have hz : (σ.phase h).entry = some z := by rw [hp]; rfl
  obtain ⟨t, ht⟩ := S.pushed hz (by rw [hp]; rfl)
  have hlead := S.leads_own hz (by rw [hp]; rfl) ht hc
  refine nearer_goto _ rfl ?_ (Or.inl (leaves_scanAt ..))
  have := stepsLeft_scanAt ht hlead hlead
  have hleft : (Phase.unlock z).stepsLeft σ.level = 5 * t + 3 := by
    rw [← level_eq ht]
    rfl
  rw [hp, hleft]
  omega

/-- A turn of the scan: the next entry was pushed before this one, or the loop that frees
begins. -/
theorem Safe.nearer_scanNext (S : Safe σ) {cached_next : Option Nat}
    (hp : σ.phase h = .scanNext z cached_next n) (hs : σ.step (h, .go) = .ok σ') :
    Nearer σ σ' h := by
  have hstage := (S.entries.handle h).stage
  simp only [step, hp] at hs
  obtain ⟨c, hc, hs⟩ := bind_ok hs
  cases hs
  have hc := RcuList.entry_of_deref (mapError_ok hc)
  have hz : (σ.phase h).entry = some z := by rw [hp]; rfl
  rw [hp] at hstage
  obtain ⟨t, u, ht, ⟨cz, hcz, rfl⟩, hn, hu, hun⟩ := hstage
  have hown := S.leads_own hz (by rw [hp]; rfl) ht hcz
  have hlead := S.entries.leads hn hc (hun n u hn (Nat.le_refl _) hu)
  refine nearer_goto _ rfl ?_ (Or.inl (leaves_scanAt ..))
  have := stepsLeft_scanAt ht hown hlead
  have hleft : (Phase.scanNext z cz.next n).stepsLeft σ.level = 3 * t + 2 * u + 3 := by
    rw [← level_eq ht, ← level_eq hn.1]
    rfl
  rw [hp, hleft]
  omega

/-- A turn of the loop that frees. -/
theorem Safe.nearer_sweepFree (S : Safe σ) {next : Option Nat}
    (hp : σ.phase h = .sweepFree z n next) (hs : σ.step (h, .go) = .ok σ') : Nearer σ σ' h := by
  have hstage := (S.entries.handle h).stage
  simp only [step, hp] at hs
  obtain ⟨l, _, hs⟩ := bind_ok hs
  cases hs
  rw [hp] at hstage
  obtain ⟨t, _, hun, ⟨u, hn, hu, _⟩, c, hc, rfl⟩ := hstage
  have hlead := S.entries.leads hn hc (hun n u hn (Nat.zero_le _) hu)
  refine nearer_goto { σ with list := l } rfl ?_ (Or.inl (leaves_sweepAt ..))
  have := stepsLeft_sweepAt (z := z) hlead
  have hleft : (Phase.sweepFree z n c.next).stepsLeft σ.level = 3 * u + 3 := by
    rw [← level_eq hn.1]
    rfl
  rw [hp, hleft]
  omega

theorem Safe.nearer (S : Safe σ) (hl : (σ.phase h).leaves = true)
    (hs : σ.step (h, e) = .ok σ') : Nearer σ σ' h := by
  obtain rfl : e = .go := by
    apply go_of_step hs
    cases hp : σ.phase h with
    | idle | lock | active =>
      rw [hp] at hl
      cases hl
    | _ => rfl
  cases hp : σ.phase h with
  | idle | lock | lockMutex | active =>
    rw [hp] at hl
    cases hl
  | unlockMutex z =>
    simp only [step, hp] at hs
    cases hs
    refine nearer_goto { σ with m_write_mutex := none } rfl ?_ (Or.inl rfl)
    simp only [hp, Phase.stepsLeft]
    omega
  | unlock z => exact S.nearer_unlock hp hs
  | scanOwner z cached_next n =>
    simp only [step, hp] at hs
    obtain ⟨c, _, hs⟩ := bind_ok hs
    cases hs
    cases c.owner with
    | true =>
      refine nearer_goto _ rfl ?_ (Or.inl rfl)
      simp only [hp, Phase.stepsLeft, if_true]
      omega
    | false =>
      refine nearer_goto _ rfl ?_ (Or.inl rfl)
      simp only [hp, Phase.stepsLeft, Bool.false_eq_true, if_false]
      omega
  | scanNext z cached_next n => exact S.nearer_scanNext hp hs
  | sweepNode z n =>
    simp only [step, hp] at hs
    obtain ⟨c, _, hs⟩ := bind_ok hs
    obtain ⟨l, _, hs⟩ := bind_ok hs
    cases hs
    refine nearer_goto { σ with list := l } rfl ?_ (Or.inl rfl)
    simp only [hp, Phase.stepsLeft]
    omega
  | sweepNext z n =>
    simp only [step, hp] at hs
    obtain ⟨c, _, hs⟩ := bind_ok hs
    cases hs
    refine nearer_goto _ rfl ?_ (Or.inl rfl)
    simp only [hp, Phase.stepsLeft]
    omega
  | sweepFree z n next => exact S.nearer_sweepFree hp hs
  | cut z =>
    simp only [step, hp] at hs
    obtain ⟨l, _, hs⟩ := bind_ok hs
    cases hs
    refine nearer_goto { σ with list := l } rfl ?_ (Or.inl rfl)
    simp only [hp, Phase.stepsLeft]
    omega
  | clear z =>
    simp only [step, hp] at hs
    obtain ⟨l, _, hs⟩ := bind_ok hs
    cases hs
    refine nearer_goto { σ with list := l } rfl ?_ (Or.inr rfl)
    simp only [hp, Phase.stepsLeft]
    omega

/-- The others do not put the end further away. -/
theorem Safe.stepsLeft_same (S : Safe σ) (hl : (σ.phase h).leaves = true)
    (hph : σ'.phase h = σ.phase h)
    {x : Handle × Event α} (hK : Stacks σ σ' x) : σ'.stepsLeft h = σ.stepsLeft h := by
  have hstage := (S.entries.handle h).stage
  obtain ⟨z, t, hz, ht⟩ := S.levels hl
  have hkeep : ∀ {m v}, σ.stamp m = some v → σ'.level m = σ.level m := by
    intro m v hm
    rw [level_eq hm, level_eq (hK.stamp m v hm)]
  unfold stepsLeft
  rw [hph]
  cases hp : σ.phase h with
  | idle | lock | lockMutex | active =>
    rw [hp] at hl
    cases hl
  | unlockMutex y | unlock y =>
    rw [hp] at hz
    obtain rfl := Option.some.inj hz
    simp only [Phase.stepsLeft, hkeep ht]
  | scanOwner y cached_next n | scanNext y cached_next n =>
    rw [hp] at hz hstage
    obtain rfl := Option.some.inj hz
    obtain ⟨_, u, _, _, hn, _⟩ := hstage
    simp only [Phase.stepsLeft, hkeep ht, hkeep hn.1]
  | sweepNode y n | sweepNext y n =>
    rw [hp] at hstage
    obtain ⟨_, _, _, u, hn, _⟩ := hstage
    simp only [Phase.stepsLeft, hkeep hn.1]
  | sweepFree y n next =>
    rw [hp] at hstage
    obtain ⟨_, _, _, ⟨u, hn, _⟩, _⟩ := hstage
    simp only [Phase.stepsLeft, hkeep hn.1]
  | cut y | clear y => rfl

theorem Safe.stepsLeft_le (S : Safe σ) (hz : (σ.phase h).entry = some z)
    (ht : σ.stamp z = some t) : σ.stepsLeft h ≤ 5 * t + 4 := by
  have hstage := (S.entries.handle h).stage
  unfold stepsLeft
  cases hp : σ.phase h with
  | idle | lock | lockMutex | active => exact Nat.zero_le _
  | unlockMutex y | unlock y =>
    rw [hp] at hz
    obtain rfl := Option.some.inj hz
    simp only [Phase.stepsLeft, level_eq ht]
    omega
  | scanOwner y cached_next n | scanNext y cached_next n =>
    rw [hp] at hz hstage
    obtain rfl := Option.some.inj hz
    obtain ⟨t', u, ht', _, hn, hu, _⟩ := hstage
    obtain rfl := Option.some.inj (ht'.symm.trans ht)
    simp only [Phase.stepsLeft, level_eq ht, level_eq hn.1]
    omega
  | sweepNode y n | sweepNext y n =>
    rw [hp] at hz hstage
    obtain rfl := Option.some.inj hz
    obtain ⟨t', ht', _, u, hn, hu, _⟩ := hstage
    obtain rfl := Option.some.inj (ht'.symm.trans ht)
    simp only [Phase.stepsLeft, level_eq hn.1]
    omega
  | sweepFree y n next =>
    rw [hp] at hz hstage
    obtain rfl := Option.some.inj hz
    obtain ⟨t', ht', _, ⟨u, hn, hu, _⟩, _⟩ := hstage
    obtain rfl := Option.some.inj (ht'.symm.trans ht)
    simp only [Phase.stepsLeft, level_eq hn.1]
    omega
  | cut y | clear y =>
    simp only [Phase.stepsLeft]
    omega

/-- An access is refused only by a fault. -/
theorem fine_access {β : Type} {r : Except Fault β} {k : β → Except Refusal (SharedList α)}
    (hf : Fine (access r >>= k)) (hk : ∀ b, ∃ σ', k b = .ok σ') :
    ∃ σ', (access r >>= k) = .ok σ' := by
  cases r with
  | ok b => exact hk b
  | error u => cases hf

/-- Nobody can hold up a handle on its way out. -/
theorem Safe.can_go (S : Safe σ) (hl : (σ.phase h).leaves = true) :
    ∃ σ', σ.step (h, .go) = .ok σ' := by
  have hf := fine_step S (h, (.go : Event α))
  cases hp : σ.phase h with
  | idle | lock | lockMutex | active =>
    rw [hp] at hl
    cases hl
  | unlockMutex z =>
    simp only [step, hp]
    exact ⟨_, rfl⟩
  | sweepNode z n =>
    simp only [step, hp] at hf ⊢
    cases hc : σ.list.derefZombie n with
    | error u =>
      rw [hc] at hf
      cases hf
    | ok c =>
      rw [hc] at hf
      exact fine_access (r := σ.list.freeZombieNode c) hf fun _ => ⟨_, rfl⟩
  | _ =>
    simp only [step, hp] at hf ⊢
    exact fine_access hf fun _ => ⟨_, rfl⟩

/-- What a step of any handle does to one on its way out. -/
theorem Linked.on_the_way (L : Linked σ) (hl : (σ.phase h).leaves = true) {x : Handle × Event α}
    (hs : σ.step x = .ok σ') : Linked σ' ∧
      σ'.stepsLeft h + (x.1 == h).toNat ≤ σ.stepsLeft h ∧
      ((σ'.phase h).leaves = true ∨ σ'.phase h = .idle) := by
  obtain ⟨h', e⟩ := x
  have W := L.went hs
  refine ⟨L.after hs W, ?_⟩
  by_cases hh : h' = h
  · subst hh
    obtain ⟨hlt, hway⟩ := L.safe.nearer hl hs
    simp only [beq_self_eq_true, Bool.toNat_true]
    exact ⟨hlt, hway⟩
  · have hph := W.others h (Ne.symm hh)
    have hsame := L.safe.stepsLeft_same hl hph (L.safe.stacks hs)
    have hne : (h' == h) = false := beq_false_of_ne hh
    rw [hph]
    exact ⟨by rw [hne, hsame]; exact Nat.le_refl _, Or.inl hl⟩

/-- A handle on its way out is idle at some time, or still on its way. -/
theorem Linked.leaves_run (L : Linked σ) (hl : (σ.phase h).leaves = true)
    (hr : Runs.run step σ bs = .ok σ') :
    (∃ σ1, Through σ bs σ1 ∧ σ1.phase h = .idle) ∨ Linked σ' ∧ (σ'.phase h).leaves = true := by
  induction bs generalizing σ with
  | nil =>
    cases hr
    exact Or.inr ⟨L, hl⟩
  | cons x bs ih =>
    obtain ⟨σ1, hs, hr⟩ := Runs.run_cons.mp hr
    obtain ⟨L1, _, hl1 | hidle⟩ := L.on_the_way hl hs
    · rcases ih L1 hl1 hr with ⟨σ2, hthrough, hidle⟩ | hway
      · exact Or.inl ⟨σ2, hthrough.cons hs, hidle⟩
      · exact Or.inr hway
    · exact Or.inl ⟨σ1, (through_here σ1 bs).cons hs, hidle⟩

/-- A handle that unlocks is idle after as many steps of its own as five times the number
of entries that were pushed before its guard, and four more, allow: however many steps
the others make in between. Until then it can always take its next step. -/
theorem unlock_wait_free {as : List (Handle × Event α)} (h0 : Runs.run step init as = .ok σ)
    (hl : (σ.phase h).leaves = true) (hz : (σ.phase h).entry = some z)
    (ht : σ.stamp z = some t) (h1 : Runs.run step σ bs = .ok σ') :
    (∃ σ1, Through σ bs σ1 ∧ σ1.phase h = .idle) ∨
      (bs.countP fun x => x.1 == h) < 5 * t + 4 ∧ ∃ σ1, σ'.step (h, .go) = .ok σ1 := by
  have L := linked_run h0
  by_cases hidle : ∃ σ1, Through σ bs σ1 ∧ σ1.phase h = .idle
  · exact Or.inl hidle
  · right
    constructor
    · apply Nat.lt_of_not_le
      intro hcount
      have hle := L.safe.stepsLeft_le hz ht
      have hfalls : ∀ σ (x : Handle × Event α) σ',
          Linked σ ∧ ((σ.phase h).leaves = true ∨ σ.phase h = .idle) → 0 < σ.stepsLeft h →
          σ.step x = .ok σ' → (Linked σ' ∧ ((σ'.phase h).leaves = true ∨ σ'.phase h = .idle)) ∧
            σ'.stepsLeft h + (x.1 == h).toNat ≤ σ.stepsLeft h ∧
            (σ'.stepsLeft h = 0 → σ'.phase h = .idle) := by
        rintro σ x σ' ⟨L, _⟩ hpos hs
        obtain ⟨L', hle, hway⟩ := L.on_the_way ((Phase.stepsLeft_pos σ.level).mp hpos) hs
        refine ⟨⟨L', hway⟩, hle, fun hzero => hway.resolve_left fun hl' => ?_⟩
        have := (Phase.stepsLeft_pos σ'.level).mpr hl'
        unfold stepsLeft at hzero
        omega
      obtain ⟨cs, σ1, hcs, hr, hend⟩ := Runs.run_falls hfalls ⟨L, Or.inl hl⟩
        ((Phase.stepsLeft_pos σ.level).mpr hl) h1 (Nat.le_trans hle hcount)
      exact hidle ⟨σ1, ⟨cs, hcs, hr⟩, hend⟩
    · rcases L.leaves_run hl h1 with hgone | ⟨L', hl'⟩
      · exact absurd hgone hidle
      · exact L'.safe.can_go hl'

/-- The only guard is about to be unlocked. -/
def lastOut : List (Handle × Event Nat) :=
  [(0, .lock false), (0, .go), (0, .go), (0, .swap true), (0, .unlock)]

/-- The handle unlocks and is locked again, while another one begins to lock. -/
def outAndIn : List (Handle × Event Nat) :=
  [(0, .go), (1, .lock false), (0, .go), (1, .go), (0, .go), (0, .lock true)]

theorem lastOut_run : Runs.run step init lastOut = .ok (Runs.reached step init lastOut) :=
  Runs.run_reached (by decide +kernel)

theorem outAndIn_run : Runs.run step (Runs.reached step init lastOut) outAndIn =
    .ok (Runs.reached step (Runs.reached step init lastOut) outAndIn) :=
  Runs.run_reached (by decide +kernel)

theorem unlock_wait_free_outAndIn :
    ∃ σ1, Through (Runs.reached step init lastOut) outAndIn σ1 ∧ σ1.phase 0 = .idle := by
  have hp : (Runs.reached step init lastOut).phase 0 = .unlock 0 := rfl
  have h := unlock_wait_free lastOut_run (h := 0) (z := 0) (t := 0) (by rw [hp]; rfl)
    (by rw [hp]; rfl) (by decide +kernel) outAndIn_run
  exact h.resolve_right fun hcount => absurd hcount.1 (by decide)

/-! ## Attempts to push -/

/-- How the compare-exchange of a handle went. One that failed although it could have
succeeded counts for nothing. -/
def attempt (σ : SharedList α) (x : Handle × Event α) : Option (Handle × Bool) :=
  match (σ.phase x.1).pushStage, x.2 with
  | some (.cas _), .swap true => some (x.1, true)
  | some (.cas oldNext), .swap false => if σ.CanSwap oldNext then none else some (x.1, false)
  | _, _ => none

/-- Is the top of the stack another one than the handle will compare with? -/
def overtaken (σ : SharedList α) (h : Handle) : Bool :=
  match (σ.phase h).pushStage with
  | some (.store oldNext) | some (.cas oldNext) => σ.list.zombieHead != oldNext
  | _ => false

/-- The handle that pushes an entry makes the next step of the push. -/
theorem step_push {stage : PushStage} (hp : (σ.phase h).pushStage = some stage)
    (hs : σ.step (h, e) = .ok σ') : ∃ z σ1 next, σ.pushEntry z stage e = .ok (σ1, next) ∧
      (σ'.phase h).pushStage = next ∧ σ'.list.zombieHead = σ1.list.zombieHead := by
  cases hph : σ.phase h with
  | lock write z stage' =>
    rw [hph] at hp
    cases hp
    simp only [step, hph] at hs
    obtain ⟨⟨σ1, next⟩, hpush, hs⟩ := bind_ok hs
    refine ⟨z, σ1, next, hpush, ?_⟩
    cases next with
    | some next =>
      cases hs
      exact ⟨by rw [goto_phase]; rfl, rfl⟩
    | none =>
      cases hs
      exact ⟨by rw [goto_phase]; cases write <;> rfl, rfl⟩
  | active write z iter job =>
    rw [hph] at hp
    cases job with
    | eraseLink current assign oldNext w stage' =>
      cases hp
      have hs' : σ.jobStep h z iter (.eraseLink current assign oldNext w stage) e = .ok σ' := by
        simpa only [step, hph] using hs
      rw [jobStep_eraseLink] at hs'
      obtain ⟨⟨σ1, next⟩, hpush, hs'⟩ := bind_ok hs'
      refine ⟨w, σ1, next, hpush, ?_⟩
      cases next with
      | some next =>
        cases hs'
        exact ⟨by rw [goto_phase]; rfl, rfl⟩
      | none =>
        cases hs'
        exact ⟨by rw [goto_phase]; rfl, rfl⟩
    | _ => cases hp
  | _ =>
    rw [hph] at hp
    cases hp

/-- Who makes a swap pushes an entry. -/
theorem pushes_of_swap {b : Bool} (hs : σ.step (h, .swap b) = .ok σ') :
    ∃ stage, (σ.phase h).pushStage = some stage := by
  cases hp : σ.phase h with
  | lock write z stage => exact ⟨stage, rfl⟩
  | active write z iter job =>
    cases job with
    | eraseLink current assign oldNext w stage => exact ⟨stage, rfl⟩
    | _ =>
      simp only [step, hp] at hs
      cases hs
  | _ =>
    simp only [step, hp] at hs
    cases hs

/-- A swap that succeeds is one of a push. -/
theorem attempt_swap (hs : σ.step (h, .swap true) = .ok σ') :
    σ.attempt (h, .swap true) = some (h, true) := by
  obtain ⟨stage, hp⟩ := pushes_of_swap hs
  obtain ⟨z, σ1, next, hpush, _⟩ := step_push hp hs
  cases stage with
  | cas oldNext => simp only [attempt, hp]
  | load | store => cases hpush

/-- The step of a push in progress, as its handle sees it. -/
theorem overtaken_push {stage : PushStage} {next : Option PushStage}
    (hp : (σ.phase h).pushStage = some stage) (hs : σ.pushEntry z stage e = .ok (σ1, next))
    (hp' : (σ'.phase h).pushStage = next) (hh : σ'.list.zombieHead = σ1.list.zombieHead) :
    (σ.attempt (h, e)).toList.count (h, false) + (σ'.overtaken h).toNat ≤
      (σ.overtaken h).toNat := by
  unfold pushEntry at hs
  split at hs
  · cases hs
    simp [attempt, overtaken, hp, hp', hh]
  · obtain ⟨l, hl, hs⟩ := bind_ok hs
    have hhead := RcuList.head_writeZombie (mapError_ok hl)
    cases hs
    simp [attempt, overtaken, hp, hp', hh, hhead]
  · split at hs
    · obtain ⟨l, hl, hs⟩ := bind_ok hs
      cases hs
      simp [attempt, overtaken, hp, hp']
    · cases hs
  · rename_i oldNext
    cases hs
    -- it can not succeed, so there is another entry on top
    by_cases hcan : σ.CanSwap oldNext
    · simp [attempt, overtaken, hp, hp', hh, hcan]
    · have hne : (σ.list.zombieHead != oldNext) = true :=
        bne_iff_ne.mpr fun heq => hcan (Or.inl heq)
      simp [attempt, overtaken, hp, hp', hh, hcan, hne]
  · cases hs

/-- A step pays for the compare-exchanges of the handle that could not succeed. -/
theorem Linked.attempt_paid (L : Linked σ) {x : Handle × Event α} (hs : σ.step x = .ok σ') :
    (σ.attempt x).toList.count (h, false) + (σ'.overtaken h).toNat ≤
      (σ.overtaken h).toNat + (σ.attempt x).toList.countP fun m => m.1 != h && m.2 := by
  obtain ⟨h', e⟩ := x
  have hK := L.safe.stacks hs
  by_cases hh : h' = h
  · subst hh
    cases hp : (σ.phase h').pushStage with
    | none =>
      have hcalm : σ'.overtaken h' = false := by
        unfold overtaken
        rcases hK.starts hp with hp' | hp'
        · rw [hp']
        · rw [hp']
      simp [attempt, hp, hcalm]
    | some stage =>
      obtain ⟨z, σ1, next, hpush, hp', hhead⟩ := step_push hp hs
      exact Nat.le_trans (overtaken_push hp hpush hp' hhead) (Nat.le_add_right _ _)
  · have hph := (L.went hs).others h (Ne.symm hh)
    have hnot : (σ.attempt (h', e)).toList.count (h, false) = 0 := by
      unfold attempt
      split
      · simp
      · split
        · rfl
        · simp [hh]
      · rfl
    rcases hK.head with hhead | rfl
    · have hsame : σ'.overtaken h = σ.overtaken h := by
        unfold overtaken
        rw [hph, hhead]
      rw [hnot, hsame, Nat.zero_add]
      exact Nat.le_add_right _ _
    · rw [hnot, attempt_swap hs]
      have := Bool.toNat_le (σ'.overtaken h)
      simp [hh]
      omega

/-- A push is held up by other pushes only: for each compare-exchange of a handle that
could not succeed there is a push of another handle, and one push accounts for one. -/
theorem push_lock_free {as : List (Handle × Event α)} (h : Handle)
    (hr : Runs.run step init as = .ok σ) :
    (Runs.marks step attempt init as).count (h, false) ≤
      (Runs.marks step attempt init as).countP fun m => m.1 != h && m.2 := by
  have hpaid : ∀ σ (x : Handle × Event α) σ', Linked σ → σ.step x = .ok σ' → Linked σ' ∧
      (σ.attempt x).toList.countP (· == (h, false)) + (σ'.overtaken h).toNat ≤
        (σ.overtaken h).toNat + (σ.attempt x).toList.countP fun m => m.1 != h && m.2 :=
    fun σ x σ' L hs => ⟨L.after hs (L.went hs), L.attempt_paid hs⟩
  exact Nat.le_trans (Nat.le_add_right _ _)
    (Nat.le_trans (Runs.marks_le hpaid linked_init hr) (Nat.le_of_eq (Nat.zero_add _)))

/-- Another handle pushes its entry between the load and the swap of the first one. -/
def outrun : List (Handle × Event Nat) :=
  [(0, .lock false), (1, .lock true), (0, .go), (0, .go), (1, .go), (1, .go), (1, .swap true),
    (0, .swap false)]

theorem outrun_run : Runs.run step init outrun = .ok (Runs.reached step init outrun) :=
  Runs.run_reached (by decide +kernel)

theorem push_lock_free_outrun :
    0 < (Runs.marks step attempt init outrun).countP fun m => m.1 != 0 && m.2 := by
  have hfailed : (Runs.marks step attempt init outrun).count (0, false) = 1 := by
    decide +kernel
  have h := push_lock_free 0 outrun_run
  rw [hfailed] at h
  exact h

end SharedList

end CsSignal
