-- No step on a shared list uses what was freed, or frees it again. Every step keeps
-- the mutex, the zombie stack and the nodes as the three invariants say, and what
-- a guard stands on or can walk to is there.
import CsSignal.Lib.Runs
import CsSignal.SharedNodes

namespace CsSignal

open LinkedCells

namespace SharedList

variable {α : Type} {σ σ' σ1 : SharedList α} {h : Handle} {p p' : Phase} {z : Nat}
  {xs xs' : List (Nat × α)}

structure Safe (σ : SharedList α) : Prop where
  exclusive : Exclusive σ
  entries : Entries σ
  nodes : ∃ xs, Nodes σ xs

theorem safe_init : Safe (init : SharedList α) := ⟨exclusive_init, entries_init, [], nodes_init⟩

/-- The step is refused, or it leads to a state that is safe; it never meets a fault. -/
def Fine : Except Refusal (SharedList α) → Prop
  | .ok σ' => Safe σ'
  | .error u => u = .illegal

/-! ## The call that changes the list -/

theorem Exclusive.writing_eq (E : Exclusive σ) (hh : (σ.phase h).holds = true) :
    σ.writing = (σ.phase h).job := by
  unfold writing
  rw [(E.holder h).mp hh]

theorem writing_goto (hm : σ1.m_write_mutex = σ.m_write_mutex) (hph : σ1.phase = σ.phase)
    (hj : p'.job = (σ.phase h).job) : (σ1.goto h p').writing = σ.writing := by
  unfold writing
  rw [show (σ1.goto h p').m_write_mutex = σ.m_write_mutex from hm]
  cases σ.m_write_mutex with
  | none => rfl
  | some h' =>
    by_cases hne : h' = h
    · subst hne
      simp only [goto, Function.update_self, hj]
    · simp only [goto, Function.update_of_ne hne, hph]

/-- A handle goes on that has no call in progress. -/
theorem Nodes.chain_goto (N : Nodes σ xs) (hl : σ1.list.toNodeList = σ.list.toNodeList)
    (hr : σ1.retired = σ.retired) (hm : σ1.m_write_mutex = σ.m_write_mutex)
    (hph : σ1.phase = σ.phase) (hj : p'.job = (σ.phase h).job) :
    (σ1.goto h p').list.toNodeList.Chain (σ1.goto h p').retired (σ1.goto h p').writing xs := by
  rw [writing_goto hm hph hj]
  show σ1.list.toNodeList.Chain σ1.retired σ.writing xs
  rw [hl, hr]
  exact N.chain

theorem writing_holder (hm : σ1.m_write_mutex = some h) : (σ1.goto h p').writing = p'.job := by
  unfold writing
  rw [show (σ1.goto h p').m_write_mutex = some h from hm]
  simp only [goto, Function.update_self]

theorem others_goto_of (hph : σ1.phase = σ.phase) : Others σ (σ1.goto h p') h :=
  fun h' hne => by rw [others_goto σ1 h p' h' hne, hph]

theorem goto_phase : (σ1.goto h p').phase h = p' := Function.update_self _ _ _

theorem goto_other {h' : Handle} (hne : h' ≠ h) : (σ1.goto h p').phase h' = σ1.phase h' :=
  Function.update_of_ne hne _ _

theorem Exclusive.goto (E : Exclusive σ) (hph : σ1.phase = σ.phase)
    (hm : σ1.m_write_mutex = σ.m_write_mutex) (hh : p'.holds = (σ.phase h).holds)
    (hj : p'.job ≠ .none → p'.holds = true) : Exclusive (σ1.goto h p') := by
  refine E.step (others_goto_of hph) hm ?_ ?_
  · rw [goto_phase, hh]
  · rw [goto_phase]
    exact hj

/-! ## The steps that leave the stack alone -/

/-- A handle goes on and keeps its entry, and frees nothing by it. -/
structure Calm (p p' : Phase) (z : Nat) : Prop where
  entry : p.entry = some z
  entry' : p'.entry = some z
  pushed : p'.pushed = p.pushed
  newZombie : p'.newZombie = none ∨ p'.newZombie = p.newZombie
  sweeps : p.sweeps = none ∨ p'.sweeps = p.sweeps
  swept : p'.swept = p.swept

theorem Calm.sweeps_some {y : Nat} (K : Calm p p' z) (hy : p.sweeps = some y) :
    p'.sweeps = some y := by
  rcases K.sweeps with hs | hs
  · rw [hs] at hy
    cases hy
  · rw [hs, hy]

theorem Safe.move (S : Safe σ) (hp : σ.phase h = p) (K : Calm p p' z) (hph : σ1.phase = σ.phase)
    (hss : SameStack σ σ1) (hr : σ1.retired = σ.retired) (hS : σ.Stage p')
    (hX : Exclusive (σ1.goto h p')) (N : Nodes σ xs)
    (hG : σ.list.toNodeList.Grows σ1.list.toNodeList σ.retired)
    (hC : σ1.list.toNodeList.Chain σ.retired (σ1.goto h p').writing xs')
    (hh : ∀ n, p'.Stands n → σ.Guards z n) : Safe (σ1.goto h p') := by
  have hoth : Others σ (σ1.goto h p') h := others_goto_of hph
  have hphase : (σ1.goto h p').phase h = p' := goto_phase
  have hss' : SameStack σ (σ1.goto h p') := ⟨hss.1, hss.2, hss.3, hss.4, hss.5⟩
  refine ⟨hX, S.entries.quiet hss' hoth hp hphase K.entry K.entry' K.pushed K.newZombie K.sweeps hS,
    xs', N.onward (h := h) ⟨hr, by rw [hss'.pushes], by rw [hss'.stamp]; exact fun _ _ => id,
      fun e t n => ?_, swept_others hoth hphase (by rw [hp, K.swept]), fun n _ => ?_, hG⟩ hoth ?_ ?_⟩
  · unfold Retires
    rw [hss'.stamp, hss'.zombie]
  · exact doomed_of (sweeps_others hoth hphase fun y hy => K.sweeps_some (hp ▸ hy))
      (by rw [hss'.stamp]; exact fun _ _ => id)
      (by rw [show (σ1.goto h p').retired = σ.retired from hr]; exact fun _ => id)
  · rw [show (σ1.goto h p').retired = σ.retired from hr]
    exact hC
  · intro y n hy hn
    rw [hphase] at hy hn
    rw [K.entry', Option.some.injEq] at hy
    exact hy ▸ hh n hn

/-- A step that only reads. -/
theorem Safe.goto (S : Safe σ) (hp : σ.phase h = p) (K : Calm p p' z) (hS : σ.Stage p')
    (hhold : p'.holds = p.holds) (hj : p.job = .none) (hj' : p'.job = .none)
    (hh : ∀ xs, Nodes σ xs → ∀ n, p'.Stands n → σ.Guards z n) : Safe (σ.goto h p') := by
  obtain ⟨xs, N⟩ := S.nodes
  have hC : σ.list.toNodeList.Chain σ.retired (σ.goto h p').writing xs :=
    N.chain_goto rfl rfl rfl rfl (by rw [hp, hj, hj'])
  exact S.move hp K rfl ⟨rfl, rfl, rfl, rfl, rfl⟩ rfl hS
    (S.exclusive.goto rfl rfl (by rw [hp, hhold]) fun h => absurd hj' h) N
    (NodeList.grows_refl _ _) hC (hh xs N)

theorem stands_none {b : Bool} {n : Nat} (hn : Phase.Stands (.active b z none .none) n) :
    σ.Guards z n := by
  rcases hn with hn | hn <;> cases hn

/-! ## A guard is made -/

theorem PushStep.onward {c : ZombieListNode} {stage : Option PushStage} (P : PushStep σ σ1 z c stage)
    (hs : σ.stamp z = none) (hn : stage = none → c.zombieNode = none)
    (hsw : p'.swept = (σ.phase h).swept)
    (hsweep : ∀ y, (σ.phase h).sweeps = some y → p'.sweeps = some y) :
    Onward σ (σ1.goto h p') := by
  have hoth : Others σ (σ1.goto h p') h := others_goto_of P.phase
  have hstamp : ∀ e t, σ.stamp e = some t → (σ1.goto h p').stamp e = some t :=
    fun e t he => P.touch.stamp_of he
  have hr : (σ1.goto h p').retired = σ.retired := P.retired
  refine ⟨hr, ?_, hstamp, ?_, swept_others hoth goto_phase hsw, fun n _ => ?_, ?_⟩
  · show σ.pushes ≤ σ1.pushes
    rw [P.touch.pushes]
    split <;> omega
  · refine retires_congr P.touch.zombie P.touch.stamp (not_retires_unpushed hs) fun t n => ?_
    obtain ⟨nx, hcell, _⟩ := P.cell
    cases stage with
    | some st => exact not_retires_unpushed (P.touch.stamped.trans hs) t n
    | none => exact not_retires hcell (hn rfl) t n
  · exact doomed_of (sweeps_others hoth goto_phase hsweep) hstamp (by rw [hr]; exact fun _ => id)
  · show σ.list.toNodeList.Grows σ1.list.toNodeList σ.retired
    rw [P.nodes]
    exact NodeList.grows_refl _ _

theorem Safe.lock (S : Safe σ) {write : Bool} (hp : σ.phase h = .idle) :
    Safe ((σ.allocZombie true none).goto h (.lock write σ.list.zombieCount .load)) := by
  obtain ⟨xs, N⟩ := S.nodes
  have hf := S.entries.bound _ (Nat.le_refl _)
  have hoth : Others σ ((σ.allocZombie true none).goto h (.lock write σ.list.zombieCount .load)) h :=
    others_goto_of rfl
  refine ⟨S.exclusive.goto rfl rfl (by rw [hp]; rfl) fun hj => absurd rfl hj,
    S.entries.allocGuard hp, xs, N.onward ⟨rfl, Nat.le_refl _, fun _ _ => id, ?_, ?_, fun n _ => ?_,
      NodeList.grows_refl _ _⟩ hoth ?_ ?_⟩
  · refine retires_congr (w := σ.list.zombieCount) (fun e hne => Function.update_of_ne hne _ _)
      (fun _ _ => rfl) (not_retires_unpushed hf.2) (not_retires_unpushed ?_)
    exact hf.2
  · exact swept_others hoth goto_phase (by rw [hp]; rfl)
  · exact doomed_of (sweeps_others hoth goto_phase fun y hy => by rw [hp] at hy; cases hy)
      (fun _ _ => id) fun _ => id
  · exact N.chain_goto rfl rfl rfl rfl (by rw [hp]; rfl)
  · intro y n _ hn
    rw [goto_phase] at hn
    cases hn

theorem fine_lock (S : Safe σ) {write : Bool} {stage : PushStage} {e : Event α}
    (hp : σ.phase h = .lock write z stage) : Fine (σ.lockStep h write z stage e) := by
  obtain ⟨xs, N⟩ := S.nodes
  have hz : (σ.phase h).entry = some z := by rw [hp]; rfl
  obtain ⟨c, hc, ho, hn, hst⟩ := (S.entries.handle h).own z hz
  have hs : σ.stamp z = none := by
    rw [hp] at hst
    simpa [Phase.pushed] using hst
  rcases S.entries.pushStep hc hs stage e with hrun | ⟨σ1, stage', hrun, P⟩
  · simp only [lockStep, hrun, error_bind, Fine]
  · have hkeep : ∀ p' : Phase, p'.entry = some z → p'.newZombie = none →
        p'.pushed = stage'.isNone → (∀ σ : SharedList α, σ.Stage p') → p'.holds = false →
        p'.job = .none → p'.swept = none → (∀ n, p'.Stands n → False) → Safe (σ1.goto h p') := by
      intro p' hz' hnew hpushed hS hhold hj hsw hstand
      refine ⟨S.exclusive.goto P.phase P.mutex (by rw [hp, hhold]; rfl) fun h => absurd hj h,
        S.entries.lockPush hp hc P hz' hnew hpushed hS, xs,
        N.onward (P.onward hs (fun _ => hn) (by rw [hp, hsw]; rfl) fun y hy => ?_)
          (others_goto_of P.phase) ?_ fun y n _ hn => ?_⟩
      · rw [hp] at hy
        cases hy
      · exact N.chain_goto P.nodes P.retired P.mutex P.phase (by rw [hp, hj]; rfl)
      · rw [goto_phase] at hn
        exact absurd hn (hstand n)
    simp only [lockStep, hrun, ok_bind]
    cases stage' with
    | some st =>
      exact hkeep _ rfl rfl rfl (fun _ => trivial) rfl rfl rfl fun _ hn => hn
    | none =>
      cases write with
      | true => exact hkeep _ rfl rfl rfl (fun _ => trivial) rfl rfl rfl fun _ hn => hn
      | false =>
        refine hkeep _ rfl rfl rfl (fun _ => trivial) rfl rfl rfl fun n hn => ?_
        rcases hn with hn | hn <;> cases hn

/-! ## The mutex -/

theorem Safe.lockMutex (S : Safe σ) (hp : σ.phase h = .lockMutex z)
    (hm : σ.m_write_mutex = none) :
    Safe ({ σ with m_write_mutex := some h }.goto h (.active true z none .none)) := by
  obtain ⟨xs, N⟩ := S.nodes
  have hfree : ∀ h', (σ.phase h').holds = false := by
    intro h'
    rw [← Bool.not_eq_true]
    intro hh
    rw [(S.exclusive.holder h').mp hh] at hm
    cases hm
  have hC : σ.list.toNodeList.Chain σ.retired
      ({ σ with m_write_mutex := some h }.goto h (.active true z none .none)).writing xs := by
    have hw : σ.writing = .none := by
      unfold writing
      rw [hm]
    rw [writing_holder rfl]
    exact hw ▸ N.chain
  refine S.move hp ⟨rfl, rfl, rfl, Or.inl rfl, Or.inl rfl, rfl⟩ rfl ⟨rfl, rfl, rfl, rfl, rfl⟩ rfl
    trivial ⟨fun h' => ?_, fun h' => ?_⟩ N (NodeList.grows_refl _ _) hC fun n hn => stands_none hn
  · by_cases hne : h' = h
    · subst hne
      rw [goto_phase]
      exact ⟨fun _ => rfl, fun _ => rfl⟩
    · simp only [goto_other hne, hfree h']
      refine ⟨fun hh => (by cases hh), fun hh => ?_⟩
      exact absurd (Option.some.inj hh).symm hne
  · by_cases hne : h' = h
    · subst hne
      rw [goto_phase]
      exact fun _ => rfl
    · simp only [goto_other hne]
      exact S.exclusive.writer h'

theorem Safe.unlockMutex (S : Safe σ) (hp : σ.phase h = .unlockMutex z) :
    Safe ({ σ with m_write_mutex := none }.goto h (.unlock z)) := by
  obtain ⟨xs, N⟩ := S.nodes
  have hh : (σ.phase h).holds = true := by rw [hp]; rfl
  have hm := (S.exclusive.holder h).mp hh
  have hfree : ∀ h', h' ≠ h → (σ.phase h').holds = false := by
    intro h' hne
    rw [← Bool.not_eq_true]
    intro hh'
    rw [(S.exclusive.holder h').mp hh', Option.some.injEq] at hm
    exact hne hm
  have hC : σ.list.toNodeList.Chain σ.retired
      ({ σ with m_write_mutex := none }.goto h (.unlock z)).writing xs := by
    have hw := N.chain
    rw [S.exclusive.writing_eq hh, hp] at hw
    exact hw
  refine S.move hp ⟨rfl, rfl, rfl, Or.inl rfl, Or.inl rfl, rfl⟩ rfl ⟨rfl, rfl, rfl, rfl, rfl⟩ rfl
    trivial ⟨fun h' => ?_, fun h' => ?_⟩ N (NodeList.grows_refl _ _) hC fun n hn => by cases hn
  · by_cases hne : h' = h
    · subst hne
      rw [goto_phase]
      exact ⟨fun hx => (by cases hx), fun hx => (by cases hx)⟩
    · simp only [goto_other hne, hfree h' hne]
      exact ⟨fun hx => (by cases hx), fun hx => (by cases hx)⟩
  · by_cases hne : h' = h
    · subst hne
      rw [goto_phase]
      exact fun hx => absurd rfl hx
    · simp only [goto_other hne]
      exact S.exclusive.writer h'

/-! ## A guard goes -/

theorem derefZombie_ok {e : Nat} {c : ZombieListNode} (hc : σ.list.zombie e = some c) :
    access (σ.list.derefZombie e) = .ok c := by
  simp only [RcuList.derefZombie, hc, access, Except.mapError]

theorem writeZombie_ok {e : Nat} {c : ZombieListNode} (f : ZombieListNode → ZombieListNode)
    (hc : σ.list.zombie e = some c) : access (σ.list.writeZombie e f) =
      .ok { σ.list with zombie := Function.update σ.list.zombie e (some (f c)) } := by
  simp only [RcuList.writeZombie, hc, access, Except.mapError]

theorem Safe.own (S : Safe σ) (hz : (σ.phase h).entry = some z) :
    ∃ c, σ.list.zombie z = some c ∧ c.zombieNode = none := by
  obtain ⟨c, hc, _, hn, _⟩ := (S.entries.handle h).own z hz
  exact ⟨c, hc, hn⟩

theorem placed_cell {e t : Nat} (he : σ.Placed e t) : ∃ c, σ.list.zombie e = some c :=
  Option.isSome_iff_exists.mp he.2

theorem calm_sweepAt (hz : p.entry = some z) (hp : p.pushed = true) (hs : p.sweeps = none)
    (hw : p.swept = none) (next : Option Nat) : Calm p (sweepAt z next) z := by
  cases next with
  | none => exact ⟨hz, rfl, hp.symm, Or.inl rfl, Or.inl hs, hw.symm⟩
  | some n => exact ⟨hz, rfl, hp.symm, Or.inl rfl, Or.inl hs, hw.symm⟩

theorem calm_scanAt (hz : p.entry = some z) (hp : p.pushed = true) (hs : p.sweeps = none)
    (hw : p.swept = none) (cached_next next : Option Nat) :
    Calm p (scanAt z cached_next next) z := by
  cases next with
  | none => exact calm_sweepAt hz hp hs hw cached_next
  | some n => exact ⟨hz, rfl, hp.symm, Or.inl rfl, Or.inl hs, hw.symm⟩

theorem scanAt_quiet (z : Nat) (cached_next next : Option Nat) :
    (scanAt z cached_next next).holds = false ∧ (scanAt z cached_next next).job = .none ∧
      ∀ n, ¬ (scanAt z cached_next next).Stands n := by
  cases next with
  | some n => exact ⟨rfl, rfl, fun _ => id⟩
  | none => cases cached_next <;> exact ⟨rfl, rfl, fun _ => id⟩

theorem fine_unlock (S : Safe σ) (hp : σ.phase h = .unlock z) : Fine (σ.step (h, .go)) := by
  obtain ⟨c, hc, _⟩ := S.own (h := h) (z := z) (by rw [hp]; rfl)
  obtain ⟨hhold, hj, hst⟩ := scanAt_quiet z c.next c.next
  simp only [step, hp, derefZombie_ok hc, ok_bind]
  exact S.goto hp (calm_scanAt rfl rfl rfl rfl _ _) (S.entries.stage_unlock hp hc) hhold rfl hj
    fun _ _ n hn => absurd hn (hst n)

theorem fine_scanOwner {cached_next : Option Nat} {n : Nat} (S : Safe σ)
    (hp : σ.phase h = .scanOwner z cached_next n) : Fine (σ.step (h, .go)) := by
  have hst : σ.Stage (.scanOwner z cached_next n) := hp ▸ (S.entries.handle h).stage
  obtain ⟨_, _, _, _, hpl, _⟩ := hst
  obtain ⟨c, hc⟩ := placed_cell hpl
  simp only [step, hp, derefZombie_ok hc, ok_bind]
  cases ho : c.owner with
  | true =>
    exact S.goto hp ⟨rfl, rfl, rfl, Or.inl rfl, Or.inl rfl, rfl⟩ trivial rfl rfl rfl
      fun _ _ _ hn => by cases hn
  | false =>
    exact S.goto hp ⟨rfl, rfl, rfl, Or.inl rfl, Or.inl rfl, rfl⟩
      (stage_owner S.entries.inj (hp ▸ (S.entries.handle h).stage) hc ho) rfl rfl rfl
      fun _ _ _ hn => by cases hn

theorem fine_scanNext {cached_next : Option Nat} {n : Nat} (S : Safe σ)
    (hp : σ.phase h = .scanNext z cached_next n) : Fine (σ.step (h, .go)) := by
  have hst : σ.Stage (.scanNext z cached_next n) := hp ▸ (S.entries.handle h).stage
  obtain ⟨_, _, _, _, hpl, _⟩ := hst
  obtain ⟨c, hc⟩ := placed_cell hpl
  obtain ⟨hhold, hj, hst⟩ := scanAt_quiet z cached_next c.next
  simp only [step, hp, derefZombie_ok hc, ok_bind]
  exact S.goto hp (calm_scanAt rfl rfl rfl rfl _ _) (S.entries.stage_next hp hc) hhold rfl hj
    fun _ _ n hn => absurd hn (hst n)

theorem fine_sweepNode {n : Nat} (S : Safe σ) (hp : σ.phase h = .sweepNode z n) :
    Fine (σ.step (h, .go)) := by
  obtain ⟨xs, N⟩ := S.nodes
  obtain ⟨t, ht, hu, hl⟩ : σ.Stage (.sweepNode z n) := hp ▸ (S.entries.handle h).stage
  obtain ⟨u, hpl, hlt, hmax⟩ := hl
  obtain ⟨c, hc⟩ := placed_cell hpl
  have key : ∀ σ1 : SharedList α, σ1.phase = σ.phase → σ1.m_write_mutex = σ.m_write_mutex →
      SameStack σ σ1 → NodeFreed σ σ1 c.zombieNode →
      σ1.list.toNodeList.Chain σ.retired σ.writing xs → Safe (σ1.goto h (.sweepNext z n)) := by
    intro σ1 hph hm T F hC
    refine ⟨S.exclusive.goto hph hm (by rw [hp]; rfl) fun hj => absurd rfl hj,
      S.entries.quiet ⟨T.1, T.2, T.3, T.4, T.5⟩ (others_goto_of hph) hp goto_phase rfl rfl rfl
        (Or.inl rfl) (Or.inr rfl) ⟨t, ht, hu, u, hpl, hlt, hmax⟩, xs, ?_⟩
    refine N.freeNode S.entries hp hc ⟨F.1, F.2, F.3, F.4, F.5, F.6⟩ (others_goto_of hph)
      goto_phase ?_
    rw [writing_goto hm hph (by rw [hp]; rfl),
      show (σ1.goto h (.sweepNext z n)).retired = σ.retired from F.retired]
    exact hC
  simp only [step, hp, derefZombie_ok hc, ok_bind]
  cases hd : c.zombieNode with
  | none =>
    simp only [RcuList.freeZombieNode, hd, access, Except.mapError, ok_bind]
    refine key σ rfl rfl ⟨rfl, rfl, rfl, rfl, rfl⟩ ⟨fun _ _ => rfl, fun m hm => ?_, rfl, rfl, rfl, rfl⟩
      N.chain
    rw [hd] at hm
    cases hm
  | some d =>
    obtain ⟨hthere, t', u', ht', _, hr, hlt'⟩ := N.sweep_there S.entries hp hc hd
    obtain ⟨cd, hcd⟩ := Option.isSome_iff_exists.mp hthere
    have hdoom : σ.Doomed d := ⟨h, z, t', u', by rw [hp]; rfl, ht', hr, hlt'⟩
    simp only [RcuList.freeZombieNode, hd, RcuList.freeNode, hcd, access, Except.mapError, ok_bind]
    refine key { σ with list := { σ.list with node := Function.update σ.list.node d none } }
      rfl rfl ⟨rfl, rfl, rfl, rfl, rfl⟩ ⟨fun m hm => ?_, fun m hm => ?_, rfl, rfl, rfl, rfl⟩
      (N.chain.free (by rw [hr]; rfl) (N.asked_ne S.entries hdoom))
    · refine Function.update_of_ne ?_ _ _
      rintro rfl
      exact hm hd
    · rw [hd, Option.some.injEq] at hm
      rw [← hm]
      exact Function.update_self _ _ _

theorem fine_sweepNext {n : Nat} (S : Safe σ) (hp : σ.phase h = .sweepNext z n) :
    Fine (σ.step (h, .go)) := by
  have hst : σ.Stage (.sweepNext z n) := hp ▸ (S.entries.handle h).stage
  obtain ⟨_, _, _, u, hpl, _⟩ := hst
  obtain ⟨c, hc⟩ := placed_cell hpl
  simp only [step, hp, derefZombie_ok hc, ok_bind]
  exact S.goto hp ⟨rfl, rfl, rfl, Or.inl rfl, Or.inr rfl, rfl⟩
    (stage_free (hp ▸ (S.entries.handle h).stage) hc) rfl rfl rfl fun _ _ _ hn => by cases hn

theorem fine_sweepFree {n : Nat} {next : Option Nat} (S : Safe σ)
    (hp : σ.phase h = .sweepFree z n next) : Fine (σ.step (h, .go)) := by
  obtain ⟨xs, N⟩ := S.nodes
  have hst : σ.Stage (.sweepFree z n next) := hp ▸ (S.entries.handle h).stage
  obtain ⟨_, _, _, ⟨u, hpl, _⟩, _⟩ := hst
  obtain ⟨c, hc⟩ := placed_cell hpl
  simp only [step, hp, RcuList.freeZombie, hc, access, Except.mapError, ok_bind]
  have hquiet : (sweepAt z next).holds = false ∧ (sweepAt z next).job = .none := by
    cases next <;> exact ⟨rfl, rfl⟩
  refine ⟨S.exclusive.goto rfl rfl ?_ fun hj => absurd hquiet.2 hj,
    S.entries.free hp ⟨rfl, rfl, rfl, rfl, rfl⟩ (others_goto_of rfl) goto_phase, xs,
    N.freeEntry hp ⟨rfl, rfl, rfl, rfl, rfl⟩ (others_goto_of rfl) goto_phase rfl ?_ rfl⟩
  · rw [hp, hquiet.1]
    rfl
  · refine writing_goto rfl rfl ?_
    rw [hp, hquiet.2]
    rfl

/-- A store to the entry of a guard, which is that of no node. -/
theorem onward_entry {c c' : ZombieListNode} (hp' : σ'.phase h = p') (ho : Others σ σ' h)
    (hc : σ.list.zombie z = some c) (hn : c.zombieNode = none) (hn' : c'.zombieNode = none)
    (hl : σ'.list = { σ.list with zombie := Function.update σ.list.zombie z (some c') })
    (hst : σ'.stamp = σ.stamp) (hr : σ'.retired = σ.retired) (hpush : σ'.pushes = σ.pushes)
    (hsw : p'.swept = (σ.phase h).swept)
    (hd : ∀ n, (σ.list.node n).isSome = true → σ.Doomed n → σ'.Doomed n) : Onward σ σ' := by
  refine ⟨hr, by rw [hpush], by rw [hst]; exact fun _ _ => id, ?_, swept_others ho hp' hsw, hd, ?_⟩
  · refine retires_congr (w := z) (fun e hne => ?_) (by rw [hst]; exact fun _ _ => rfl)
      (not_retires hc hn) (not_retires (c := c') ?_ hn')
    · rw [hl]
      exact Function.update_of_ne hne _ _
    · rw [hl]
      exact Function.update_self _ _ _
  · rw [hl]
    exact NodeList.grows_refl _ _

theorem fine_cut (S : Safe σ) (hp : σ.phase h = .cut z) : Fine (σ.step (h, .go)) := by
  obtain ⟨xs, N⟩ := S.nodes
  obtain ⟨c, hc, hn⟩ := S.own (h := h) (z := z) (by rw [hp]; rfl)
  obtain ⟨t, ht, _, hl⟩ : σ.Stage (.cut z) := hp ▸ (S.entries.handle h).stage
  simp only [step, hp, writeZombie_ok _ hc, ok_bind]
  refine ⟨S.exclusive.goto rfl rfl (by rw [hp]; rfl) fun hj => absurd rfl hj,
    S.entries.cut hp hc, xs, N.onward (onward_entry goto_phase (others_goto_of rfl) hc hn
      (show ({ c with next := none } : ZombieListNode).zombieNode = none from hn) rfl rfl rfl rfl (by rw [hp]; rfl) fun n hx hd => ?_)
      (others_goto_of rfl) ?_ fun y n _ hn => ?_⟩
  · -- every node that was to be freed is freed
    obtain ⟨h', z', t', s, hz', ht', hs, hlt⟩ := hd
    by_cases hne : h' = h
    · subst hne
      rw [hp] at hz'
      obtain rfl := Option.some.inj hz'
      rw [ht, Option.some.injEq] at ht'
      subst ht'
      obtain ⟨e, he, ce, hce, _⟩ := N.found n s hx hs
      have := hl e s ⟨he, by rw [hce]; rfl⟩
      omega
    · exact ⟨h', z', t', s, by rw [goto_other hne]; exact hz', ht', hs, hlt⟩
  · exact N.chain_goto rfl rfl rfl rfl (by rw [hp]; rfl)
  · rw [goto_phase] at hn
    cases hn

theorem fine_clear (S : Safe σ) (hp : σ.phase h = .clear z) : Fine (σ.step (h, .go)) := by
  obtain ⟨xs, N⟩ := S.nodes
  obtain ⟨c, hc, hn⟩ := S.own (h := h) (z := z) (by rw [hp]; rfl)
  simp only [step, hp, writeZombie_ok _ hc, ok_bind]
  refine ⟨S.exclusive.goto rfl rfl (by rw [hp]; rfl) fun hj => absurd rfl hj,
    S.entries.clear hp hc, xs, N.onward (onward_entry goto_phase (others_goto_of rfl) hc hn
      (show ({ c with owner := false } : ZombieListNode).zombieNode = none from hn) rfl rfl rfl rfl (by rw [hp]; rfl) fun n _ => ?_)
      (others_goto_of rfl) ?_ fun y n _ hn => ?_⟩
  · refine doomed_of (sweeps_others (others_goto_of rfl) goto_phase fun y hy => ?_)
      (fun _ _ => id) fun _ => id
    rw [hp] at hy
    cases hy
  · exact N.chain_goto rfl rfl rfl rfl (by rw [hp]; rfl)
  · rw [goto_phase] at hn
    cases hn

/-! ## A guard reads -/

theorem Safe.pushed (S : Safe σ) (hz : (σ.phase h).entry = some z)
    (hp : (σ.phase h).pushed = true) : ∃ t, σ.stamp z = some t := by
  obtain ⟨_, _, _, _, hst⟩ := (S.entries.handle h).own z hz
  exact Option.isSome_iff_exists.mp (hst.trans hp)

theorem deref_ok {n : Nat} {c : Node α} (hc : σ.list.node n = some c) :
    access (σ.list.toNodeList.deref n) = .ok c := by
  simp only [NodeList.deref, hc, access, Except.mapError]

/-- A store by the holder of the mutex, or none. -/
theorem Safe.store {write : Bool} {iter iter' : Option Nat} {job job' : Job} {nl : NodeList α}
    (S : Safe σ) (hp : σ.phase h = .active write z iter job) (hh : (σ.phase h).holds = true)
    (N : Nodes σ xs) (hG : σ.list.toNodeList.Grows nl σ.retired)
    (hC : nl.Chain σ.retired job' xs')
    (hnew : Phase.newZombie (.active true z iter' job') = none)
    (hst : ∀ n, iter' = some n ∨ job'.asked = some n → σ.Guards z n) :
    Safe ((σ.withNodes nl).goto h (.active true z iter' job')) := by
  have hm := (S.exclusive.holder h).mp hh
  have hw : ((σ.withNodes nl).goto h (.active true z iter' job')).writing = job' :=
    writing_holder hm
  refine S.move hp ⟨rfl, rfl, rfl, Or.inl hnew, Or.inl rfl, rfl⟩ rfl ⟨rfl, rfl, rfl, rfl, rfl⟩ rfl
    trivial (S.exclusive.goto rfl rfl ?_ fun _ => rfl) N hG (hw ▸ hC) hst
  rw [hh]
  rfl

theorem fine_active {write : Bool} {iter : Option Nat} {e : Event α} (S : Safe σ)
    (hp : σ.phase h = .active write z iter .none) : Fine (σ.activeStep h write z iter e) := by
  have hz : (σ.phase h).entry = some z := by rw [hp]; rfl
  have hcalm : ∀ iter', Calm (.active write z iter .none) (.active write z iter' .none) z :=
    fun _ => ⟨rfl, rfl, rfl, Or.inl rfl, Or.inl rfl, rfl⟩
  obtain ⟨t, ht⟩ := S.pushed hz (by rw [hp]; rfl)
  obtain ⟨xs, N⟩ := S.nodes
  have hiter : ∀ n, iter = some n → σ.Guards z n ∧ ∃ c, σ.list.node n = some c := by
    intro n hn
    have hg := N.hand h z n hz (by rw [hp]; exact Or.inl hn)
    exact ⟨hg, Option.isSome_iff_exists.mp hg.1⟩
  cases e with
  | begin =>
    refine S.goto hp (hcalm _) trivial rfl rfl rfl fun _ N n hn => ?_
    rcases hn with hn | hn
    · exact N.head ht hn
    · cases hn
  | read =>
    cases iter with
    | none => rfl
    | some n =>
      obtain ⟨_, c, hc⟩ := hiter n rfl
      simp only [activeStep, deref_ok hc, ok_bind]
      exact S
  | next =>
    cases iter with
    | none => rfl
    | some n =>
      obtain ⟨hg, c, hc⟩ := hiter n rfl
      simp only [activeStep, deref_ok hc, ok_bind]
      refine S.goto hp (hcalm _) trivial rfl rfl rfl fun _ N m hm => ?_
      rcases hm with hm | hm
      · exact hg.next N S.entries hz hc hm
      · cases hm
  | unlock =>
    cases write with
    | true =>
      exact S.goto hp ⟨rfl, rfl, rfl, Or.inl rfl, Or.inl rfl, rfl⟩ trivial rfl rfl rfl
        fun _ _ _ hn => by cases hn
    | false =>
      exact S.goto hp ⟨rfl, rfl, rfl, Or.inl rfl, Or.inl rfl, rfl⟩ trivial rfl rfl rfl
        fun _ _ _ hn => by cases hn
  | pushBack data =>
    cases write with
    | false => rfl
    | true =>
      have hh : (σ.phase h).holds = true := by rw [hp]; rfl
      have hC := N.chain
      rw [S.exclusive.writing_eq hh, hp] at hC
      refine S.store hp hh N (hC.grows_alloc data) (hC.alloc data) rfl fun n hn => ?_
      rcases hn with hn | hn
      · exact (hiter n hn).1
      · cases hn
  | erase assign =>
    cases iter with
    | none => rfl
    | some n =>
      cases write with
      | false => rfl
      | true =>
        obtain ⟨hg, c, hc⟩ := hiter n rfl
        have hh : (σ.phase h).holds = true := by rw [hp]; rfl
        have hC := N.chain
        rw [S.exclusive.writing_eq hh, hp] at hC
        simp only [activeStep, deref_ok hc, ok_bind]
        have hC' : σ.list.toNodeList.Chain σ.retired (.eraseTest n assign c.next) xs :=
          hC.reshape ⟨hC.shape, c, hc, rfl⟩ rfl
        refine S.store hp hh N (NodeList.grows_refl _ _) hC' rfl fun m hm => ?_
        rcases hm with hm | hm
        · exact (hiter m hm).1
        · obtain rfl := Option.some.inj hm
          exact hg
  | lock => rfl
  | go => rfl
  | swap => rfl

/-! ## A call goes on -/

/-- The handle has a call in progress, so it is the one that changes the list. -/
structure Calls (σ : SharedList α) (h : Handle) (z : Nat) (iter : Option Nat) (job : Job)
    (xs : List (Nat × α)) : Prop where
  safe : Safe σ
  phase : σ.phase h = .active true z iter job
  busy : job ≠ .none
  nodes : Nodes σ xs
  chain : σ.list.toNodeList.Chain σ.retired job xs

theorem Safe.calls {write : Bool} {iter : Option Nat} {job : Job} (S : Safe σ)
    (hp : σ.phase h = .active write z iter job) (hj : job ≠ .none) :
    ∃ xs, Calls σ h z iter job xs := by
  obtain ⟨xs, N⟩ := S.nodes
  have hh : (σ.phase h).holds = true := S.exclusive.writer h (by rw [hp]; exact hj)
  have hC := N.chain
  rw [S.exclusive.writing_eq hh, hp] at hC
  rw [hp] at hh
  exact ⟨xs, S, by rw [hp, show write = true from hh], hj, N, hC⟩

section

variable {iter : Option Nat} {job job' : Job} {nl : NodeList α}

theorem Calls.stands {n : Nat} (K : Calls σ h z iter job xs) (hn : iter = some n) :
    σ.Guards z n := K.nodes.hand h z n (by rw [K.phase]; rfl) (by rw [K.phase]; exact Or.inl hn)

/-- The call stores to a node, or to the ends of the list. -/
theorem Calls.store {iter' v : Option Nat} (K : Calls σ h z iter job xs)
    (R : σ.list.toNodeList.Rewired nl v)
    (hv : ∀ m ∈ v, m ∈ ids xs ∨ job.pending = some m) (hC : nl.Chain σ.retired job' xs')
    (hnew : Phase.newZombie (.active true z iter' job') = none)
    (hst : ∀ n, iter' = some n ∨ job'.asked = some n → σ.Guards z n) :
    Safe ((σ.withNodes nl).goto h (.active true z iter' job')) := by
  refine K.safe.store K.phase (by rw [K.phase]; rfl) K.nodes (R.grows fun m hm => ?_) hC hnew hst
  have hlive : (∃ c, σ.list.node m = some c) ∧ σ.retired m = none := by
    rcases hv m hm with h1 | h1
    · exact ⟨K.chain.shape.mem_cell h1, K.chain.live m h1⟩
    · exact ⟨K.chain.shape.pending_cell h1, (K.chain.pending m h1).2⟩
  obtain ⟨⟨c, hc⟩, hr⟩ := hlive
  exact ⟨by rw [hc]; rfl, hr⟩

/-- The call goes on and its handle stays where it is. -/
theorem Calls.stay {v : Option Nat} (K : Calls σ h z iter job xs)
    (R : σ.list.toNodeList.Rewired nl v) (hv : ∀ m ∈ v, m ∈ ids xs ∨ job.pending = some m)
    (hC : nl.Chain σ.retired job' xs') (hnew : Phase.newZombie (.active true z iter job') = none)
    (hasked : job'.asked = none) :
    Safe ((σ.withNodes nl).goto h (.active true z iter job')) := by
  refine K.store R hv hC hnew fun n hn => ?_
  rcases hn with hn | hn
  · exact K.stands hn
  · rw [hasked] at hn
    cases hn

/-- The call only reads. -/
theorem Calls.read (K : Calls σ h z iter job xs)
    (hC : σ.list.toNodeList.Chain σ.retired job' xs)
    (hnew : Phase.newZombie (.active true z iter job') = none) (hasked : job'.asked = none) :
    Safe (σ.goto h (.active true z iter job')) :=
  K.stay (NodeList.rewired_ends (v := none) rfl rfl) (fun m hm => by cases hm) hC hnew hasked

theorem access_ok {β : Type} (b : β) : access (.ok b : Except Fault β) = .ok b := rfl

theorem fine_pushLoad {n : Nat} (K : Calls σ h z iter (.pushLoad n) xs) :
    Fine (σ.jobStep h z iter (.pushLoad n) .go) := by
  obtain ⟨hw, hf⟩ := K.chain.shape
  simp only [jobStep]
  cases ht : σ.list.tail with
  | none => exact K.read (K.chain.reshape ⟨hw, hf, ht⟩ rfl) rfl rfl
  | some oldTail => exact K.read (K.chain.reshape ⟨hw, hf, ht⟩ rfl) rfl rfl

theorem fine_pushHead {n : Nat} (K : Calls σ h z iter (.pushHead n) xs) :
    Fine (σ.jobStep h z iter (.pushHead n) .go) := by
  obtain ⟨xs', hC⟩ := K.chain.pushHead
  exact K.stay (NodeList.rewired_ends (v := none) rfl rfl) (fun m hm => by cases hm) hC rfl rfl

theorem fine_pushBack {n oldTail : Nat} (K : Calls σ h z iter (.pushBack n oldTail) xs) :
    Fine (σ.jobStep h z iter (.pushBack n oldTail) .go) := by
  obtain ⟨l', hrun, R, hC⟩ := K.chain.pushBack
  simp only [jobStep, hrun, access_ok, ok_bind]
  exact K.stay R (fun m hm => by cases hm) hC rfl rfl

theorem fine_pushNext {n oldTail : Nat} (K : Calls σ h z iter (.pushNext n oldTail) xs) :
    Fine (σ.jobStep h z iter (.pushNext n oldTail) .go) := by
  obtain ⟨l', xs', hrun, R, hC⟩ := K.chain.pushNext
  simp only [jobStep, hrun, access_ok, ok_bind]
  exact K.stay R (fun m hm => Or.inr hm) hC rfl rfl

theorem fine_pushTail {n : Nat} (K : Calls σ h z iter (.pushTail n) xs) :
    Fine (σ.jobStep h z iter (.pushTail n) .go) :=
  K.stay (NodeList.rewired_ends (v := none) rfl rfl) (fun m hm => by cases hm) K.chain.pushTail
    rfl rfl

theorem fine_eraseTest {n : Nat} {assign : Bool} {oldNext : Option Nat}
    (K : Calls σ h z iter (.eraseTest n assign oldNext) xs) :
    Fine (σ.jobStep h z iter (.eraseTest n assign oldNext) .go) := by
  obtain ⟨hw, c, hc, hnext⟩ := K.chain.shape
  simp only [jobStep, deref_ok hc, ok_bind]
  cases hd : c.deleted with
  | true =>
    -- another erase of the node was first, and the iterator walks past it
    have hent : (σ.phase h).entry = some z := by rw [K.phase]; rfl
    have hg := K.nodes.hand h z n hent (by rw [K.phase]; exact Or.inr rfl)
    have hC : σ.list.toNodeList.Chain σ.retired .none xs := K.chain.reshape hw rfl
    simp only [if_true]
    refine K.store (NodeList.rewired_ends (v := none) rfl rfl) (fun m hm => by cases hm) hC rfl
      fun m hm => ?_
    rcases hm with hm | hm
    · cases assign with
      | true => exact hg.next K.nodes K.safe.entries hent hc (hnext.trans hm)
      | false => exact K.stands hm
    · cases hm
  | false =>
    obtain ⟨l', xs', hrun, R, hC⟩ := K.chain.mark hc hd
    simp only [Bool.false_eq_true, if_false, hrun, access_ok, ok_bind]
    exact K.stay R (fun m hm => by cases hm) hC rfl rfl

theorem fine_eraseBack {n : Nat} {assign : Bool} {oldNext : Option Nat}
    (K : Calls σ h z iter (.eraseBack n assign oldNext) xs) :
    Fine (σ.jobStep h z iter (.eraseBack n assign oldNext) .go) := by
  obtain ⟨pre, post, oldPrev, hxs, O⟩ := K.chain.shape
  obtain ⟨data, hd⟩ := O.cell
  simp only [jobStep, deref_ok hd, ok_bind]
  exact K.read (K.chain.reshape ⟨pre, post, hxs, O⟩ rfl) rfl rfl

theorem fine_erasePrev {n : Nat} {assign : Bool} {oldNext oldPrev : Option Nat}
    (K : Calls σ h z iter (.erasePrev n assign oldNext oldPrev) xs) :
    Fine (σ.jobStep h z iter (.erasePrev n assign oldNext oldPrev) .go) := by
  obtain ⟨l', hrun, R, hlive, hC⟩ := K.chain.erasePrev
  have key := K.stay R (fun m hm => Or.inl (hlive m hm)) hC rfl rfl
  cases oldPrev with
  | none =>
    cases hrun
    exact key
  | some p =>
    simp only at hrun
    simp only [jobStep, hrun, access_ok, ok_bind]
    exact key

theorem fine_eraseNext {n : Nat} {assign : Bool} {oldNext oldPrev : Option Nat}
    (K : Calls σ h z iter (.eraseNext n assign oldNext oldPrev) xs) :
    Fine (σ.jobStep h z iter (.eraseNext n assign oldNext oldPrev) .go) := by
  obtain ⟨l', hrun, R, hC⟩ := K.chain.eraseNext
  have key := K.stay R (fun m hm => by cases hm) hC rfl rfl
  cases oldNext with
  | none =>
    cases hrun
    exact key
  | some k =>
    simp only at hrun
    simp only [jobStep, hrun, access_ok, ok_bind]
    exact key

theorem fine_eraseAlloc {n : Nat} {assign : Bool} {oldNext : Option Nat}
    (K : Calls σ h z iter (.eraseAlloc n assign oldNext) xs) :
    Fine (σ.jobStep h z iter (.eraseAlloc n assign oldNext) .go) := by
  have hp := K.phase
  have hh : (σ.phase h).holds = true := by rw [hp]; rfl
  have hf := K.safe.entries.bound _ (Nat.le_refl _)
  have hm : (σ.allocZombie false (some n)).m_write_mutex = some h :=
    (K.safe.exclusive.holder h).mp hh
  have hC : σ.list.toNodeList.Chain σ.retired
      (.eraseLink n assign oldNext σ.list.zombieCount .load) xs := K.chain.reshape K.chain.shape rfl
  refine ⟨K.safe.exclusive.goto rfl rfl (by rw [hp]; rfl) fun _ => rfl,
    K.safe.entries.allocErased hp, xs, K.nodes.onward ⟨rfl, Nat.le_refl _, fun _ _ => id, ?_,
      swept_others (others_goto_of rfl) goto_phase (by rw [hp]; rfl), fun n _ => ?_,
      NodeList.grows_refl _ _⟩ (others_goto_of rfl) ?_ fun y m hy hm => ?_⟩
  · exact retires_congr (fun e hne => Function.update_of_ne hne _ _) (fun _ _ => rfl)
      (not_retires_unpushed hf.2) (not_retires_unpushed hf.2)
  · refine doomed_of (sweeps_others (others_goto_of rfl) goto_phase fun y hy => ?_)
      (fun _ _ => id) fun _ => id
    rw [hp] at hy
    cases hy
  · rw [writing_holder hm]
    exact hC
  · rw [goto_phase] at hy hm
    obtain rfl := Option.some.inj hy
    rcases hm with hm | hm
    · exact K.stands hm
    · cases hm

theorem fine_eraseLink {n w : Nat} {assign : Bool} {oldNext : Option Nat} {stage : PushStage}
    {e : Event α} (K : Calls σ h z iter (.eraseLink n assign oldNext w stage) xs) :
    Fine (σ.jobStep h z iter (.eraseLink n assign oldNext w stage) e) := by
  have hp := K.phase
  have hh : (σ.phase h).holds = true := by rw [hp]; rfl
  obtain ⟨c, hc, ho, hcn, hs⟩ := (K.safe.entries.handle h).new w n (by rw [hp]; rfl)
  have hw : σ.writing = .eraseLink n assign oldNext w stage := by
    rw [K.safe.exclusive.writing_eq hh, hp]
    rfl
  rcases K.safe.entries.pushStep hc hs stage e with hrun | ⟨σ1, stage', hrun, P⟩
  · simp only [jobStep_eraseLink, hrun, error_bind, Fine]
  · have hm : σ1.m_write_mutex = some h :=
      P.mutex.trans ((K.safe.exclusive.holder h).mp hh)
    simp only [jobStep_eraseLink, hrun, ok_bind]
    cases stage' with
    | none =>
      refine ⟨K.safe.exclusive.goto P.phase P.mutex (by rw [hp]; rfl) fun hj => absurd rfl hj, ?_,
        xs, K.nodes.retire K.safe.entries hp hw hs hcn P hm⟩
      exact K.safe.entries.erasePush K.safe.exclusive hp hc P rfl rfl rfl fun _ => trivial
    | some st =>
      have hC : σ.list.toNodeList.Chain σ.retired (.eraseLink n assign oldNext w st) xs :=
        K.chain.reshape K.chain.shape rfl
      refine ⟨K.safe.exclusive.goto P.phase P.mutex (by rw [hp]; rfl) fun _ => rfl, ?_, xs,
        K.nodes.onward (P.onward hs (fun hx => by cases hx) (by rw [hp]; rfl) fun y hy => ?_)
          (others_goto_of P.phase) ?_ fun y m hy hm' => ?_⟩
      · exact K.safe.entries.erasePush (r := σ1.retired) K.safe.exclusive hp hc P rfl rfl rfl
          fun _ => trivial
      · rw [hp] at hy
        cases hy
      · rw [writing_holder hm]
        show σ1.list.toNodeList.Chain σ1.retired _ xs
        rw [P.nodes, P.retired]
        exact hC
      · rw [goto_phase] at hy hm'
        obtain rfl := Option.some.inj hy
        rcases hm' with hm' | hm'
        · exact K.stands hm'
        · cases hm'

theorem fine_job {e : Event α} (K : Calls σ h z iter job xs) :
    Fine (σ.jobStep h z iter job e) := by
  cases job with
  | none => exact absurd rfl K.busy
  | eraseLink => exact fine_eraseLink K
  | pushLoad =>
    cases e with
    | go => exact fine_pushLoad K
    | _ => rfl
  | pushHead =>
    cases e with
    | go => exact fine_pushHead K
    | _ => rfl
  | pushBack =>
    cases e with
    | go => exact fine_pushBack K
    | _ => rfl
  | pushNext =>
    cases e with
    | go => exact fine_pushNext K
    | _ => rfl
  | pushTail =>
    cases e with
    | go => exact fine_pushTail K
    | _ => rfl
  | eraseTest =>
    cases e with
    | go => exact fine_eraseTest K
    | _ => rfl
  | eraseBack =>
    cases e with
    | go => exact fine_eraseBack K
    | _ => rfl
  | erasePrev =>
    cases e with
    | go => exact fine_erasePrev K
    | _ => rfl
  | eraseNext =>
    cases e with
    | go => exact fine_eraseNext K
    | _ => rfl
  | eraseAlloc =>
    cases e with
    | go => exact fine_eraseAlloc K
    | _ => rfl

end

/-! ## Every step -/

theorem fine_step (S : Safe σ) (x : Handle × Event α) : Fine (σ.step x) := by
  obtain ⟨h, e⟩ := x
  cases hp : σ.phase h with
  | idle =>
    cases e with
    | lock write =>
      rw [step_idle hp]
      exact S.lock hp
    | _ => simp only [step, hp, Fine]
  | lock write z stage =>
    simp only [step, hp]
    exact fine_lock S hp
  | lockMutex z =>
    cases e with
    | go =>
      simp only [step, hp]
      cases hm : σ.m_write_mutex with
      | none => exact S.lockMutex hp hm
      | some _ => rfl
    | _ => simp only [step, hp, Fine]
  | active write z iter job =>
    by_cases hj : job = .none
    · subst hj
      simp only [step, hp]
      exact fine_active S hp
    · obtain ⟨xs, K⟩ := S.calls hp hj
      cases job with
      | none => exact absurd rfl hj
      | _ =>
        simp only [step, hp]
        exact fine_job K
  | unlockMutex z =>
    cases e with
    | go =>
      simp only [step, hp]
      exact S.unlockMutex hp
    | _ => simp only [step, hp, Fine]
  | unlock z =>
    cases e with
    | go => exact fine_unlock S hp
    | _ => simp only [step, hp, Fine]
  | scanOwner z cached_next n =>
    cases e with
    | go => exact fine_scanOwner S hp
    | _ => simp only [step, hp, Fine]
  | scanNext z cached_next n =>
    cases e with
    | go => exact fine_scanNext S hp
    | _ => simp only [step, hp, Fine]
  | sweepNode z n =>
    cases e with
    | go => exact fine_sweepNode S hp
    | _ => simp only [step, hp, Fine]
  | sweepNext z n =>
    cases e with
    | go => exact fine_sweepNext S hp
    | _ => simp only [step, hp, Fine]
  | sweepFree z n next =>
    cases e with
    | go => exact fine_sweepFree S hp
    | _ => simp only [step, hp, Fine]
  | cut z =>
    cases e with
    | go => exact fine_cut S hp
    | _ => simp only [step, hp, Fine]
  | clear z =>
    cases e with
    | go => exact fine_clear S hp
    | _ => simp only [step, hp, Fine]

theorem safe_step {x : Handle × Event α} (S : Safe σ) (hs : σ.step x = .ok σ') : Safe σ' := by
  have h := fine_step S x
  rwa [hs] at h

theorem safe_run {as : List (Handle × Event α)} (hr : Runs.run step init as = .ok σ) : Safe σ :=
  Runs.run_keeps (fun _ _ _ => safe_step) hr safe_init

theorem Safe.no_fault (S : Safe σ) (x : Handle × Event α) (u : Fault) :
    σ.step x ≠ .error (.fault u) := by
  intro hs
  have h := fine_step S x
  rw [hs] at h
  cases h

/-! ## What is not freed -/

/-- The guard of the handle is on the zombie stack and has its owner. -/
def Guarding (σ : SharedList α) (h : Handle) : Prop :=
  ∃ z, (σ.phase h).entry = some z ∧ (σ.phase h).pushed = true

/-- Where the iterator of a handle stands. -/
def iterator (σ : SharedList α) (h : Handle) : Option Nat :=
  match σ.phase h with
  | .active _ _ iter _ => iter
  | _ => none

/-- The guard of the handle stands on the node, or can walk to it. -/
def InReach (σ : SharedList α) (h : Handle) (n : Nat) : Prop :=
  σ.Guarding h ∧
    (Reaches σ.list.node (σ.iterator h) n ∨ Reaches σ.list.node σ.list.head n)

theorem Safe.in_reach {n : Nat} (S : Safe σ) (hr : σ.InReach h n) :
    (σ.list.node n).isSome = true := by
  obtain ⟨xs, N⟩ := S.nodes
  obtain ⟨⟨z, hz, hp⟩, hr⟩ := hr
  obtain ⟨t, ht⟩ := S.pushed hz hp
  have hfrom : ∀ q, Reaches σ.list.node q n → (∀ m, q = some m → σ.Guards z m) →
      (σ.list.node n).isSome = true := by
    intro q hq hg
    cases q with
    | none => exact absurd hq not_reaches_none
    | some m => exact ((hg m rfl).reaches N S.entries hz hq).1
  rcases hr with hr | hr
  · refine hfrom _ hr fun m hm => N.hand h z m hz ?_
    unfold iterator at hm
    cases hph : σ.phase h with
    | active write y iter job =>
      rw [hph] at hm
      exact Or.inl hm
    | _ =>
      rw [hph] at hm
      cases hm
  · exact hfrom _ hr fun m hm => N.head ht hm

/-- Whatever the order in which the handles go on: no step uses a node or an entry that
was freed, or frees it again, and the nodes that a guard can come to are there. -/
theorem reclamation_safe (as : List (Handle × Event α)) (σ : SharedList α)
    (hr : Runs.run step init as = .ok σ) :
    (∀ x u, σ.step x ≠ .error (.fault u)) ∧
      ∀ h n, σ.InReach h n → (σ.list.node n).isSome = true := by
  have S := safe_run hr
  exact ⟨S.no_fault, fun h n => S.in_reach⟩

/-- A writer erases the node that a reader stands on, and goes. -/
def erasedUnderReader : List (Handle × Event Nat) :=
  [(0, .lock true), (0, .go), (0, .go), (0, .swap true), (0, .go),
    (0, .pushBack 7), (0, .go), (0, .go), (0, .go),
    (1, .lock false), (1, .go), (1, .go), (1, .swap true), (1, .begin),
    (0, .begin), (0, .erase false), (0, .go), (0, .go), (0, .go), (0, .go), (0, .go),
    (0, .go), (0, .go), (0, .swap true),
    (0, .unlock), (0, .go), (0, .go), (0, .go), (0, .go)]

theorem reclamation_safe_erased :
    ((Runs.reached step init erasedUnderReader).list.node 0).isSome = true :=
  (reclamation_safe erasedUnderReader _ (Runs.run_reached (by decide))).2 1 0
    ⟨⟨1, rfl, rfl⟩, Or.inl .here⟩

end SharedList

end CsSignal
