-- Runs of a machine that takes one action at a time, and may refuse it. What
-- holds of a run is proved once here, from what holds of one step.

namespace Runs

variable {σ α ε : Type} {step : σ → α → Except ε σ}

/-- The state after the actions, when none of them is refused. -/
def run (step : σ → α → Except ε σ) : σ → List α → Except ε σ
  | s, [] => .ok s
  | s, a :: as =>
    match step s a with
    | .ok s' => run step s' as
    | .error e => .error e

/-- Every action of the run meets the condition where it is taken. -/
def Meets (step : σ → α → Except ε σ) (cond : σ → α → Prop) : σ → List α → Prop
  | _, [] => True
  | s, a :: as => cond s a ∧
    match step s a with
    | .ok s' => Meets step cond s' as
    | .error _ => True

/-- The same, computed. -/
def meets (step : σ → α → Except ε σ) (cond : σ → α → Bool) : σ → List α → Bool
  | _, [] => true
  | s, a :: as => cond s a &&
    match step s a with
    | .ok s' => meets step cond s' as
    | .error _ => true

/-- The state after the actions, or the first one when some action is refused. -/
def reached (step : σ → α → Except ε σ) (s : σ) (as : List α) : σ :=
  match run step s as with
  | .ok s' => s'
  | .error _ => s

theorem run_reached {s : σ} {as : List α} (h : (run step s as).isOk = true) :
    run step s as = .ok (reached step s as) := by
  unfold reached
  cases hr : run step s as with
  | ok s' => rfl
  | error e =>
    rw [hr] at h
    cases h

theorem step_reached {s : σ} {a : α} (h : (step s a).isOk = true) :
    step s a = .ok (reached step s [a]) := by
  unfold reached run run
  cases hs : step s a with
  | ok s' => rfl
  | error e =>
    rw [hs] at h
    cases h

theorem run_cons {s : σ} {a : α} {as : List α} {s' : σ} :
    run step s (a :: as) = .ok s' ↔ ∃ s1, step s a = .ok s1 ∧ run step s1 as = .ok s' := by
  simp only [run]
  cases step s a with
  | ok s1 => simp
  | error e => simp

theorem run_append {s : σ} {as bs : List α} {s' : σ} :
    run step s (as ++ bs) = .ok s' ↔ ∃ s1, run step s as = .ok s1 ∧ run step s1 bs = .ok s' := by
  induction as generalizing s with
  | nil => simp [run]
  | cons a as ih =>
    rw [List.cons_append, run_cons]
    constructor
    · rintro ⟨s1, h1, h2⟩
      obtain ⟨s2, h2, h3⟩ := ih.mp h2
      exact ⟨s2, run_cons.mpr ⟨s1, h1, h2⟩, h3⟩
    · rintro ⟨s2, h2, h3⟩
      obtain ⟨s1, h1, h2⟩ := run_cons.mp h2
      exact ⟨s1, h1, ih.mpr ⟨s2, h2, h3⟩⟩

theorem meets_iff {cond : σ → α → Prop} [∀ s a, Decidable (cond s a)] {s : σ} {as : List α} :
    meets step (fun s a => decide (cond s a)) s as = true ↔ Meets step cond s as := by
  induction as generalizing s with
  | nil => simp [meets, Meets]
  | cons a as ih =>
    simp only [meets, Meets, Bool.and_eq_true, decide_eq_true_eq]
    cases step s a with
    | ok s' => simp [ih]
    | error e => simp

instance {cond : σ → α → Prop} [∀ s a, Decidable (cond s a)] (s : σ) (as : List α) :
    Decidable (Meets step cond s as) := decidable_of_iff _ meets_iff

theorem Meets.mono {c c' : σ → α → Prop} (hc : ∀ s a, c s a → c' s a) {s : σ} {as : List α}
    (h : Meets step c s as) : Meets step c' s as := by
  induction as generalizing s with
  | nil => trivial
  | cons a as ih =>
    refine ⟨hc s a h.1, ?_⟩
    have h2 := h.2
    cases hs : step s a with
    | ok s' =>
      rw [hs] at h2
      exact ih h2
    | error e => trivial

theorem Meets.and {c c' : σ → α → Prop} {s : σ} {as : List α} (h : Meets step c s as)
    (h' : Meets step c' s as) : Meets step (fun s a => c s a ∧ c' s a) s as := by
  induction as generalizing s with
  | nil => trivial
  | cons a as ih =>
    refine ⟨⟨h.1, h'.1⟩, ?_⟩
    have h2 := h.2
    have h2' := h'.2
    cases hs : step s a with
    | error e => trivial
    | ok s' =>
      rw [hs] at h2 h2'
      exact ih h2 h2'

theorem Meets.append {cond : σ → α → Prop} {s s1 : σ} {as bs : List α}
    (h : Meets step cond s (as ++ bs)) (hr : run step s as = .ok s1) :
    Meets step cond s as ∧ Meets step cond s1 bs := by
  induction as generalizing s with
  | nil =>
    cases hr
    exact ⟨trivial, h⟩
  | cons a as ih =>
    obtain ⟨s2, hs, hr⟩ := run_cons.mp hr
    obtain ⟨hc, hm⟩ := h
    rw [hs] at hm
    obtain ⟨h1, h2⟩ := ih hm hr
    refine ⟨⟨hc, ?_⟩, h2⟩
    rw [hs]
    exact h1

/-- What every step that meets the condition keeps, the run keeps. -/
theorem run_invariant {cond : σ → α → Prop} {I : σ → Prop}
    (hstep : ∀ s a s', I s → cond s a → step s a = .ok s' → I s') {s s' : σ} {as : List α}
    (hm : Meets step cond s as) (hr : run step s as = .ok s') (hI : I s) : I s' := by
  induction as generalizing s with
  | nil =>
    cases hr
    exact hI
  | cons a as ih =>
    obtain ⟨s1, hs, hr⟩ := run_cons.mp hr
    obtain ⟨hc, hm⟩ := hm
    rw [hs] at hm
    exact ih hm hr (hstep s a s1 hI hc hs)

theorem meets_true (s : σ) (as : List α) : Meets step (fun _ _ => True) s as := by
  induction as generalizing s with
  | nil => trivial
  | cons a as ih =>
    refine ⟨trivial, ?_⟩
    cases step s a with
    | ok s' => exact ih s'
    | error e => trivial

/-- What every step keeps, every run keeps. -/
theorem run_keeps {I : σ → Prop} (hstep : ∀ s a s', I s → step s a = .ok s' → I s') {s s' : σ}
    {as : List α} (hr : run step s as = .ok s') (hI : I s) : I s' :=
  run_invariant (fun s a s' hI _ hs => hstep s a s' hI hs) (meets_true s as) hr hI

/-- When every step that fails the condition leads to a bad state, and none of the
others does, a run meets the condition if and only if all its states are good. -/
theorem meets_iff_good {cond : σ → α → Prop} {I good : σ → Prop} (hgood : ∀ s, I s → good s)
    (hstep : ∀ s a s', I s → cond s a → step s a = .ok s' → I s')
    (hbad : ∀ s a s', I s → ¬ cond s a → step s a = .ok s' → ¬ good s') {s s' : σ} {as : List α}
    (hI : I s) (hr : run step s as = .ok s') :
    Meets step cond s as ↔ ∀ bs s1, bs <+: as → run step s bs = .ok s1 → good s1 := by
  constructor
  · rintro hm bs s1 ⟨cs, rfl⟩ hbs
    exact hgood s1 (run_invariant hstep (hm.append hbs).1 hbs hI)
  · intro hall
    induction as generalizing s with
    | nil => trivial
    | cons a as ih =>
      obtain ⟨s1, hs, hr⟩ := run_cons.mp hr
      have hone : run step s [a] = .ok s1 := run_cons.mpr ⟨s1, hs, rfl⟩
      have hc : cond s a := Classical.byContradiction fun hc =>
        hbad s a s1 hI hc hs (hall [a] s1 ⟨as, rfl⟩ hone)
      refine ⟨hc, ?_⟩
      rw [hs]
      refine ih (hstep s a s1 hI hc hs) hr fun bs s2 hbs hr2 => ?_
      exact hall (a :: bs) s2 (List.cons_prefix_cons.mpr ⟨rfl, hbs⟩) (run_cons.mpr ⟨s1, hs, hr2⟩)

/-- One machine follows another, action by action. -/
theorem run_follows {τ β ε' : Type} {step' : τ → β → Except ε' τ} {f : β → α} {R : σ → τ → Prop}
    {cond : σ → α → Prop}
    (hstep : ∀ s t b s', R s t → cond s (f b) → step s (f b) = .ok s' →
      ∃ t', step' t b = .ok t' ∧ R s' t')
    {s s' : σ} {t : τ} {bs : List β} (hR : R s t) (hm : Meets step cond s (bs.map f))
    (hr : run step s (bs.map f) = .ok s') : ∃ t', run step' t bs = .ok t' ∧ R s' t' := by
  induction bs generalizing s t with
  | nil =>
    cases hr
    exact ⟨t, rfl, hR⟩
  | cons b bs ih =>
    obtain ⟨s1, hs, hr⟩ := run_cons.mp hr
    obtain ⟨hc, hm⟩ := hm
    rw [hs] at hm
    obtain ⟨t1, ht, hR1⟩ := hstep s t b s1 hR hc hs
    obtain ⟨t', ht', hR'⟩ := ih hR1 hm hr
    exact ⟨t', run_cons.mpr ⟨t1, ht, ht'⟩, hR'⟩

/-- Each action of one machine is a run of the other, in which it is the only action that
is seen. -/
theorem run_weak {τ β ε' : Type} {step' : τ → β → Except ε' τ} {see : α → Option β}
    {R : τ → σ → Prop} (hstep : ∀ t b t' s, R t s → step' t b = .ok t' →
      ∃ as s', run step s as = .ok s' ∧ as.filterMap see = [b] ∧ R t' s')
    {t t' : τ} {s : σ} {bs : List β} (hR : R t s) (hr : run step' t bs = .ok t') :
    ∃ as s', run step s as = .ok s' ∧ as.filterMap see = bs ∧ R t' s' := by
  induction bs generalizing t s with
  | nil =>
    cases hr
    exact ⟨[], s, rfl, rfl, hR⟩
  | cons b bs ih =>
    obtain ⟨t1, ht, hr⟩ := run_cons.mp hr
    obtain ⟨as, s1, h1, hsee, hR1⟩ := hstep t b t1 s hR ht
    obtain ⟨as', s', h2, hsee', hR'⟩ := ih hR1 hr
    refine ⟨as ++ as', s', run_append.mpr ⟨s1, h1, h2⟩, ?_, hR'⟩
    rw [List.filterMap_append, hsee, hsee']
    rfl

/-- A measure that never rises from some time on, and falls again and again while it is
not zero, comes to zero. -/
theorem falls_to_zero {f : Nat → Nat} {k : Nat} (hle : ∀ i, k ≤ i → f (i + 1) ≤ f i)
    (hturn : ∀ i, k ≤ i → f i ≠ 0 → ∃ j, i ≤ j ∧ f (j + 1) < f j) : ∃ i, k ≤ i ∧ f i = 0 := by
  have hdown : ∀ i j, k ≤ i → i ≤ j → f j ≤ f i := fun i j hi hij => by
    induction hij with
    | refl => exact Nat.le_refl _
    | @step j hij ih => exact Nat.le_trans (hle j (Nat.le_trans hi hij)) ih
  have hfrom : ∀ n i, k ≤ i → f i = n → ∃ i, k ≤ i ∧ f i = 0 := fun n => by
    induction n using Nat.strongRecOn with
    | ind n ih =>
      intro i hi hn
      by_cases hzero : f i = 0
      · exact ⟨i, hi, hzero⟩
      · obtain ⟨j, hij, hj⟩ := hturn i hi hzero
        have hlt : f (j + 1) < n := by
          have := hdown i j hi hij
          omega
        exact ih (f (j + 1)) hlt (j + 1) (by omega) rfl
  exact hfrom (f k) k (Nat.le_refl _) rfl

/-- A measure that no step raises, and that falls with each step of one actor, is used
up when the actor made as many steps. -/
theorem run_falls {who : α → Bool} {I G : σ → Prop} {f : σ → Nat}
    (hstep : ∀ s a s', I s → 0 < f s → step s a = .ok s' →
      I s' ∧ f s' + (who a).toNat ≤ f s ∧ (f s' = 0 → G s'))
    {s s' : σ} {as : List α} (hI : I s) (hf : 0 < f s) (hr : run step s as = .ok s')
    (hcount : f s ≤ as.countP who) : ∃ bs s1, bs <+: as ∧ run step s bs = .ok s1 ∧ G s1 := by
  induction as generalizing s with
  | nil =>
    rw [List.countP_nil] at hcount
    omega
  | cons a as ih =>
    obtain ⟨s1, hs, hr⟩ := run_cons.mp hr
    obtain ⟨hI1, hle, hgoal⟩ := hstep s a s1 hI hf hs
    by_cases hzero : f s1 = 0
    · exact ⟨[a], s1, List.cons_prefix_cons.mpr ⟨rfl, List.nil_prefix⟩,
        run_cons.mpr ⟨s1, hs, rfl⟩, hgoal hzero⟩
    · have hcount1 : f s1 ≤ as.countP who := by
        rw [List.countP_cons] at hcount
        cases ha : who a <;> simp [ha] at hcount hle <;> omega
      obtain ⟨bs, s2, hbs, hr2, hG⟩ := ih hI1 (by omega) hr hcount1
      exact ⟨a :: bs, s2, List.cons_prefix_cons.mpr ⟨rfl, hbs⟩, run_cons.mpr ⟨s1, hs, hr2⟩, hG⟩

/-! ## Marks -/

/-- What an abstract machine does when a step is marked; without a mark it does nothing. -/
def marked {τ β ε' : Type} (step' : τ → β → Except ε' τ) (t : τ) : Option β → Except ε' τ
  | none => .ok t
  | some b => step' t b

/-- The marks of the steps of a run. -/
def marks {β : Type} (step : σ → α → Except ε σ) (mark : σ → α → Option β) : σ → List α → List β
  | _, [] => []
  | s, a :: as => (mark s a).toList ++
    match step s a with
    | .ok s' => marks step mark s' as
    | .error _ => []

theorem marks_append {β : Type} {mark : σ → α → Option β} {s s1 : σ} {as bs : List α}
    (hr : run step s as = .ok s1) :
    marks step mark s (as ++ bs) = marks step mark s as ++ marks step mark s1 bs := by
  induction as generalizing s with
  | nil =>
    cases hr
    rfl
  | cons a as ih =>
    obtain ⟨s', hs, hr⟩ := run_cons.mp hr
    simp only [List.cons_append, marks, hs, ih hr, List.append_assoc]

/-- When every step does to the abstract state what its mark says, a run does to it what
its marks say. -/
theorem run_marks {τ β ε' : Type} {step' : τ → β → Except ε' τ} {abs : σ → τ}
    {mark : σ → α → Option β} {I : σ → Prop}
    (hstep : ∀ s a s', I s → step s a = .ok s' →
      I s' ∧ marked step' (abs s) (mark s a) = .ok (abs s'))
    {s s' : σ} {as : List α} (hI : I s) (hr : run step s as = .ok s') :
    run step' (abs s) (marks step mark s as) = .ok (abs s') := by
  induction as generalizing s with
  | nil =>
    cases hr
    rfl
  | cons a as ih =>
    obtain ⟨s1, hs, hr⟩ := run_cons.mp hr
    obtain ⟨hI1, hm⟩ := hstep s a s1 hI hs
    simp only [marks, hs]
    cases hb : mark s a with
    | none =>
      rw [hb] at hm
      have habs : abs s = abs s1 := Except.ok.inj hm
      rw [habs]
      exact ih hI1 hr
    | some b =>
      rw [hb] at hm
      exact run_cons.mpr ⟨abs s1, hm, ih hI1 hr⟩

/-- When the marks of one kind are paid for in every step, by marks of another kind or out
of a store, they are paid for in a run. -/
theorem marks_le {β : Type} {mark : σ → α → Option β} {p q : β → Bool} {I : σ → Prop}
    {f : σ → Nat} (hstep : ∀ s a s', I s → step s a = .ok s' →
      I s' ∧ (mark s a).toList.countP p + f s' ≤ f s + (mark s a).toList.countP q)
    {s s' : σ} {as : List α} (hI : I s) (hr : run step s as = .ok s') :
    (marks step mark s as).countP p + f s' ≤ f s + (marks step mark s as).countP q := by
  induction as generalizing s with
  | nil =>
    cases hr
    simp only [marks, List.countP_nil, Nat.zero_add, Nat.add_zero, Nat.le_refl]
  | cons a as ih =>
    obtain ⟨s1, hs, hr⟩ := run_cons.mp hr
    obtain ⟨hI1, hle⟩ := hstep s a s1 hI hs
    have := ih hI1 hr
    simp only [marks, hs, List.countP_append]
    omega

end Runs
