-- The writes on a sequence that take effect in a run of marks, and what the list at the
-- end has of the list before: the order of the elements is the order of their pushes.
import CsSignal.Atomic

namespace CsSignal

/-! ## Writes one after another -/

namespace Write

variable {α : Type} {items : List (Nat × α)} {ws : List (Write α)} {x : Nat × α}

def pushes : Write α → Option (Nat × α)
  | .push n data => some (n, data)
  | .erase _ => none

def erases : Write α → Option Nat
  | .push _ _ => none
  | .erase n => some n

/-- The elements that the writes push, in their order. -/
def pushed (ws : List (Write α)) : List (Nat × α) := ws.filterMap pushes

/-- The elements that the writes erase. -/
def erased (ws : List (Write α)) : List Nat := ws.filterMap erases

theorem edits_sublist : (ws.foldl edit items).Sublist (items ++ pushed ws) := by
  induction ws generalizing items with
  | nil => simp [pushed]
  | cons w ws ih =>
    refine ih.trans ?_
    cases w with
    | push n data => simp [edit, pushed, pushes]
    | erase n => exact List.filter_sublist.append_right _

theorem mem_edits (hx : x ∈ items) (hn : x.1 ∉ erased ws) : x ∈ ws.foldl edit items := by
  induction ws generalizing items with
  | nil => exact hx
  | cons w ws ih =>
    cases w with
    | push n data => exact ih (List.mem_append_left _ hx) hn
    | erase n =>
      have hn' : x.1 ≠ n ∧ x.1 ∉ erased ws := by simpa [erased, erases] using hn
      exact ih (List.mem_filter.mpr ⟨hx, by simpa using hn'.1⟩) hn'.2

/-- Writes that erase nothing add to the end of the list. -/
theorem prefix_edits (hn : erased ws = []) : items <+: ws.foldl edit items := by
  induction ws generalizing items with
  | nil => exact List.prefix_rfl
  | cons w ws ih =>
    cases w with
    | push n data => exact (List.prefix_append _ _).trans (ih hn)
    | erase n => simp [erased, erases] at hn

end Write

namespace Sequence

variable {α : Type} {s s' : Sequence α} {m : Mark α} {ms ms' : List (Mark α)} {k : Nat}

/-- The write that takes effect with the mark. -/
def effect (s : Sequence α) : Mark α → Option (Write α)
  | .ask _ _ => none
  | .effect _ => s.asked.map Prod.snd

/-- The writes that take effect in a run, in their order. -/
def effects (s : Sequence α) (ms : List (Mark α)) : List (Write α) := Runs.marks step effect s ms

theorem effects_cons (hs : s.step m = .ok s') :
    s.effects (m :: ms) = (s.effect m).toList ++ s'.effects ms := by
  simp only [effects, Runs.marks, hs]

theorem step_items (hs : s.step m = .ok s') :
    s'.items = (s.effect m).toList.foldl Write.edit s.items := by
  cases m with
  | ask h w =>
    cases w with
    | push n data =>
      simp only [step] at hs
      split at hs <;> cases hs
      rfl
    | erase n =>
      simp only [step] at hs
      split at hs <;> cases hs
      rfl
  | effect h =>
    simp only [step] at hs
    split at hs
    · rename_i h' w ha
      split at hs <;> cases hs
      simp only [effect, ha, Option.map_some, Option.toList_some, List.foldl_cons, List.foldl_nil]
    · cases hs

theorem run_items (hr : Runs.run step s ms = .ok s') :
    s'.items = (s.effects ms).foldl Write.edit s.items := by
  induction ms generalizing s with
  | nil =>
    cases hr
    rfl
  | cons m ms ih =>
    obtain ⟨s1, hs, hr⟩ := Runs.run_cons.mp hr
    rw [effects_cons hs, List.foldl_append, ← step_items hs]
    exact ih hr

/-! ## The order of the elements -/

/-- Whatever is pushed from now on comes after `k`. -/
structure Past (s : Sequence α) (k : Nat) : Prop where
  count : k < s.count
  asked : ∀ h n data, s.asked = some (h, .push n data) → k < n

/-- The elements are in the order in which they were asked for. -/
structure Numbered (s : Sequence α) : Prop where
  sorted : s.items.Pairwise fun x y => x.1 < y.1
  past : ∀ x ∈ s.items, s.Past x.1
  asked : ∀ h n data, s.asked = some (h, .push n data) → n < s.count

theorem numbered_empty : Numbered ({} : Sequence α) where
  sorted := .nil
  past := fun x hx => by cases hx
  asked := fun h n data ha => by cases ha

theorem Past.step (hp : s.Past k) (hs : s.step m = .ok s') : s'.Past k := by
  cases m with
  | ask h w =>
    cases w with
    | push n data =>
      simp only [Sequence.step] at hs
      split at hs
      · rename_i hn
        cases hs
        refine ⟨Nat.lt_succ_of_lt hp.count, fun h' n' data' ha => ?_⟩
        cases ha
        rw [hn.2]
        exact hp.count
      · cases hs
    | erase n =>
      simp only [Sequence.step] at hs
      split at hs <;> cases hs
      exact ⟨hp.count, fun h' n' data' ha => by cases ha⟩
  | effect h =>
    simp only [Sequence.step] at hs
    split at hs
    · split at hs <;> cases hs
      exact ⟨hp.count, fun h' n' data' ha => by cases ha⟩
    · cases hs

/-- A push that takes effect comes after all that it is past, and all later ones after it. -/
theorem Numbered.effect_push (hN : s.Numbered) (hs : s.step m = .ok s') {x : Nat × α}
    (hx : s.effect m = some (.push x.1 x.2)) :
    (∀ k, s.Past k → k < x.1) ∧ s'.Past x.1 := by
  cases m with
  | ask h w => cases hx
  | effect h =>
    simp only [Sequence.step] at hs
    split at hs
    · rename_i h' w ha
      split at hs <;> cases hs
      obtain rfl : w = .push x.1 x.2 := by
        simpa only [effect, ha, Option.map_some, Option.some.injEq] using hx
      exact ⟨fun k hk => hk.asked _ _ _ ha, hN.asked _ _ _ ha, fun h' n' data' ha => by cases ha⟩
    · cases hs

theorem Numbered.step (hN : s.Numbered) (hs : s.step m = .ok s') : s'.Numbered where
  sorted := by
    rw [step_items hs]
    cases he : s.effect m with
    | none => exact hN.sorted
    | some w =>
      cases w with
      | push n data =>
        refine List.pairwise_append.mpr ⟨hN.sorted, List.pairwise_singleton _ _, ?_⟩
        intro x hx y hy
        obtain rfl := List.mem_singleton.mp hy
        exact (hN.effect_push hs he).1 x.1 (hN.past x hx)
      | erase n => exact hN.sorted.filter _
  past x hx := by
    rw [step_items hs] at hx
    cases he : s.effect m with
    | none =>
      rw [he] at hx
      exact (hN.past x hx).step hs
    | some w =>
      rw [he] at hx
      cases w with
      | push n data =>
        rcases List.mem_append.mp hx with hx | hx
        · exact (hN.past x hx).step hs
        · obtain rfl := List.mem_singleton.mp hx
          exact (hN.effect_push hs he).2
      | erase n => exact (hN.past x (List.mem_filter.mp hx).1).step hs
  asked h n data ha := by
    cases m with
    | ask h' w =>
      cases w with
      | push n' data' =>
        simp only [Sequence.step] at hs
        split at hs
        · rename_i hn
          cases hs
          cases ha
          rw [hn.2]
          exact Nat.lt_succ_self _
        · cases hs
      | erase n' =>
        simp only [Sequence.step] at hs
        split at hs <;> cases hs
        cases ha
    | effect h' =>
      simp only [Sequence.step] at hs
      split at hs
      · split at hs <;> cases hs
        cases ha
      · cases hs

theorem pushed_effects_cons (hs : s.step m = .ok s') :
    Write.pushed (s.effects (m :: ms)) =
      ((s.effect m).bind Write.pushes).toList ++ Write.pushed (s'.effects ms) := by
  rw [effects_cons hs, Write.pushed, List.filterMap_append]
  cases s.effect m with
  | none => rfl
  | some w => cases w <;> rfl

theorem Numbered.pushed_past (hN : s.Numbered) (hr : Runs.run Sequence.step s ms = .ok s')
    (hk : s.Past k) : ∀ x ∈ Write.pushed (s.effects ms), k < x.1 := by
  induction ms generalizing s with
  | nil =>
    intro x hx
    cases hx
  | cons m ms ih =>
    obtain ⟨s1, hs, hr⟩ := Runs.run_cons.mp hr
    intro x hx
    rw [pushed_effects_cons hs] at hx
    rcases List.mem_append.mp hx with hx | hx
    · obtain ⟨w, hw, hp⟩ := Option.bind_eq_some_iff.mp (Option.mem_toList.mp hx)
      cases w with
      | push n data =>
        obtain rfl : (n, data) = x := Option.some.inj hp
        exact (hN.effect_push hs hw).1 k hk
      | erase n => cases hp
    · exact ih (hN.step hs) hr (hk.step hs) x hx

/-- What was in the list and what was pushed since is in one order. -/
theorem Numbered.known_sorted (hN : s.Numbered) (hr : Runs.run Sequence.step s ms = .ok s') :
    (s.items ++ Write.pushed (s.effects ms)).Pairwise fun x y => x.1 < y.1 := by
  refine List.pairwise_append.mpr ⟨hN.sorted, ?_, fun x hx => hN.pushed_past hr (hN.past x hx)⟩
  induction ms generalizing s with
  | nil => exact .nil
  | cons m ms ih =>
    obtain ⟨s1, hs, hr⟩ := Runs.run_cons.mp hr
    have hlater := ih (hN.step hs) hr
    rw [pushed_effects_cons hs]
    cases he : s.effect m with
    | none => exact hlater
    | some w =>
      cases w with
      | push n data =>
        exact hlater.cons fun x hx =>
          (hN.step hs).pushed_past hr (hN.effect_push (x := (n, data)) hs he).2 x hx
      | erase n => exact hlater

end Sequence

end CsSignal
