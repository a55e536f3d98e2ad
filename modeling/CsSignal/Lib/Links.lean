-- Links from sources to targets. Every source has its links in order, and a link
-- leads to one target. How the operations on them compose.
import Mathlib.Data.List.Basic
import Mathlib.Logic.Function.Basic

namespace Links

/-- The sources and the targets that are there, and the links of each source. -/
@[ext]
structure Net (σ τ κ : Type) where
  source : σ → Bool
  target : τ → Bool
  links : σ → List κ

variable {σ τ κ : Type}

namespace Net

def empty : Net σ τ κ := ⟨fun _ => false, fun _ => false, fun _ => []⟩

section Source

variable [DecidableEq σ]

def addSource (n : Net σ τ κ) (s : σ) : Net σ τ κ :=
  { n with source := Function.update n.source s true }

/-- A new link, after those of its source. -/
def link (n : Net σ τ κ) (s : σ) (k : κ) : Net σ τ κ :=
  { n with links := Function.update n.links s (n.links s ++ [k]) }

/-- The links of a source that have the property go. -/
def cut (n : Net σ τ κ) (s : σ) (p : κ → Bool) : Net σ τ κ :=
  { n with links := Function.update n.links s ((n.links s).filter fun k => !p k) }

/-- A source goes, with its links. -/
def dropSource (n : Net σ τ κ) (s : σ) : Net σ τ κ :=
  { n with source := Function.update n.source s false, links := Function.update n.links s [] }

end Source

section Target

variable [DecidableEq τ]

def addTarget (n : Net σ τ κ) (t : τ) : Net σ τ κ :=
  { n with target := Function.update n.target t true }

/-- A target goes, with the links that lead to it. -/
def dropTarget (goal : κ → τ) (n : Net σ τ κ) (t : τ) : Net σ τ κ :=
  { n with
    target := Function.update n.target t false
    links := fun s => (n.links s).filter fun k => !(goal k == t) }

/-- How many links lead from the source to the target. -/
def between (goal : κ → τ) (n : Net σ τ κ) (s : σ) (t : τ) : Nat :=
  (n.links s).countP fun k => goal k == t

end Target

/-! ## No link hangs -/

/-- Every link is one of a source that is there, to a target that is there. -/
structure Closed (goal : κ → τ) (n : Net σ τ κ) : Prop where
  source : ∀ s, n.source s = false → n.links s = []
  target : ∀ s, ∀ k ∈ n.links s, n.target (goal k) = true

variable {goal : κ → τ} {n : Net σ τ κ}

section Source

variable [DecidableEq σ]

theorem Closed.addSource (h : n.Closed goal) (s : σ) : (n.addSource s).Closed goal := by
  refine ⟨fun s' hs' => h.source s' ?_, h.target⟩
  by_cases hss : s' = s
  · subst hss
    simp [Net.addSource] at hs'
  · simpa [Net.addSource, hss] using hs'

theorem Closed.link (h : n.Closed goal) {s : σ} {k : κ} (hs : n.source s = true)
    (ht : n.target (goal k) = true) : (n.link s k).Closed goal := by
  refine ⟨fun s' hs' => ?_, fun s' k' hk' => ?_⟩
  · have hss : s' ≠ s := by
      rintro rfl
      rw [show (n.link s' k).source s' = n.source s' from rfl, hs] at hs'
      cases hs'
    simpa [Net.link, hss] using h.source s' hs'
  · by_cases hss : s' = s
    · subst hss
      simp only [Net.link, Function.update_self, List.mem_append, List.mem_singleton] at hk'
      rcases hk' with hk' | rfl
      · exact h.target s' k' hk'
      · exact ht
    · simp only [Net.link, Function.update_of_ne hss] at hk'
      exact h.target s' k' hk'

theorem Closed.cut (h : n.Closed goal) (s : σ) (p : κ → Bool) : (n.cut s p).Closed goal := by
  have hsub : ∀ s', ((n.cut s p).links s').Sublist (n.links s') := by
    intro s'
    by_cases hss : s' = s
    · subst hss
      simp only [Net.cut, Function.update_self]
      exact List.filter_sublist
    · simp only [Net.cut, Function.update_of_ne hss]
      exact List.Sublist.refl _
  refine ⟨fun s' hs' => ?_, fun s' k hk => h.target s' k ((hsub s').subset hk)⟩
  have := hsub s'
  rwa [h.source s' hs', List.sublist_nil] at this

theorem Closed.dropSource (h : n.Closed goal) (s : σ) : (n.dropSource s).Closed goal := by
  refine ⟨fun s' hs' => ?_, fun s' k hk => ?_⟩
  · by_cases hss : s' = s
    · subst hss
      simp [Net.dropSource]
    · simp only [Net.dropSource, Function.update_of_ne hss] at hs' ⊢
      exact h.source s' hs'
  · by_cases hss : s' = s
    · subst hss
      simp [Net.dropSource] at hk
    · simp only [Net.dropSource, Function.update_of_ne hss] at hk ⊢
      exact h.target s' k hk

end Source

section Target

variable [DecidableEq τ]

theorem Closed.addTarget (h : n.Closed goal) (t : τ) : (n.addTarget t).Closed goal := by
  refine ⟨h.source, fun s k hk => ?_⟩
  have ht := h.target s k hk
  by_cases htt : goal k = t
  · simp [Net.addTarget, htt]
  · simpa [Net.addTarget, htt] using ht

theorem Closed.dropTarget (h : n.Closed goal) (t : τ) : (n.dropTarget goal t).Closed goal := by
  refine ⟨fun s hs => ?_, fun s k hk => ?_⟩
  · simp only [Net.dropTarget]
    rw [h.source s hs, List.filter_nil]
  · simp only [Net.dropTarget, List.mem_filter, Bool.not_eq_true', beq_eq_false_iff_ne] at hk ⊢
    rw [Function.update_of_ne hk.2]
    exact h.target s k hk.1

end Target

/-! ## What undoes a link, and what makes it pointless -/

variable [DecidableEq σ]

/-- To cut takes a new link back exactly when it takes the new one and no other. -/
theorem cut_link_iff (s : σ) (k : κ) (p : κ → Bool) :
    (n.link s k).cut s p = n ↔ p k = true ∧ ∀ x ∈ n.links s, p x = false := by
  have hlinks : (n.link s k).cut s p = n ↔
      (n.links s ++ [k]).filter (fun x => !p x) = n.links s := by
    constructor
    · intro h
      have := congrFun (congrArg Net.links h) s
      simpa [Net.cut, Net.link] using this
    · intro h
      simp only [Net.cut, Net.link, Function.update_self, h, Function.update_idem,
        Function.update_eq_self]
  rw [hlinks]
  constructor
  · intro h
    have hall : ∀ x ∈ n.links s, p x = false := by
      intro x hx
      rw [← h, List.mem_filter] at hx
      simpa using hx.2
    have hself : (n.links s).filter (fun x => !p x) = n.links s :=
      List.filter_eq_self.mpr fun x hx => by simp [hall x hx]
    refine ⟨?_, hall⟩
    by_contra hk
    rw [Bool.not_eq_true] at hk
    have := congrArg List.length h
    simp [List.filter_append, hself, hk] at this
  · rintro ⟨hk, hall⟩
    have hself : (n.links s).filter (fun x => !p x) = n.links s :=
      List.filter_eq_self.mpr fun x hx => by simp [hall x hx]
    simp [List.filter_append, hself, hk]

theorem dropSource_link (s : σ) (k : κ) : (n.link s k).dropSource s = n.dropSource s := by
  simp [Net.dropSource, Net.link]

theorem dropSource_cut (s : σ) (p : κ → Bool) : (n.cut s p).dropSource s = n.dropSource s := by
  simp [Net.dropSource, Net.cut]

theorem cut_all_link (s : σ) (k : κ) :
    (n.link s k).cut s (fun _ => true) = n.cut s fun _ => true := by
  simp [Net.cut, Net.link]

theorem cut_all_cut (s : σ) (p : κ → Bool) :
    (n.cut s p).cut s (fun _ => true) = n.cut s fun _ => true := by
  simp [Net.cut]

variable [DecidableEq τ]

theorem dropTarget_link (s : σ) {k : κ} {t : τ} (hk : goal k = t) :
    (n.link s k).dropTarget goal t = n.dropTarget goal t := by
  refine Net.ext rfl rfl (funext fun s' => ?_)
  by_cases hss : s' = s
  · subst hss
    simp [Net.dropTarget, Net.link, hk]
  · simp [Net.dropTarget, Net.link, Function.update_of_ne hss]

theorem dropTarget_cut (s : σ) {p : κ → Bool} {t : τ} (hp : ∀ k, p k = true → goal k = t) :
    (n.cut s p).dropTarget goal t = n.dropTarget goal t := by
  refine Net.ext rfl rfl (funext fun s' => ?_)
  by_cases hss : s' = s
  · subst hss
    simp only [Net.dropTarget, Net.cut, Function.update_self, List.filter_filter]
    refine List.filter_congr fun k _ => ?_
    by_cases hk : p k = true
    · simp [hp k hk]
    · simp [hk]
  · simp [Net.dropTarget, Net.cut, Function.update_of_ne hss]

end Net

end Links
