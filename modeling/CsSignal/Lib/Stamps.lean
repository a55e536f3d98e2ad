-- A stack whose entries carry the time of their push. Which entries are there is
-- a relation between entries and times, so a push adds a pair and a removal
-- anywhere in the stack takes one out.
import Mathlib.Order.Lattice

namespace Stamps

variable {ι τ : Type} [LinearOrder τ]

/-- `Leads R t p`: of the entries that are older than `t`, the newest is `p`. -/
def Leads (R : ι → τ → Prop) (t : τ) : Option ι → Prop
  | none => ∀ e u, R e u → t ≤ u
  | some f => ∃ u, R f u ∧ u < t ∧ ∀ e v, R e v → v < t → v ≤ u

variable {R R' : ι → τ → Prop} {t : τ} {p : Option ι}

theorem Leads.congr (hR : ∀ e u, R' e u ↔ R e u) (h : Leads R t p) : Leads R' t p := by
  have : R' = R := by
    funext e u
    exact propext (hR e u)
  rw [this]
  exact h

/-- A push is newer than all that was there. -/
theorem Leads.push {z : ι} {s : τ} (hR : ∀ e u, R' e u ↔ R e u ∨ e = z ∧ u = s) (hs : t ≤ s)
    (h : Leads R t p) : Leads R' t p := by
  cases p with
  | none =>
    intro e u he
    rcases (hR e u).mp he with he | ⟨_, rfl⟩
    · exact h e u he
    · exact hs
  | some f =>
    obtain ⟨u, hf, hu, hmax⟩ := h
    refine ⟨u, (hR f u).mpr (Or.inl hf), hu, fun e v he hv => ?_⟩
    rcases (hR e v).mp he with he | ⟨_, rfl⟩
    · exact hmax e v he hv
    · exact absurd hv (not_lt.mpr hs)

theorem leads_top {z : ι} {s : τ} (hR : ∀ e u, R' e u ↔ R e u ∨ e = z ∧ u = s)
    (hold : ∀ e u, R e u → u < s) (hs : s < t) : Leads R' t (some z) := by
  refine ⟨s, (hR z s).mpr (Or.inr ⟨rfl, rfl⟩), hs, fun e v he _ => ?_⟩
  rcases (hR e v).mp he with he | ⟨_, rfl⟩
  · exact le_of_lt (hold e v he)
  · exact le_refl _

/-- An entry goes that the pointer does not lead to. -/
theorem Leads.remove {m : ι} (hR : ∀ e u, R' e u ↔ R e u ∧ e ≠ m) (hp : p ≠ some m)
    (h : Leads R t p) : Leads R' t p := by
  cases p with
  | none => exact fun e u he => h e u ((hR e u).mp he).1
  | some f =>
    obtain ⟨u, hf, hu, hmax⟩ := h
    exact ⟨u, (hR f u).mpr ⟨hf, fun he => hp (congrArg some he)⟩, hu, fun e v he hv =>
      hmax e v ((hR e v).mp he).1 hv⟩

/-- The entry goes that the pointer leads to, and the pointer moves on with it. -/
theorem Leads.skip {m : ι} {u : τ} {q : Option ι} (hR : ∀ e u, R' e u ↔ R e u ∧ e ≠ m)
    (hinj : ∀ e e' v, R e v → R e' v → e = e') (hfun : ∀ e v w, R e v → R e w → v = w)
    (hm : R m u) (hu : u < t)
    (hmax : ∀ e v, R e v → v < t → v ≤ u) (hq : Leads R u q) : Leads R' t q := by
  have hlt : ∀ e v, R e v → e ≠ m → v < t → v < u := fun e v he hne hv =>
    lt_of_le_of_ne (hmax e v he hv) fun h => hne (hinj e m u (h ▸ he) hm)
  cases q with
  | none =>
    intro e v he
    obtain ⟨he, hne⟩ := (hR e v).mp he
    by_contra hv
    exact absurd (hlt e v he hne (not_le.mp hv)) (not_lt.mpr (hq e v he))
  | some f =>
    obtain ⟨w, hf, hw, hmax'⟩ := hq
    refine ⟨w, (hR f w).mpr ⟨hf, ?_⟩, lt_trans hw hu, fun e v he hv => ?_⟩
    · rintro rfl
      exact absurd (hfun f w u hf hm ▸ hw) (lt_irrefl u)
    · obtain ⟨he, hne⟩ := (hR e v).mp he
      exact hmax' e v he (hlt e v he hne hv)

end Stamps
