-- Threads that take mutexes in an order. A thread that asks for a mutex only while it
-- holds lower ones never asks for one that it holds, and no threads wait in a cycle.
import Mathlib.Logic.Relation

namespace LockOrder

variable {T L : Type} {wants : T → Option L} {owner : L → Option T} {rank : L → Nat}

/-- The first thread waits for a mutex that the second one holds. -/
def Waits (wants : T → Option L) (owner : L → Option T) (t t' : T) : Prop :=
  ∃ m, wants t = some m ∧ owner m = some t'

/-- Every thread that asks for a mutex holds lower ones only. -/
def Ordered (wants : T → Option L) (owner : L → Option T) (rank : L → Nat) : Prop :=
  ∀ t m m', wants t = some m → owner m' = some t → rank m' < rank m

theorem Ordered.not_owner (h : Ordered wants owner rank) {t : T} {m : L} (hw : wants t = some m) :
    owner m ≠ some t := by
  intro ho
  have hlt := h t m m hw ho
  omega

/-- Along the waits the mutexes rise. -/
theorem Ordered.rises (h : Ordered wants owner rank) {t t' : T}
    (hw : Relation.TransGen (Waits wants owner) t t') :
    ∃ m, wants t = some m ∧ ∀ m', wants t' = some m' → rank m < rank m' := by
  induction hw with
  | single hw =>
    obtain ⟨m, hm, ho⟩ := hw
    exact ⟨m, hm, fun m' hm' => h _ m' m hm' ho⟩
  | tail _ hw ih =>
    obtain ⟨m, hm, hlt⟩ := ih
    obtain ⟨m1, hm1, ho⟩ := hw
    refine ⟨m, hm, fun m' hm' => ?_⟩
    have h1 := hlt m1 hm1
    have h2 := h _ m' m1 hm' ho
    omega

theorem Ordered.no_cycle (h : Ordered wants owner rank) (t : T) :
    ¬ Relation.TransGen (Waits wants owner) t t := by
  intro hw
  obtain ⟨m, hm, hlt⟩ := h.rises hw
  have := hlt m hm
  omega

end LockOrder
