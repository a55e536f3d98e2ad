-- The cells that a pointer leads to along `next`. A change of a heap that opens no
-- new path hides no cell from whoever still walks through it.
import CsSignal.Lib.LinkedCells

namespace LinkedCells

variable {α : Type} {h h' : Heap α} {p e b q : Option Nat} {n m : Nat} {c : Node α}

/-! ## Paths -/

/-- From the pointer `p` on, the cell is met along `next`. -/
inductive Reaches (h : Heap α) : Option Nat → Nat → Prop
  | here {n : Nat} : Reaches h (some n) n
  | next {n m : Nat} {c : Node α} : h n = some c → Reaches h c.next m → Reaches h (some n) m

theorem not_reaches_none : ¬ Reaches h none m := fun hr => nomatch hr

theorem reaches_iff (hc : h n = some c) : Reaches h (some n) m ↔ m = n ∨ Reaches h c.next m := by
  constructor
  · intro hr
    cases hr with
    | here => exact Or.inl rfl
    | next hc' hr =>
      rw [hc, Option.some.injEq] at hc'
      subst hc'
      exact Or.inr hr
  · rintro (rfl | hr)
    · exact .here
    · exact .next hc hr

theorem Reaches.trans (h1 : Reaches h p n) (h2 : Reaches h (some n) m) : Reaches h p m := by
  induction h1 with
  | here => exact h2
  | next hc _ ih => exact .next hc (ih h2)

/-- The cells of a segment are met from its start. -/
theorem seg_reaches {xs : List (Nat × α)} {x : Nat × α} (hs : Seg h b p xs q e) (hx : x ∈ xs) :
    Reaches h p x.1 := by
  induction xs generalizing b p with
  | nil => cases hx
  | cons y ys ih =>
    obtain ⟨rfl, nx, hy, hs⟩ := hs
    rcases List.mem_cons.mp hx with rfl | hx
    · exact .here
    · exact .next hy (ih hs hx)

/-- From the start of a segment that leads nowhere no other cell is met. -/
theorem Reaches.mem_of_seg {xs : List (Nat × α)} (hr : Reaches h p m)
    (hs : Seg h b p xs q none) : m ∈ ids xs := by
  induction xs generalizing b p with
  | nil =>
    rw [hs.2] at hr
    exact absurd hr not_reaches_none
  | cons y ys ih =>
    obtain ⟨rfl, nx, hy, hs⟩ := hs
    rcases (reaches_iff hy).mp hr with rfl | hr
    · exact List.mem_cons_self
    · exact List.mem_cons_of_mem _ (ih hr hs)

/-! ## What lies ahead -/

/-- From the pointer `p` on, a cell is met whose data has the property. -/
def Ahead (h : Heap α) (p : Option Nat) (want : α → Bool) : Prop :=
  ∃ m c, Reaches h p m ∧ h m = some c ∧ want c.data = true

variable {want : α → Bool}

theorem not_ahead_none : ¬ Ahead h none want := fun ⟨_, _, hr, _⟩ => not_reaches_none hr

theorem ahead_iff (hc : h n = some c) :
    Ahead h (some n) want ↔ want c.data = true ∨ Ahead h c.next want := by
  constructor
  · rintro ⟨m, c', hr, hm, hw⟩
    rcases (reaches_iff hc).mp hr with rfl | hr
    · rw [hc, Option.some.injEq] at hm
      exact Or.inl (hm ▸ hw)
    · exact Or.inr ⟨m, c', hr, hm, hw⟩
  · rintro (hw | ⟨m, c', hr, hm, hw⟩)
    · exact ⟨n, c, .here, hc, hw⟩
    · exact ⟨m, c', .next hc hr, hm, hw⟩

/-- What lies ahead of the start of a segment that leads nowhere. -/
theorem ahead_seg_iff {xs : List (Nat × α)} (hs : Seg h b p xs q none) :
    Ahead h p want ↔ ∃ x ∈ xs, want x.2 = true := by
  constructor
  · rintro ⟨m, c, hr, hm, hw⟩
    obtain ⟨x, hx, rfl⟩ := List.mem_map.mp (hr.mem_of_seg hs)
    obtain ⟨c', hc', _, hdata⟩ := seg_cell hs hx
    rw [hm, Option.some.injEq] at hc'
    subst hc'
    exact ⟨x, hx, hdata ▸ hw⟩
  · rintro ⟨x, hx, hw⟩
    obtain ⟨c, hc, _, hdata⟩ := seg_cell hs hx
    exact ⟨x.1, c, seg_reaches hs hx, hc, hdata ▸ hw⟩

/-- A walk that came to its end has met all that lies ahead. -/
theorem not_ahead_of_walk {fuel : Nat} (hlen : (walk h fuel p).length < fuel)
    (hw : ∀ x ∈ walk h fuel p, want x.2 = false) : ¬ Ahead h p want := by
  induction fuel generalizing p with
  | zero => cases hlen
  | succ fuel ih =>
    cases p with
    | none => exact not_ahead_none
    | some n =>
      cases hc : h n with
      | none =>
        rintro ⟨m, c, hr, hm, _⟩
        cases hr with
        | here =>
          rw [hc] at hm
          cases hm
        | next hc' _ =>
          rw [hc] at hc'
          cases hc'
      | some c =>
        simp only [walk, hc, List.length_cons, List.mem_cons, forall_eq_or_imp] at hlen hw
        rw [ahead_iff hc, not_or]
        exact ⟨by simp [hw.1], ih (by omega) hw.2⟩

/-! ## Changes that open no path -/

/-- The heap `h'` has the cells of `h`, with their data, and no path that `h` has not. -/
structure Narrows (h h' : Heap α) : Prop where
  kept : ∀ {n c}, h n = some c → ∃ c', h' n = some c' ∧ c'.data = c.data
  cell : ∀ {n c'}, h' n = some c' → ∃ c, h n = some c ∧ (c'.deleted = false → c.deleted = false) ∧
    ∀ m, c'.next = some m → Reaches h c.next m

theorem Narrows.refl (h : Heap α) : Narrows h h where
  kept hc := ⟨_, hc, rfl⟩
  cell hc := ⟨_, hc, id, fun _ hm => hm ▸ .here⟩

theorem Narrows.reaches (hn : Narrows h h') (hr : Reaches h' p m) : Reaches h p m := by
  induction hr with
  | here => exact .here
  | @next k m c' hc' hr ih =>
    obtain ⟨c, hc, _, hnext⟩ := hn.cell hc'
    cases hp : c'.next with
    | none =>
      rw [hp] at hr
      exact absurd hr not_reaches_none
    | some j =>
      rw [hp] at ih
      exact .next hc ((hnext j hp).trans ih)

theorem Narrows.ahead (hn : Narrows h h') (ha : Ahead h' p want) : Ahead h p want := by
  obtain ⟨m, c', hr, hm, hw⟩ := ha
  obtain ⟨c, hc, _⟩ := hn.cell hm
  obtain ⟨c1, hc1, hdata⟩ := hn.kept hc
  rw [hm, Option.some.injEq] at hc1
  subst hc1
  exact ⟨m, c, hn.reaches hr, hc, hdata ▸ hw⟩

theorem putNext_cell {k : Nat} {v : Option Nat} (hc : putNext h k v n = some c) :
    ∃ c0, h n = some c0 ∧ c.data = c0.data ∧ c.deleted = c0.deleted ∧
      (c.next = c0.next ∨ k = n ∧ c.next = v) := by
  by_cases hk : n = k
  · subst hk
    simp only [putNext, Function.update_self, Option.map_eq_some_iff] at hc
    obtain ⟨c0, hc0, rfl⟩ := hc
    exact ⟨c0, hc0, rfl, rfl, Or.inr ⟨rfl, rfl⟩⟩
  · rw [putNext_ne hk] at hc
    exact ⟨c, hc, rfl, rfl, Or.inl rfl⟩

theorem putBack_cell {k : Nat} {v : Option Nat} (hc : putBack h k v n = some c) :
    ∃ c0, h n = some c0 ∧ c.data = c0.data ∧ c.deleted = c0.deleted ∧ c.next = c0.next := by
  by_cases hk : n = k
  · subst hk
    simp only [putBack, Function.update_self, Option.map_eq_some_iff] at hc
    obtain ⟨c0, hc0, rfl⟩ := hc
    exact ⟨c0, hc0, rfl, rfl, rfl⟩
  · rw [putBack_ne hk] at hc
    exact ⟨c, hc, rfl, rfl, rfl⟩

/-- What lay ahead of a cell before. -/
theorem Narrows.ahead_next {c' : Node α} (hn : Narrows h h') (hc : h n = some c)
    (hc' : h' n = some c') (ha : Ahead h' c'.next want) : Ahead h c.next want := by
  obtain ⟨c0, hc0, _, hnext⟩ := hn.cell hc'
  rw [hc, Option.some.injEq] at hc0
  subst hc0
  obtain ⟨m, c1, hr, hm, hw⟩ := hn.ahead ha
  cases hp : c'.next with
  | none =>
    rw [hp] at hr
    exact absurd hr not_reaches_none
  | some j =>
    rw [hp] at hr
    exact ⟨m, c1, (hnext j hp).trans hr, hm, hw⟩

/-! ## An unlink -/

/-- What the two stores of an unlink can do to a cell. -/
theorem bridge_cell {bk nx : Option Nat} (hc : bridge h bk nx n = some c) :
    ∃ c0, h n = some c0 ∧ c.data = c0.data ∧ c.deleted = c0.deleted ∧
      (c.next = c0.next ∨ bk = some n ∧ c.next = nx) := by
  unfold bridge at hc
  cases bk with
  | none =>
    cases nx with
    | none => exact ⟨c, hc, rfl, rfl, Or.inl rfl⟩
    | some k =>
      obtain ⟨c0, hc0, hdata, hdel, hnext⟩ := putBack_cell hc
      exact ⟨c0, hc0, hdata, hdel, Or.inl hnext⟩
  | some j =>
    -- the store to `back` comes last
    obtain ⟨c1, hc1, hdata, hdel, hnext⟩ : ∃ c1, putNext h j nx n = some c1 ∧
        c.data = c1.data ∧ c.deleted = c1.deleted ∧ c.next = c1.next := by
      cases nx with
      | none => exact ⟨c, hc, rfl, rfl, rfl⟩
      | some k => exact putBack_cell hc
    rw [hdata, hdel, hnext, Option.some.injEq]
    exact putNext_cell hc1

theorem bridge_kept (bk nx : Option Nat) {c0 : Node α} (hc : h n = some c0) :
    ∃ c, bridge h bk nx n = some c ∧ c.data = c0.data := by
  unfold bridge
  have hnext : ∀ (g : Heap α) (c1 : Node α) (k : Nat) (v : Option Nat), g n = some c1 →
      ∃ c2, putNext g k v n = some c2 ∧ c2.data = c1.data := by
    intro g c1 k v hg
    by_cases hk : n = k
    · subst hk
      exact ⟨_, putNext_self hg, rfl⟩
    · exact ⟨c1, (putNext_ne hk).trans hg, rfl⟩
  have hback : ∀ (g : Heap α) (c1 : Node α) (k : Nat) (v : Option Nat), g n = some c1 →
      ∃ c2, putBack g k v n = some c2 ∧ c2.data = c1.data := by
    intro g c1 k v hg
    by_cases hk : n = k
    · subst hk
      exact ⟨_, putBack_self hg, rfl⟩
    · exact ⟨c1, (putBack_ne hk).trans hg, rfl⟩
  cases bk with
  | none =>
    cases nx with
    | none => exact ⟨c0, hc, rfl⟩
    | some k => exact hback h c0 k none hc
  | some j =>
    obtain ⟨c1, hc1, hdata⟩ := hnext h c0 j nx hc
    cases nx with
    | none => exact ⟨c1, hc1, hdata⟩
    | some k =>
      obtain ⟨c2, hc2, hdata2⟩ := hback _ c1 k (some j) hc1
      exact ⟨c2, hc2, hdata2.trans hdata⟩

/-- What holds of the first cell of a path and goes on along `next` holds of all. -/
theorem Reaches.closed {P : Nat → Prop} (hr : Reaches h p m) (hp : ∀ n, p = some n → P n)
    (hstep : ∀ n c, P n → h n = some c → ∀ y, c.next = some y → P y) : P m := by
  induction hr with
  | here => exact hp _ rfl
  | @next n m c hc _ ih => exact ih (hstep n c (hp n rfl) hc)

/-! ## Paths that climb -/

/-- Every cell that is met from the pointer on is there, below the bound, and
leads to a later one. -/
def Climbs (h : Heap α) (k : Nat) (p : Option Nat) : Prop :=
  ∀ n, Reaches h p n → ∃ c, h n = some c ∧ n < k ∧ ∀ y, c.next = some y → n < y

theorem Climbs.tail {k : Nat} (hs : Climbs h k (some n)) (hc : h n = some c) :
    Climbs h k c.next := fun m hm => hs m (.next hc hm)

/-- A path that climbs comes to its end. -/
theorem Climbs.induct {k : Nat} {P : Option Nat → Prop} (hs : Climbs h k p) (hnone : P none)
    (hnext : ∀ n c, Climbs h k (some n) → h n = some c → P c.next → P (some n)) : P p := by
  have hall : ∀ d n, k ≤ n + d → Climbs h k (some n) → P (some n) := by
    intro d
    induction d with
    | zero =>
      intro n hd hs
      obtain ⟨_, _, hlt, _⟩ := hs n .here
      omega
    | succ d ih =>
      intro n hd hs
      obtain ⟨c, hc, _, hlater⟩ := hs n .here
      refine hnext n c hs hc ?_
      cases hy : c.next with
      | none => exact hnone
      | some y =>
        have := hlater y hy
        exact ih y (by omega) (hy ▸ hs.tail hc)
  cases p with
  | none => exact hnone
  | some n => exact hall k n (Nat.le_add_left _ _) hs

/-- The first cell of a path that climbs is the lowest. -/
theorem Climbs.le {k : Nat} (hs : Climbs h k p) (hr : Reaches h p m) :
    ∀ y, p = some y → y ≤ m := by
  induction hr with
  | here => exact fun y hy => Nat.le_of_eq (Option.some.inj hy).symm
  | @next n m c hc hr ih =>
    intro y hy
    rw [← Option.some.inj hy]
    cases hz : c.next with
    | none =>
      rw [hz] at hr
      exact absurd hr not_reaches_none
    | some z =>
      obtain ⟨c', hc', _, hlater⟩ := hs n .here
      obtain rfl : c' = c := Option.some.inj (hc'.symm.trans hc)
      exact Nat.le_trans (Nat.le_of_lt (hlater z hz)) (ih (hs.tail hc) z hz)

/-- What comes after a cell is higher. -/
theorem Climbs.lt_of_tail {k : Nat} (hs : Climbs h k (some n)) (hc : h n = some c)
    (hr : Reaches h c.next m) : n < m := by
  cases hy : c.next with
  | none =>
    rw [hy] at hr
    exact absurd hr not_reaches_none
  | some y =>
    obtain ⟨c', hc', _, hlater⟩ := hs n .here
    obtain rfl : c' = c := Option.some.inj (hc'.symm.trans hc)
    exact Nat.lt_of_lt_of_le (hlater y hy) ((hs.tail hc).le hr y hy)

/-- The first cell of a path that climbs is not met again. -/
theorem Climbs.not_reaches_tail {k : Nat} (hs : Climbs h k (some n)) (hc : h n = some c) :
    ¬ Reaches h c.next n := fun hr => Nat.lt_irrefl n (hs.lt_of_tail hc hr)

/-- A walk with enough fuel meets the cells of the path. -/
theorem Climbs.mem_walk_iff {k fuel : Nat} (hs : Climbs h k p)
    (hf : ∀ n, p = some n → k ≤ n + fuel) : m ∈ ids (walk h fuel p) ↔ Reaches h p m := by
  induction fuel generalizing p with
  | zero =>
    cases p with
    | none => exact iff_of_false List.not_mem_nil not_reaches_none
    | some n =>
      obtain ⟨_, _, hlt, _⟩ := hs n .here
      have := hf n rfl
      omega
  | succ fuel ih =>
    cases p with
    | none => exact iff_of_false List.not_mem_nil not_reaches_none
    | some n =>
      obtain ⟨c, hc, _, hlater⟩ := hs n .here
      rw [reaches_iff hc, ← ih (hs.tail hc) fun y hy => by
        have := hlater y hy
        have := hf n rfl
        omega]
      simp [walk, hc]

/-- A walk along a path that climbs meets higher and higher cells. -/
theorem Climbs.walk_sorted {k fuel : Nat} (hs : Climbs h k p)
    (hf : ∀ n, p = some n → k ≤ n + fuel) : (ids (walk h fuel p)).Pairwise (· < ·) := by
  induction fuel generalizing p with
  | zero => exact .nil
  | succ fuel ih =>
    cases p with
    | none => exact .nil
    | some n =>
      obtain ⟨c, hc, _, hlater⟩ := hs n .here
      have hf' : ∀ y, c.next = some y → k ≤ y + fuel := fun y hy => by
        have := hlater y hy
        have := hf n rfl
        omega
      simp only [walk, hc, ids, List.map_cons]
      exact .cons (fun y hy => hs.lt_of_tail hc (((hs.tail hc).mem_walk_iff hf').mp hy))
        (ih (hs.tail hc) hf')

/-! ## What a walk meets -/

/-- From `p` the cells `xs` follow each other along `next`, and the last one leads to
`e`; whatever their `back` pointers and their marks are. -/
def Leads (h : Heap α) : Option Nat → List (Nat × α) → Option Nat → Prop
  | p, [], e => p = e
  | p, x :: xs, e => p = some x.1 ∧ ∃ c, h x.1 = some c ∧ c.data = x.2 ∧ Leads h c.next xs e

section

variable {xs ys : List (Nat × α)}

theorem seg_leads (hs : Seg h b p xs q e) : Leads h p xs e := by
  induction xs generalizing b p with
  | nil => exact hs.2
  | cons x xs ih =>
    obtain ⟨hp, nx, hx, hs⟩ := hs
    exact ⟨hp, _, hx, rfl, ih hs⟩

theorem leads_append : Leads h p (xs ++ ys) e ↔ ∃ e', Leads h p xs e' ∧ Leads h e' ys e := by
  induction xs generalizing p with
  | nil => simp [Leads]
  | cons x xs ih =>
    simp only [List.cons_append, Leads, ih]
    constructor
    · rintro ⟨hp, c, hc, hd, e', h1, h2⟩
      exact ⟨e', ⟨hp, c, hc, hd, h1⟩, h2⟩
    · rintro ⟨e', ⟨hp, c, hc, hd, h1⟩, h2⟩
      exact ⟨hp, c, hc, hd, e', h1, h2⟩

/-- Only the `next` pointers and the data of the cells count. -/
theorem Leads.congr (hl : Leads h p xs e) (hh : ∀ n ∈ ids xs, ∀ c, h n = some c →
    ∃ c', h' n = some c' ∧ c'.next = c.next ∧ c'.data = c.data) : Leads h' p xs e := by
  induction xs generalizing p with
  | nil => exact hl
  | cons x xs ih =>
    obtain ⟨hp, c, hc, hd, hl⟩ := hl
    obtain ⟨c', hc', hnext, hdata⟩ := hh x.1 List.mem_cons_self c hc
    refine ⟨hp, c', hc', hdata.trans hd, ?_⟩
    rw [hnext]
    exact ih hl fun n hn => hh n (List.mem_cons_of_mem _ hn)

theorem Leads.reaches (hl : Leads h p xs e) (hn : n ∈ ids xs) : Reaches h p n := by
  induction xs generalizing p with
  | nil => cases hn
  | cons x xs ih =>
    obtain ⟨rfl, c, hc, _, hl⟩ := hl
    rcases List.mem_cons.mp hn with rfl | hn
    · exact .here
    · exact .next hc (ih hl hn)

theorem Leads.cell {x : Nat × α} (hl : Leads h p xs e) (hx : x ∈ xs) :
    ∃ c, h x.1 = some c ∧ c.data = x.2 := by
  induction xs generalizing p with
  | nil => cases hx
  | cons y xs ih =>
    obtain ⟨_, c, hc, hd, hl⟩ := hl
    rcases List.mem_cons.mp hx with rfl | hx
    · exact ⟨c, hc, hd⟩
    · exact ih hl hx

theorem Leads.unique (hx : Leads h p xs none) (hy : Leads h p ys none) : xs = ys := by
  induction xs generalizing p ys with
  | nil =>
    cases ys with
    | nil => rfl
    | cons y ys =>
      obtain rfl : p = none := hx
      cases hy.1
  | cons x xs ih =>
    obtain ⟨rfl, c, hc, hd, hx⟩ := hx
    cases ys with
    | nil => cases (show some x.1 = none from hy)
    | cons y ys =>
      obtain ⟨hp, c', hc', hd', hy⟩ := hy
      obtain hid : x.1 = y.1 := Option.some.inj hp
      rw [← hid, hc, Option.some.injEq] at hc'
      subst hc'
      rw [ih hx hy, Prod.ext hid (hd.symm.trans hd')]

/-- A walk with enough fuel comes to the end of a path that climbs. -/
theorem Climbs.leads {k fuel : Nat} (hs : Climbs h k p) (hf : ∀ n, p = some n → k ≤ n + fuel) :
    Leads h p (walk h fuel p) none := by
  induction fuel generalizing p with
  | zero =>
    cases p with
    | none => rfl
    | some n =>
      obtain ⟨_, _, hlt, _⟩ := hs n .here
      have := hf n rfl
      omega
  | succ fuel ih =>
    cases p with
    | none => rfl
    | some n =>
      obtain ⟨c, hc, _, hlater⟩ := hs n .here
      simp only [walk, hc]
      refine ⟨rfl, c, hc, rfl, ih (hs.tail hc) fun y hy => ?_⟩
      have := hlater y hy
      have := hf n rfl
      omega

end

end LinkedCells
