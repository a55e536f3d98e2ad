-- A walk along `next` through a list that others edit meanwhile. Cells are allocated
-- at rising addresses, and an edit moves the pointer of a cell of the list only. So
-- the cells that were in the list since the walk began lead to one another, and pass
-- over no cell that is in the list all along.
import CsSignal.Lib.Paths

namespace LinkedCells

variable {α : Type} {h h' : Heap α} {p p' : Option Nat} {n m k k' : Nat} {c : Node α}
  {seen always seen' always' : Nat → Prop}

/-! ## Rising addresses -/

/-- Every cell leads to a greater address. -/
def Ascends (h : Heap α) : Prop := ∀ n c m, h n = some c → c.next = some m → n < m

theorem Ascends.le (ha : Ascends h) (hr : Reaches h p m) (hp : p = some n) : n ≤ m := by
  induction hr generalizing n with
  | here =>
    cases hp
    exact Nat.le_refl _
  | @next j m c hc hr ih =>
    cases hp
    cases hnext : c.next with
    | none =>
      rw [hnext] at hr
      exact absurd hr not_reaches_none
    | some y =>
      have h1 := ha _ c y hc hnext
      have h2 := ih hnext
      omega

theorem Ascends.lt (ha : Ascends h) (hc : h n = some c) (hr : Reaches h c.next m) : n < m := by
  cases hnext : c.next with
  | none =>
    rw [hnext] at hr
    exact absurd hr not_reaches_none
  | some y =>
    have h1 := ha n c y hc hnext
    have h2 := ha.le hr hnext
    omega

/-- Of two cells of a list one leads to the other. -/
theorem Reaches.linear (hn : Reaches h p n) (hm : Reaches h p m) :
    Reaches h (some n) m ∨ Reaches h (some m) n := by
  induction hn with
  | here => exact Or.inl hm
  | @next j n c hc hr ih =>
    rcases (reaches_iff hc).mp hm with rfl | hm
    · exact Or.inr (.next hc hr)
    · exact ih hm

/-- Of two cells of a list the lesser one comes first. -/
theorem Ascends.before (ha : Ascends h) (hn : Reaches h p n) (hm : Reaches h p m) (hlt : n < m) :
    ∃ c, h n = some c ∧ Reaches h c.next m := by
  rcases hn.linear hm with hr | hr
  · cases hr with
    | here => exact absurd hlt (Nat.lt_irrefl _)
    | next hc hr => exact ⟨_, hc, hr⟩
  · exact absurd (ha.le hr rfl) (Nat.not_le.mpr hlt)

/-- The path to a cell does not use the pointer of that cell. -/
theorem Reaches.upto (hh : ∀ m, m ≠ n → h' m = h m) (hr : Reaches h p n) : Reaches h' p n := by
  induction hr with
  | here => exact .here
  | @next j n c hc _ ih =>
    by_cases hj : j = n
    · rw [hj]
      exact .here
    · exact .next ((hh j hj).trans hc) (ih hh)

/-- The last cell of a segment is met, and it leads out of the segment. -/
theorem seg_end {xs : List (Nat × α)} {e : Option Nat} (hs : Seg h none p xs (some k) e) :
    Reaches h p k ∧ ∃ c, h k = some c ∧ c.next = e := by
  rcases List.eq_nil_or_concat xs with rfl | ⟨ys, x, rfl⟩
  · cases hs.1
  · rw [List.concat_eq_append] at hs
    obtain ⟨_, _, _, _, nx, hx, hq, rfl⟩ := seg_append.mp hs
    obtain rfl := Option.some.inj hq
    exact ⟨seg_reaches hs (by simp), _, hx, rfl⟩

/-! ## Edits -/

/-- A change of the list at `p'` that allocates the addresses from `k` to `k'`. A cell
keeps its pointer, or it is new and leads nowhere, or it is in the list and leads upward. -/
structure Edit (h h' : Heap α) (p' : Option Nat) (k k' : Nat) : Prop where
  count : k ≤ k'
  cell : ∀ n c', h' n = some c' → (∃ c, h n = some c ∧ c'.next = c.next) ∨
    k ≤ n ∧ c'.next = none ∨ Reaches h' p' n ∧ ∀ m, c'.next = some m → n < m

theorem Edit.keep (hk : k ≤ k')
    (hc : ∀ n c', h' n = some c' → ∃ c, h n = some c ∧ c'.next = c.next) : Edit h h' p' k k' :=
  ⟨hk, fun n c' hn => Or.inl (hc n c' hn)⟩

theorem Edit.same (h : Heap α) (p : Option Nat) (k : Nat) : Edit h h p k k :=
  .keep (Nat.le_refl k) fun _ c hc => ⟨c, hc, rfl⟩

/-- A store to another field of a cell keeps every pointer. -/
theorem next_update {d : Node α} (hc : h n = some c) (hd : d.next = c.next) (m : Nat) (c' : Node α)
    (hm : Function.update h n (some d) m = some c') : ∃ c0, h m = some c0 ∧ c'.next = c0.next := by
  by_cases hmn : m = n
  · rw [hmn, Function.update_self, Option.some.injEq] at hm
    exact ⟨c, by rw [hmn, hc], by rw [← hm, hd]⟩
  · rw [Function.update_of_ne hmn] at hm
    exact ⟨c', hm, rfl⟩

/-- A new cell leads nowhere. -/
theorem Edit.alloc {d : Node α} (hd : d.next = none) :
    Edit h (Function.update h k (some d)) p' k (k + 1) := by
  refine ⟨Nat.le_succ k, fun m c' hm => ?_⟩
  by_cases hmk : m = k
  · rw [hmk, Function.update_self, Option.some.injEq] at hm
    exact Or.inr (Or.inl ⟨Nat.le_of_eq hmk.symm, hm ▸ hd⟩)
  · rw [Function.update_of_ne hmk] at hm
    exact Or.inl ⟨c', hm, rfl⟩

/-- The pointer of a cell of the list is moved to a greater address. -/
theorem Edit.move {d : Node α} (hr : Reaches h p n) (hup : ∀ m, d.next = some m → n < m) :
    Edit h (Function.update h n (some d)) p k k := by
  refine ⟨Nat.le_refl _, fun m c' hm => ?_⟩
  by_cases hmn : m = n
  · rw [hmn, Function.update_self, Option.some.injEq] at hm
    rw [hmn, ← hm]
    exact Or.inr (Or.inr ⟨hr.upto fun y hy => Function.update_of_ne hy _ _, hup⟩)
  · rw [Function.update_of_ne hmn] at hm
    exact Or.inl ⟨c', hm, rfl⟩

theorem Ascends.edit (ha : Ascends h) (E : Edit h h' p' k k') : Ascends h' := by
  intro n c' m hc' hm
  rcases E.cell n c' hc' with ⟨c, hc, hnext⟩ | ⟨_, hnext⟩ | ⟨_, hup⟩
  · exact ha n c m hc (hnext ▸ hm)
  · rw [hnext] at hm
    cases hm
  · exact hup m hm

/-! ## The trail of a walk -/

/-- `seen` are the cells that were in the list at some moment since the walk began, and
`always` those that were in it all the time. -/
structure Trail (h : Heap α) (p : Option Nat) (k : Nat) (seen always : Nat → Prop) : Prop where
  bound : ∀ n, seen n → n < k
  now : ∀ n, Reaches h p n → seen n
  closed : ∀ n c m, seen n → h n = some c → c.next = some m → seen m
  live : ∀ m, always m → Reaches h p m
  near : ∀ n c m, seen n → h n = some c → always m → n < m → ∃ y, c.next = some y ∧ y ≤ m

/-- Between a cell of the list and the one that it leads to there is no other. -/
theorem Ascends.near (ha : Ascends h) (hn : Reaches h p n) (hm : Reaches h p m)
    (hc : h n = some c) (hlt : n < m) : ∃ y, c.next = some y ∧ y ≤ m := by
  obtain ⟨c1, hc1, hr⟩ := ha.before hn hm hlt
  rw [hc, Option.some.injEq] at hc1
  subst hc1
  cases hnext : c.next with
  | none =>
    rw [hnext] at hr
    exact absurd hr not_reaches_none
  | some y => exact ⟨y, rfl, ha.le hr hnext⟩

theorem Reaches.step (hr : Reaches h p n) (hc : h n = some c) (hm : c.next = some m) :
    Reaches h p m := by
  refine hr.trans (.next hc ?_)
  rw [hm]
  exact .here

theorem Trail.start (ha : Ascends h) (hb : ∀ n, Reaches h p n → n < k) :
    Trail h p k (Reaches h p) (Reaches h p) where
  bound := hb
  now _ hr := hr
  closed _ _ _ hr hc hm := hr.step hc hm
  live _ hr := hr
  near _ _ _ hn hc hm hlt := ha.near hn hm hc hlt

theorem Trail.edit (T : Trail h p k seen always) (ha : Ascends h) (E : Edit h h' p' k k')
    (hb : ∀ n, Reaches h' p' n → n < k') :
    Trail h' p' k' (fun n => seen n ∨ Reaches h' p' n) (fun m => always m ∧ Reaches h' p' m) where
  bound n hn := hn.elim (fun hs => Nat.lt_of_lt_of_le (T.bound n hs) E.count) (hb n)
  now _ hr := Or.inr hr
  closed n c' m hn hc' hm := by
    by_cases hr : Reaches h' p' n
    · exact Or.inr (hr.step hc' hm)
    · -- the cell left the list, and nobody moves its pointer any more
      have hs := hn.resolve_right hr
      rcases E.cell n c' hc' with ⟨c, hc, hnext⟩ | ⟨hge, _⟩ | ⟨hr', _⟩
      · exact Or.inl (T.closed n c m hs hc (hnext ▸ hm))
      · exact absurd (T.bound n hs) (Nat.not_lt.mpr hge)
      · exact absurd hr' hr
  live _ hm := hm.2
  near n c' m hn hc' hm hlt := by
    by_cases hr : Reaches h' p' n
    · exact (ha.edit E).near hr hm.2 hc' hlt
    · have hs := hn.resolve_right hr
      rcases E.cell n c' hc' with ⟨c, hc, hnext⟩ | ⟨hge, _⟩ | ⟨hr', _⟩
      · rw [hnext]
        exact T.near n c m hs hc hm.1 hlt
      · exact absurd (T.bound n hs) (Nat.not_lt.mpr hge)
      · exact absurd hr' hr

/-! ## The cells that the walk visits -/

/-- The walk stands on `iter` and has visited `vs`, the last one first met last. -/
structure Visits (iter : Option Nat) (seen always : Nat → Prop) (vs : List Nat) : Prop where
  sorted : vs.Pairwise (· < ·)
  seen : ∀ n ∈ vs, seen n
  here : ∀ n, iter = some n → n ∈ vs ∧ ∀ m ∈ vs, m ≤ n
  missed : ∀ m, always m → m ∈ vs ∨ ∃ n, iter = some n ∧ n < m

theorem Visits.start (ha : Ascends h) : Visits p (Reaches h p) (Reaches h p) p.toList := by
  cases p with
  | none => exact ⟨.nil, by simp, by simp, fun m hm => absurd hm not_reaches_none⟩
  | some n =>
    refine ⟨List.pairwise_singleton _ _, ?_, ?_, fun m hm => ?_⟩
    · intro m hm
      rw [Option.toList_some, List.mem_singleton] at hm
      rw [hm]
      exact .here
    · intro m hm
      simp [Option.some.inj hm]
    · rcases Nat.eq_or_lt_of_le (ha.le hm rfl) with rfl | hlt
      · exact Or.inl (by simp)
      · exact Or.inr ⟨n, rfl, hlt⟩

theorem Visits.mono {iter : Option Nat} {vs : List Nat} (V : Visits iter seen always vs)
    (hs : ∀ n, seen n → seen' n) (hm : ∀ m, always' m → always m) : Visits iter seen' always' vs :=
  ⟨V.sorted, fun n hn => hs n (V.seen n hn), V.here, fun m h => V.missed m (hm m h)⟩

/-- The walk goes on to the next cell. -/
theorem Visits.next {vs : List Nat} (V : Visits (some n) seen always vs) (ha : Ascends h)
    (T : Trail h p k seen always) (hc : h n = some c) :
    Visits c.next seen always (vs ++ c.next.toList) := by
  obtain ⟨hmem, hlast⟩ := V.here n rfl
  have hup : ∀ y, c.next = some y → ∀ m ∈ vs, m < y := fun y hy m hm =>
    Nat.lt_of_le_of_lt (hlast m hm) (ha n c y hc hy)
  refine ⟨?_, fun m hm => ?_, fun y hy => ?_, fun m hm => ?_⟩
  · refine List.pairwise_append.mpr ⟨V.sorted, ?_, fun m hm y hy => ?_⟩
    · cases c.next <;> simp
    · exact hup y (Option.mem_toList.mp hy) m hm
  · rcases List.mem_append.mp hm with hm | hm
    · exact V.seen m hm
    · exact T.closed n c m (V.seen n hmem) hc (Option.mem_toList.mp hm)
  · refine ⟨List.mem_append_right _ (Option.mem_toList.mpr hy), fun m hm => ?_⟩
    rcases List.mem_append.mp hm with hm | hm
    · exact Nat.le_of_lt (hup y hy m hm)
    · rw [Option.mem_toList.mp hm, Option.some.injEq] at hy
      exact Nat.le_of_eq hy
  · rcases V.missed m hm with hv | ⟨n', hn', hlt⟩
    · exact Or.inl (List.mem_append_left _ hv)
    · cases hn'
      obtain ⟨y, hy, hle⟩ := T.near n c m (V.seen n hmem) hc hm hlt
      rcases Nat.eq_or_lt_of_le hle with rfl | hlt
      · exact Or.inl (List.mem_append_right _ (Option.mem_toList.mpr hy))
      · exact Or.inr ⟨y, hy, hlt⟩

end LinkedCells
