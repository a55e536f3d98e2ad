-- Doubly linked cells in a heap. A segment is a run of cells whose `next` and
-- `back` pointers agree with a list; unlinking a cell and appending a cell
-- rewrite the pointers of its neighbours only, and the list with them.
import Mathlib.Data.List.Basic
import Mathlib.Data.List.Nodup
import Mathlib.Data.List.Perm.Subperm
import Mathlib.Logic.Function.Basic

namespace LinkedCells

/-- A cell with its two neighbours, a mark that it was taken out, and its data. -/
structure Node (α : Type) where
  next : Option Nat
  back : Option Nat
  deleted : Bool
  data : α

/-- The cells that are allocated, by address. -/
abbrev Heap (α : Type) := Nat → Option (Node α)

variable {α : Type}

/-- The addresses of a run of cells. -/
abbrev ids (xs : List (Nat × α)) : List Nat := xs.map Prod.fst

theorem length_le_of_bound {xs : List Nat} {k : Nat} (hn : xs.Nodup) (hb : ∀ n ∈ xs, n < k) :
    xs.length ≤ k := by
  have hsub : xs ⊆ List.range k := fun n hm => List.mem_range.mpr (hb n hm)
  simpa using (hn.subperm hsub).length_le

/-- `Seg h b p xs q e`: from `p` the cells `xs` follow each other by `next`, and
the last of them leads to `e`. Before the first cell stands `b`, and `q` is the
last cell, or `b` when there is none. -/
def Seg (h : Heap α) : Option Nat → Option Nat → List (Nat × α) → Option Nat → Option Nat → Prop
  | b, p, [], q, e => q = b ∧ p = e
  | b, p, x :: xs, q, e =>
      p = some x.1 ∧ ∃ nx, h x.1 = some ⟨nx, b, false, x.2⟩ ∧ Seg h (some x.1) nx xs q e

theorem seg_nil {h : Heap α} {b p q e : Option Nat} : Seg h b p [] q e ↔ q = b ∧ p = e := Iff.rfl

theorem seg_cons {h : Heap α} {b p q e : Option Nat} {x : Nat × α} {xs : List (Nat × α)} :
    Seg h b p (x :: xs) q e ↔
      p = some x.1 ∧ ∃ nx, h x.1 = some ⟨nx, b, false, x.2⟩ ∧ Seg h (some x.1) nx xs q e := Iff.rfl

theorem seg_append {h : Heap α} {xs ys : List (Nat × α)} {b p q e : Option Nat} :
    Seg h b p (xs ++ ys) q e ↔ ∃ q' e', Seg h b p xs q' e' ∧ Seg h q' e' ys q e := by
  induction xs generalizing b p with
  | nil =>
    constructor
    · intro hs
      exact ⟨b, p, ⟨rfl, rfl⟩, hs⟩
    · rintro ⟨q', e', ⟨rfl, rfl⟩, hs⟩
      exact hs
  | cons x xs ih =>
    simp only [List.cons_append, seg_cons, ih]
    constructor
    · rintro ⟨hp, nx, hx, q', e', h1, h2⟩
      exact ⟨q', e', ⟨hp, nx, hx, h1⟩, h2⟩
    · rintro ⟨q', e', ⟨hp, nx, hx, h1⟩, h2⟩
      exact ⟨hp, nx, hx, q', e', h1, h2⟩

/-- A segment reads its own cells only. -/
theorem seg_congr {h h' : Heap α} {xs : List (Nat × α)} {b p q e : Option Nat}
    (hh : ∀ n ∈ ids xs, h' n = h n) (hs : Seg h b p xs q e) : Seg h' b p xs q e := by
  induction xs generalizing b p with
  | nil => exact hs
  | cons x xs ih =>
    obtain ⟨hp, nx, hx, hs⟩ := hs
    refine ⟨hp, nx, ?_, ih (fun n hn => hh n (by simp_all)) hs⟩
    rw [hh x.1 (by simp), hx]

theorem seg_cell {h : Heap α} {xs : List (Nat × α)} {b p q e : Option Nat} {x : Nat × α}
    (hs : Seg h b p xs q e) (hx : x ∈ xs) :
    ∃ c, h x.1 = some c ∧ c.deleted = false ∧ c.data = x.2 := by
  induction xs generalizing b p with
  | nil => cases hx
  | cons y ys ih =>
    obtain ⟨_, nx, hy, hs⟩ := hs
    rcases List.mem_cons.mp hx with rfl | hx
    · exact ⟨_, hy, rfl, rfl⟩
    · exact ih hs hx

/-- Where a segment starts, from its list. -/
theorem seg_first {h : Heap α} {xs : List (Nat × α)} {b p q e : Option Nat}
    (hs : Seg h b p xs q e) : p = (xs.head?.map Prod.fst).or e := by
  cases xs with
  | nil => simpa using hs.2
  | cons x xs => simpa using hs.1

/-- Where a segment ends, from its list. -/
theorem seg_last {h : Heap α} {xs : List (Nat × α)} {b p q e : Option Nat}
    (hs : Seg h b p xs q e) : q = (xs.getLast?.map Prod.fst).or b := by
  induction xs generalizing b p with
  | nil => simpa using hs.1
  | cons x xs ih =>
    obtain ⟨_, nx, _, hs⟩ := hs
    rw [ih hs]
    cases xs with
    | nil => simp
    | cons y ys =>
      rw [List.getLast?_cons_cons]
      cases hl : (y :: ys).getLast? with
      | none => simp at hl
      | some z => rfl

/-- The cell in the middle of a list, with both its neighbours. -/
theorem seg_middle {h : Heap α} {pre post : List (Nat × α)} {x : Nat × α} {b p q e : Option Nat}
    (hs : Seg h b p (pre ++ x :: post) q e) :
    h x.1 = some ⟨(post.head?.map Prod.fst).or e, (pre.getLast?.map Prod.fst).or b, false, x.2⟩ := by
  obtain ⟨q', e', h1, _, nx, hx, h2⟩ := seg_append.mp hs
  rw [hx, seg_last h1, seg_first h2]

/-! ## Changing the two ends of a segment -/

/-- Writes the `next` pointer of a cell. -/
def putNext (h : Heap α) (n : Nat) (v : Option Nat) : Heap α :=
  Function.update h n ((h n).map fun c => { c with next := v })

/-- Writes the `back` pointer of a cell. -/
def putBack (h : Heap α) (n : Nat) (v : Option Nat) : Heap α :=
  Function.update h n ((h n).map fun c => { c with back := v })

theorem putNext_ne {h : Heap α} {n m : Nat} {v : Option Nat} (hne : m ≠ n) :
    putNext h n v m = h m := Function.update_of_ne hne _ _

theorem putBack_ne {h : Heap α} {n m : Nat} {v : Option Nat} (hne : m ≠ n) :
    putBack h n v m = h m := Function.update_of_ne hne _ _

theorem putNext_self {h : Heap α} {n : Nat} {v : Option Nat} {c : Node α} (hc : h n = some c) :
    putNext h n v n = some { c with next := v } := by simp [putNext, hc]

theorem putBack_self {h : Heap α} {n : Nat} {v : Option Nat} {c : Node α} (hc : h n = some c) :
    putBack h n v n = some { c with back := v } := by simp [putBack, hc]

/-- The last cell of a segment now leads to `v`. -/
theorem seg_putNext_last {h : Heap α} {xs : List (Nat × α)} {x : Nat × α} {b p q e : Option Nat}
    (hs : Seg h b p (xs ++ [x]) q e) (hn : x.1 ∉ ids xs) (v : Option Nat) :
    Seg (putNext h x.1 v) b p (xs ++ [x]) q v := by
  obtain ⟨q', e', h1, he, nx, hx, hq, rfl⟩ := seg_append.mp hs
  refine seg_append.mpr ⟨q', e', ?_, he, v, putNext_self hx, hq, rfl⟩
  exact seg_congr (fun n hn' => putNext_ne (fun he => hn (he ▸ hn'))) h1

/-- The first cell of a segment now looks back to `v`. -/
theorem seg_putBack_first {h : Heap α} {xs : List (Nat × α)} {x : Nat × α} {b p q e : Option Nat}
    (hs : Seg h b p (x :: xs) q e) (hn : x.1 ∉ ids xs) (v : Option Nat) :
    Seg (putBack h x.1 v) v p (x :: xs) q e := by
  obtain ⟨hp, nx, hx, hs⟩ := hs
  refine ⟨hp, nx, putBack_self hx, ?_⟩
  exact seg_congr (fun n hn' => putBack_ne (fun he => hn (he ▸ hn'))) hs

/-- A segment starts at its first cell, or behind itself. -/
theorem seg_start {h : Heap α} {xs : List (Nat × α)} {b q e : Option Nat} {n : Nat}
    (hs : Seg h b (some n) xs q e) : n ∈ ids xs ∨ e = some n := by
  cases xs with
  | nil => exact Or.inr hs.2.symm
  | cons x xs =>
    obtain ⟨hp, _⟩ := hs
    exact Or.inl (by simp [Option.some.inj hp])

/-- The cell where a segment ends now leads to `v`. -/
theorem seg_putNext {h : Heap α} {xs : List (Nat × α)} {p e : Option Nat} {k : Nat}
    (hs : Seg h none p xs (some k) e) (hn : (ids xs).Nodup) (v : Option Nat) :
    k ∈ ids xs ∧ Seg (putNext h k v) none p xs (some k) v := by
  rcases List.eq_nil_or_concat xs with rfl | ⟨ys, x, rfl⟩
  · cases hs.1
  · rw [List.concat_eq_append] at *
    have hk : k = x.1 := by simpa using seg_last hs
    subst hk
    refine ⟨by simp, seg_putNext_last hs ?_ v⟩
    simp only [ids, List.map_append, List.nodup_append] at hn
    exact fun hm => hn.2.2 _ hm x.1 (by simp) rfl

/-- The cell where a segment starts now looks back to `v`. -/
theorem seg_putBack {h : Heap α} {xs : List (Nat × α)} {b q : Option Nat} {k : Nat}
    (hs : Seg h b (some k) xs q none) (hn : (ids xs).Nodup) (v : Option Nat) :
    k ∈ ids xs ∧ Seg (putBack h k v) v (some k) xs q none := by
  cases xs with
  | nil => cases hs.2
  | cons x xs =>
    have hk : k = x.1 := Option.some.inj hs.1
    subst hk
    exact ⟨by simp, seg_putBack_first hs (List.nodup_cons.mp hn).1 v⟩

/-! ## Taking a cell out -/

/-- What the two stores of an unlink do to the heap, for a cell that lies
between `bk` and `nx`. -/
def bridge (h : Heap α) (bk nx : Option Nat) : Heap α :=
  let h := match bk with
    | some p => putNext h p nx
    | none => h
  match nx with
  | some n => putBack h n bk
  | none => h

theorem bridge_ne {h : Heap α} {bk nx : Option Nat} {m : Nat} (h1 : bk ≠ some m)
    (h2 : nx ≠ some m) : bridge h bk nx m = h m := by
  unfold bridge
  cases bk <;> cases nx <;> simp_all [putNext, putBack, Function.update_apply, eq_comm]

theorem bridge_congr {h h' : Heap α} {bk nx : Option Nat} {x : Nat}
    (hh : ∀ m, m ≠ x → h' m = h m) (h1 : bk ≠ some x) (h2 : nx ≠ some x) :
    ∀ m, m ≠ x → bridge h' bk nx m = bridge h bk nx m := by
  intro m hm
  unfold bridge
  cases bk with
  | none =>
    cases nx with
    | none => exact hh m hm
    | some n =>
      have hn : n ≠ x := fun he => h2 (by rw [he])
      simp [putBack, Function.update_apply, hh m hm, hh n hn]
  | some p =>
    have hp : p ≠ x := fun he => h1 (by rw [he])
    cases nx with
    | none => simp [putNext, Function.update_apply, hh m hm, hh p hp]
    | some n =>
      have hn : n ≠ x := fun he => h2 (by rw [he])
      simp [putBack, putNext, Function.update_apply, hh m hm, hh n hn, hh p hp]

/-- Taking a cell out keeps the run before it and the run after it, and links
the two. -/
theorem seg_bridge {h : Heap α} {pre post : List (Nat × α)} {x : Nat × α} {hd tl : Option Nat}
    (hs : Seg h none hd (pre ++ x :: post) tl none) (hn : (ids (pre ++ x :: post)).Nodup) :
    let bk := pre.getLast?.map Prod.fst
    let nx := post.head?.map Prod.fst
    Seg (bridge h bk nx) none (if bk.isSome then hd else nx) (pre ++ post)
      (if nx.isSome then tl else bk) none := by
  intro bk nx
  obtain ⟨q', e', h1, he, nx', hx, h2⟩ := seg_append.mp hs
  have hq : q' = bk := by rw [seg_last h1]; simp [bk]
  have hnx : nx' = nx := by rw [seg_first h2]; simp [nx]
  subst hq hnx
  have hdis : ∀ n ∈ ids pre, n ∉ ids post := by
    intro n h3 h4
    simp only [ids, List.map_append, List.map_cons, List.nodup_append] at hn
    exact hn.2.2 n h3 n (List.mem_cons_of_mem _ h4) rfl
  have hnpre : (ids pre).Nodup := by
    simp only [ids, List.map_append, List.nodup_append] at hn; exact hn.1
  have hnpost : (ids post).Nodup := by
    simp only [ids, List.map_append, List.map_cons, List.nodup_append, List.nodup_cons] at hn
    exact hn.2.1.2
  -- the run before the cell now leads to `nx`
  have hpre : ∀ h', (∀ n ∈ ids pre, h' n = (bridge h bk nx) n) →
      Seg h' none (if bk.isSome then hd else nx) pre bk nx := by
    intro h' hh
    refine seg_congr hh ?_
    rcases List.eq_nil_or_concat pre with rfl | ⟨pre', z, rfl⟩
    · simp [bk, seg_nil]
    · have hz : bk = some z.1 := by simp [bk]
      have hzn : z.1 ∉ ids pre' := by
        simp only [List.concat_eq_append, ids, List.map_append, List.nodup_append] at hnpre
        intro hm
        exact hnpre.2.2 _ hm z.1 (by simp) rfl
      rw [List.concat_eq_append] at h1 ⊢
      have h5 := seg_putNext_last h1 hzn nx
      simp only [hz, Option.isSome_some, if_true] at h5 ⊢
      refine seg_congr ?_ h5
      intro n hn'
      unfold bridge
      cases hnx : nx with
      | none => rfl
      | some m =>
        apply putBack_ne
        rintro rfl
        have hm : n ∈ ids post := by
          cases post with
          | nil => simp [nx] at hnx
          | cons y ys => simp [nx] at hnx; simp [← hnx]
        exact hdis n (by simpa using hn') hm
  -- the run after the cell now looks back to `bk`
  have hpost : Seg (bridge h bk nx) bk nx post (if nx.isSome then tl else bk) none := by
    cases post with
    | nil =>
      simp only [seg_nil] at h2 ⊢
      simp [nx]
    | cons y ys =>
      have hyn : y.1 ∉ ids ys := by simpa using (List.nodup_cons.mp hnpost).1
      have hy : nx = some y.1 := by simp [nx]
      have h5 := seg_putBack_first h2 hyn bk
      simp only [hy, Option.isSome_some, if_true] at h5 ⊢
      refine seg_congr ?_ h5
      intro n hn'
      unfold bridge
      cases hbk : bk with
      | none => rfl
      | some m =>
        have hm : m ∈ ids pre := by
          rcases List.eq_nil_or_concat pre with rfl | ⟨pre', z, rfl⟩
          · simp [bk] at hbk
          · simp [bk] at hbk; simp [← hbk]
        have hmn : n ≠ m := fun hc => hdis m hm (hc ▸ hn')
        simp only
        by_cases hny : n = y.1
        · subst hny
          simp [putBack, putNext, Function.update_of_ne hmn]
        · rw [putBack_ne hny, putNext_ne hmn, putBack_ne hny]
  exact seg_append.mpr ⟨bk, nx, hpre _ (fun _ _ => rfl), hpost⟩

/-! ## Appending a cell -/

/-- A fresh cell after the last one. -/
theorem seg_snoc {h : Heap α} {xs : List (Nat × α)} {hd tl : Option Nat} {n : Nat} {a : α}
    (hs : Seg h none hd xs tl none) (hn : (ids xs).Nodup) (hf : n ∉ ids xs)
    (hc : h n = some ⟨none, tl, false, a⟩) :
    Seg (match tl with | some t => putNext h t (some n) | none => h) none
      (if tl.isSome then hd else some n) (xs ++ [(n, a)]) (some n) none := by
  rcases List.eq_nil_or_concat xs with rfl | ⟨ys, z, rfl⟩
  · obtain ⟨rfl, rfl⟩ := hs
    exact ⟨rfl, none, hc, rfl, rfl⟩
  · rw [List.concat_eq_append] at *
    have htl : tl = some z.1 := by rw [seg_last hs]; simp
    subst htl
    have hzn : z.1 ∉ ids ys := by
      simp only [ids, List.map_append, List.nodup_append] at hn
      exact fun hm => hn.2.2 _ hm z.1 (by simp) rfl
    have hnz : n ≠ z.1 := fun he => hf (by simp [he])
    refine seg_append.mpr ⟨some z.1, some n, seg_putNext_last hs hzn _, rfl, none, ?_, rfl, rfl⟩
    exact (putNext_ne hnz).trans hc

/-- A fresh cell between two others. -/
theorem seg_insert {h : Heap α} {pre post : List (Nat × α)} {p x : Nat × α} {hd tl : Option Nat}
    {n : Nat} {a : α} (hs : Seg h none hd (pre ++ p :: x :: post) tl none)
    (hn : (ids (pre ++ p :: x :: post)).Nodup) (hf : n ∉ ids (pre ++ p :: x :: post))
    (hc : h n = some ⟨some x.1, some p.1, false, a⟩) :
    Seg (putNext (putBack h x.1 (some n)) p.1 (some n)) none hd
      (pre ++ p :: (n, a) :: x :: post) tl none := by
  rw [List.append_cons] at hs hn hf ⊢
  obtain ⟨q, e, hpre, hpost⟩ := seg_append.mp hs
  have hq : q = some p.1 := by simpa using seg_last hpre
  have he : e = some x.1 := by simpa using seg_first hpost
  subst hq he
  simp only [ids, List.map_append, List.map_cons, List.map_nil, List.nodup_append,
    List.nodup_cons] at hn
  obtain ⟨⟨_, _, hpp⟩, ⟨hxpost, _⟩, hapart⟩ := hn
  have hppre : p.1 ∉ ids pre := fun hm => hpp _ hm p.1 (by simp) rfl
  have hnot : ∀ m, m ∈ ids (pre ++ [p]) → m ≠ x.1 := fun m hm he =>
    hapart m (by simpa using hm) x.1 (by simp) he
  have hnot' : ∀ m, m ∈ ids (x :: post) → m ≠ p.1 := fun m hm he =>
    hapart p.1 (by simp) m (by simpa using hm) he.symm
  have hnp : n ≠ p.1 := fun he => hf (by simp [he])
  have hnx : n ≠ x.1 := fun he => hf (by simp [he])
  have hleft := seg_congr (fun m hm => putBack_ne (v := some n) (hnot m hm)) hpre
  have hright := seg_putBack_first hpost hxpost (some n)
  refine seg_append.mpr ⟨some p.1, some n, seg_putNext_last hleft hppre _, rfl, some x.1, ?_, ?_⟩
  · rw [putNext_ne hnp, putBack_ne hnx]
    exact hc
  · exact seg_congr (fun m hm => putNext_ne (hnot' m hm)) hright

/-! ## Walking -/

/-- The cells met from `p` along `next`, at most `fuel` of them. -/
def walk (h : Heap α) : Nat → Option Nat → List (Nat × α)
  | 0, _ => []
  | _, none => []
  | fuel + 1, some n =>
    match h n with
    | none => []
    | some c => (n, c.data) :: walk h fuel c.next

/-- A walk as long as the segment gives its list. -/
theorem walk_seg {h : Heap α} {xs : List (Nat × α)} {b p q : Option Nat} {fuel : Nat}
    (hs : Seg h b p xs q none) (hf : xs.length ≤ fuel) : walk h fuel p = xs := by
  induction xs generalizing b p fuel with
  | nil =>
    obtain ⟨_, rfl⟩ := hs
    cases fuel <;> rfl
  | cons x xs ih =>
    obtain ⟨rfl, nx, hx, hs⟩ := hs
    cases fuel with
    | zero => simp at hf
    | succ fuel =>
      simp only [walk, hx]
      rw [ih hs (by simpa using hf)]

end LinkedCells
