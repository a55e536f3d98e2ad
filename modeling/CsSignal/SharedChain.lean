-- The nodes of a list that is shared, while a writer pushes or erases. Only the
-- holder of the mutex writes to nodes, so the nodes are linked as the call of that
-- handle has left them, and everybody else meets them so.
import CsSignal.Lib.Paths
import CsSignal.SharedList

namespace CsSignal

open LinkedCells

/-! ## What a call is about -/

namespace Job

/-- The node of the call that the list does not have: it is not linked yet, or it was
unlinked and its entry is not pushed. -/
def pending : Job → Option Nat
  | pushLoad n | pushHead n | pushBack n _ | pushNext n _ | eraseBack n _ _ | erasePrev n _ _ _
  | eraseNext n _ _ _ | eraseAlloc n _ _ | eraseLink n _ _ _ _ => some n
  | _ => Option.none

/-- The node that `erase` is asked for, before it is tested. -/
def asked : Job → Option Nat
  | eraseTest n _ _ => some n
  | _ => Option.none

end Job

namespace NodeList

variable {α : Type} {l l' : NodeList α} {xs pre post : List (Nat × α)} {n current : Nat}
  {oldPrev oldNext first last v : Option Nat} {job job' : Job} {assign : Bool}
  {retired : Nat → Option Nat}

/-! ## How the nodes are linked -/

/-- The nodes `xs` are the list. -/
def Whole (l : NodeList α) (xs : List (Nat × α)) : Prop := Seg l.node none l.head xs l.tail none

/-- A new node, which looks back to `back`. -/
def Fresh (l : NodeList α) (n : Nat) (back : Option Nat) : Prop :=
  ∃ data, l.node n = some ⟨none, back, false, data⟩

/-- The node between `pre` and `post` is marked. The nodes before it lead to `first`, and
the nodes after it look back to `last`. -/
structure Out (l : NodeList α) (pre post : List (Nat × α)) (current : Nat)
    (oldPrev oldNext first last : Option Nat) : Prop where
  before : Seg l.node none l.head pre oldPrev first
  cell : ∃ data, l.node current = some ⟨oldNext, oldPrev, true, data⟩
  after : Seg l.node last oldNext post l.tail none

/-- A node that was unlinked, and still leads into the list. -/
def Unlinked (l : NodeList α) (xs : List (Nat × α)) (n : Nat) (oldNext : Option Nat) : Prop :=
  (∃ c, l.node n = some c ∧ c.next = oldNext ∧ c.deleted = true) ∧ ∀ m ∈ oldNext, m ∈ ids xs

/-- What the call in progress has done to the list of the nodes `xs`. -/
def Shape (l : NodeList α) (xs : List (Nat × α)) : Job → Prop
  | .none => l.Whole xs
  | .pushLoad n => l.Whole xs ∧ l.Fresh n none
  | .pushHead n => l.Whole xs ∧ l.Fresh n none ∧ l.tail = none
  | .pushBack n oldTail => l.Whole xs ∧ l.Fresh n none ∧ l.tail = some oldTail
  | .pushNext n oldTail => l.Whole xs ∧ l.Fresh n (some oldTail) ∧ l.tail = some oldTail
  | .pushTail n => Seg l.node none l.head xs (some n) none
  | .eraseTest n _ oldNext => l.Whole xs ∧ ∃ c, l.node n = some c ∧ c.next = oldNext
  | .eraseBack n _ oldNext => ∃ pre post oldPrev, xs = pre ++ post ∧
      l.Out pre post n oldPrev oldNext (some n) (some n)
  | .erasePrev n _ oldNext oldPrev => ∃ pre post, xs = pre ++ post ∧
      l.Out pre post n oldPrev oldNext (some n) (some n)
  | .eraseNext n _ oldNext oldPrev => ∃ pre post, xs = pre ++ post ∧
      l.Out pre post n oldPrev oldNext oldNext (some n)
  | .eraseAlloc n _ oldNext | .eraseLink n _ oldNext _ _ => l.Whole xs ∧ l.Unlinked xs n oldNext

/-- The nodes of the list are there and not retired, and every other node that is
there is retired, but for the one that a call is about. -/
structure Chain (l : NodeList α) (retired : Nat → Option Nat) (job : Job)
    (xs : List (Nat × α)) : Prop where
  shape : l.Shape xs job
  nodup : (ids xs).Nodup
  pending : ∀ n, job.pending = some n → n ∉ ids xs ∧ retired n = none
  live : ∀ n ∈ ids xs, retired n = none
  cover : ∀ n c, l.node n = some c →
    n ∈ ids xs ∨ job.pending = some n ∨ (retired n).isSome = true
  marked : ∀ n c, l.node n = some c → (retired n).isSome = true → c.deleted = true
  bound : ∀ n, l.nodeCount ≤ n → l.node n = none ∧ retired n = none

theorem chain_init : Chain ({} : NodeList α) (fun _ => none) .none [] where
  shape := ⟨rfl, rfl⟩
  nodup := List.nodup_nil
  pending _ h := by cases h
  live _ _ := rfl
  cover _ _ h := by cases h
  marked _ _ h := by cases h
  bound _ _ := ⟨rfl, rfl⟩

/-! ## A store to a node -/

/-- A store to some node, whose `next` can then be `v`. -/
structure Rewired (l l' : NodeList α) (v : Option Nat) : Prop where
  count : l'.nodeCount = l.nodeCount
  gone : ∀ n, l.node n = none → l'.node n = none
  cell : ∀ n c, l.node n = some c → ∃ c', l'.node n = some c' ∧
    (c.deleted = true → c'.deleted = true) ∧ (c'.next = c.next ∨ c'.next = v)

theorem Rewired.was {c' : Node α} (R : l.Rewired l' v) (hc : l'.node n = some c') :
    ∃ c, l.node n = some c ∧ (c.deleted = true → c'.deleted = true) ∧
      (c'.next = c.next ∨ c'.next = v) := by
  cases hn : l.node n with
  | none =>
    rw [R.gone n hn] at hc
    cases hc
  | some c =>
    obtain ⟨c1, hc1, h1⟩ := R.cell n c hn
    rw [hc, Option.some.injEq] at hc1
    subst hc1
    exact ⟨c, rfl, h1⟩

/-- Only the two ends of the list are stored to. -/
theorem rewired_ends (hn : l'.node = l.node) (hc : l'.nodeCount = l.nodeCount) :
    l.Rewired l' v where
  count := hc
  gone n h := by rw [hn, h]
  cell n c h := ⟨c, by rw [hn, h], id, Or.inl rfl⟩

theorem rewired_write {c : Node α} {f : Node α → Node α} (hc : l.node n = some c)
    (hdel : c.deleted = true → (f c).deleted = true)
    (hnext : (f c).next = c.next ∨ (f c).next = v) :
    l.write n f = .ok { l with node := Function.update l.node n (some (f c)) } ∧
      l.Rewired { l with node := Function.update l.node n (some (f c)) } v := by
  refine ⟨by simp only [write, hc], rfl, fun m hm => ?_, fun m c0 hm => ?_⟩
  · have hne : m ≠ n := by
      rintro rfl
      rw [hc] at hm
      cases hm
    exact (Function.update_of_ne hne _ _).trans hm
  · by_cases hmn : m = n
    · subst hmn
      rw [hc, Option.some.injEq] at hm
      subst hm
      exact ⟨f c, Function.update_self _ _ _, hdel, hnext⟩
    · exact ⟨c0, (Function.update_of_ne hmn _ _).trans hm, id, Or.inl rfl⟩

theorem rewired_setNext {c : Node α} (hc : l.node n = some c) (v : Option Nat) :
    ∃ l', l.setNext n v = .ok l' ∧ l.Rewired l' v ∧ l'.node = putNext l.node n v ∧
      l'.head = l.head ∧ l'.tail = l.tail := by
  have h := rewired_write (v := v) (f := fun c => { c with next := v }) hc id (Or.inr rfl)
  exact ⟨_, h.1, h.2, by simp [putNext, hc], rfl, rfl⟩

theorem rewired_setBack {c : Node α} (hc : l.node n = some c) (v : Option Nat) :
    ∃ l', l.setBack n v = .ok l' ∧ l.Rewired l' none ∧ l'.node = putBack l.node n v ∧
      l'.head = l.head ∧ l'.tail = l.tail := by
  have h := rewired_write (v := none) (f := fun c => { c with back := v }) hc id (Or.inl rfl)
  exact ⟨_, h.1, h.2, by simp [putBack, hc], rfl, rfl⟩

/-- The nodes that were there are there, and those that were freed are not. A store to
`next` leads to a node that is not retired. -/
structure Grows (l l' : NodeList α) (retired : Nat → Option Nat) : Prop where
  kept : ∀ n, (l.node n).isSome = true → (l'.node n).isSome = true
  gone : ∀ n, l.node n = none → (retired n).isSome = true → l'.node n = none
  next : ∀ n c' m, l'.node n = some c' → c'.next = some m →
    (∃ c, l.node n = some c ∧ c.next = some m) ∨
      (l.node m).isSome = true ∧ retired m = none

theorem grows_refl (l : NodeList α) (retired : Nat → Option Nat) : l.Grows l retired :=
  ⟨fun _ h => h, fun _ h _ => h, fun _ c _ hc hm => Or.inl ⟨c, hc, hm⟩⟩

theorem Rewired.grows (R : l.Rewired l' v)
    (hv : ∀ m ∈ v, (l.node m).isSome = true ∧ retired m = none) : l.Grows l' retired where
  kept n hn := by
    obtain ⟨c, hc⟩ := Option.isSome_iff_exists.mp hn
    obtain ⟨c', hc', _⟩ := R.cell n c hc
    rw [hc']
    rfl
  gone n hn _ := R.gone n hn
  next n c' m hc' hm := by
    obtain ⟨c, hc, _, hnext | hnext⟩ := R.was hc'
    · exact Or.inl ⟨c, hc, hnext ▸ hm⟩
    · exact Or.inr (hv m (hnext ▸ hm))

theorem Chain.rewire {xs' : List (Nat × α)} (C : l.Chain retired job xs) (R : l.Rewired l' v)
    (hs : l'.Shape xs' job') (hnd : (ids xs').Nodup)
    (hmem : ∀ n, n ∈ ids xs' ∨ job'.pending = some n ↔ n ∈ ids xs ∨ job.pending = some n)
    (hp : ∀ n, job'.pending = some n → n ∉ ids xs') : l'.Chain retired job' xs' where
  shape := hs
  nodup := hnd
  pending n h := by
    refine ⟨hp n h, ?_⟩
    rcases (hmem n).mp (Or.inr h) with hx | hx
    · exact C.live n hx
    · exact (C.pending n hx).2
  live n h := by
    rcases (hmem n).mp (Or.inl h) with hx | hx
    · exact C.live n hx
    · exact (C.pending n hx).2
  cover n c' hc' := by
    obtain ⟨c, hc, _⟩ := R.was hc'
    rcases C.cover n c hc with hx | hx | hx
    · rcases (hmem n).mpr (Or.inl hx) with hx | hx
      · exact Or.inl hx
      · exact Or.inr (Or.inl hx)
    · rcases (hmem n).mpr (Or.inr hx) with hx | hx
      · exact Or.inl hx
      · exact Or.inr (Or.inl hx)
    · exact Or.inr (Or.inr hx)
  marked n c' hc' hr := by
    obtain ⟨c, hc, hdel, _⟩ := R.was hc'
    exact hdel (C.marked n c hc hr)
  bound n hn := by
    rw [R.count] at hn
    obtain ⟨h1, h2⟩ := C.bound n hn
    exact ⟨R.gone n h1, h2⟩

/-- The call goes on and the nodes stay. -/
theorem Chain.reshape (C : l.Chain retired job xs) (hs : l.Shape xs job')
    (hp : job'.pending = job.pending) : l.Chain retired job' xs :=
  C.rewire (rewired_ends (v := none) rfl rfl) hs C.nodup (fun n => by rw [hp])
    fun n h => (C.pending n (hp ▸ h)).1

/-! ## Where the head leads -/

theorem Shape.mem_cell (S : l.Shape xs job) (hn : n ∈ ids xs) : ∃ c, l.node n = some c := by
  obtain ⟨x, hx, rfl⟩ := List.mem_map.mp hn
  have hseg : ∀ {ys : List (Nat × α)} {b p q e : Option Nat}, Seg l.node b p ys q e → x ∈ ys →
      ∃ c, l.node x.1 = some c := fun hs hx => by
    obtain ⟨c, hc, _⟩ := seg_cell hs hx
    exact ⟨c, hc⟩
  have hout : ∀ {pre post : List (Nat × α)} {m : Nat} {oldPrev oldNext first last : Option Nat},
      xs = pre ++ post → l.Out pre post m oldPrev oldNext first last →
      ∃ c, l.node x.1 = some c := by
    rintro pre post m oldPrev oldNext first last rfl O
    rcases List.mem_append.mp hx with hx | hx
    · exact hseg O.before hx
    · exact hseg O.after hx
  cases job with
  | none => exact hseg S hx
  | pushTail => exact hseg S hx
  | pushLoad => exact hseg S.1 hx
  | pushHead => exact hseg S.1 hx
  | pushBack => exact hseg S.1 hx
  | pushNext => exact hseg S.1 hx
  | eraseTest => exact hseg S.1 hx
  | eraseAlloc => exact hseg S.1 hx
  | eraseLink => exact hseg S.1 hx
  | eraseBack =>
    obtain ⟨pre, post, _, h, O⟩ := S
    exact hout h O
  | erasePrev =>
    obtain ⟨pre, post, h, O⟩ := S
    exact hout h O
  | eraseNext =>
    obtain ⟨pre, post, h, O⟩ := S
    exact hout h O

theorem Shape.pending_cell (S : l.Shape xs job) (hn : job.pending = some n) :
    ∃ c, l.node n = some c := by
  have hfresh : ∀ {m : Nat} {back : Option Nat}, l.Fresh m back → m = n →
      ∃ c, l.node n = some c := by
    rintro m back ⟨d, hd⟩ rfl
    exact ⟨_, hd⟩
  cases job with
  | none => cases hn
  | pushTail => cases hn
  | eraseTest => cases hn
  | pushLoad => exact hfresh S.2 (Option.some.inj hn)
  | pushHead => exact hfresh S.2.1 (Option.some.inj hn)
  | pushBack => exact hfresh S.2.1 (Option.some.inj hn)
  | pushNext => exact hfresh S.2.1 (Option.some.inj hn)
  | eraseAlloc =>
    obtain ⟨c, hc, _⟩ := S.2.1
    exact ⟨c, Option.some.inj hn ▸ hc⟩
  | eraseLink =>
    obtain ⟨c, hc, _⟩ := S.2.1
    exact ⟨c, Option.some.inj hn ▸ hc⟩
  | eraseBack =>
    obtain ⟨_, _, _, _, O⟩ := S
    obtain ⟨d, hd⟩ := O.cell
    exact ⟨_, Option.some.inj hn ▸ hd⟩
  | erasePrev =>
    obtain ⟨_, _, _, O⟩ := S
    obtain ⟨d, hd⟩ := O.cell
    exact ⟨_, Option.some.inj hn ▸ hd⟩
  | eraseNext =>
    obtain ⟨_, _, _, O⟩ := S
    obtain ⟨d, hd⟩ := O.cell
    exact ⟨_, Option.some.inj hn ▸ hd⟩

theorem Shape.head (S : l.Shape xs job) (hn : l.head = some n) :
    n ∈ ids xs ∨ job.pending = some n := by
  have hseg : ∀ {ys : List (Nat × α)} {b q : Option Nat}, Seg l.node b l.head ys q none →
      n ∈ ids ys := fun hs => by
    rw [hn] at hs
    exact (seg_start hs).resolve_right (fun h => nomatch h)
  have hout : ∀ {pre post : List (Nat × α)} {m : Nat} {oldPrev oldNext first last : Option Nat},
      xs = pre ++ post → l.Out pre post m oldPrev oldNext first last →
      n ∈ ids xs ∨ first = some n := by
    rintro pre post m oldPrev oldNext first last rfl O
    have h := O.before
    rw [hn] at h
    rcases seg_start h with h | h
    · refine Or.inl ?_
      rw [ids, List.map_append]
      exact List.mem_append_left _ h
    · exact Or.inr h
  cases job with
  | none => exact Or.inl (hseg S)
  | pushTail => exact Or.inl (hseg S)
  | pushLoad => exact Or.inl (hseg S.1)
  | pushHead => exact Or.inl (hseg S.1)
  | pushBack => exact Or.inl (hseg S.1)
  | pushNext => exact Or.inl (hseg S.1)
  | eraseTest => exact Or.inl (hseg S.1)
  | eraseAlloc => exact Or.inl (hseg S.1)
  | eraseLink => exact Or.inl (hseg S.1)
  | eraseBack =>
    obtain ⟨pre, post, _, h, O⟩ := S
    exact hout h O
  | erasePrev =>
    obtain ⟨pre, post, h, O⟩ := S
    exact hout h O
  | eraseNext =>
    obtain ⟨pre, post, h, O⟩ := S
    rcases hout h O with h1 | h1
    · exact Or.inl h1
    · have h2 := O.after
      rw [h1] at h2
      rw [h, ids, List.map_append]
      exact Or.inl (List.mem_append_right _ ((seg_start h2).resolve_right (fun h => nomatch h)))

/-! ## The stores of `push_back` -/

theorem Chain.alloc (C : l.Chain retired .none xs) (data : α) :
    Chain { l with
      node := Function.update l.node l.nodeCount (some ⟨none, none, false, data⟩)
      nodeCount := l.nodeCount + 1 } retired (.pushLoad l.nodeCount) xs := by
  obtain ⟨hfree, hret⟩ := C.bound _ (Nat.le_refl _)
  have hnew : l.nodeCount ∉ ids xs := by
    intro hm
    obtain ⟨c, hc⟩ := C.shape.mem_cell hm
    rw [hfree] at hc
    cases hc
  refine ⟨⟨seg_congr (fun m hm => Function.update_of_ne ?_ _ _) C.shape,
    data, Function.update_self _ _ _⟩, C.nodup, fun m hm => ?_, C.live, fun m c hc => ?_,
    fun m c hc hr => ?_, fun m hm => ?_⟩
  · rintro rfl
    exact hnew hm
  · obtain rfl := Option.some.inj hm
    exact ⟨hnew, hret⟩
  · by_cases hmn : m = l.nodeCount
    · exact Or.inr (Or.inl (by rw [hmn]; rfl))
    · simp only [Function.update_of_ne hmn] at hc
      rcases C.cover m c hc with h | h | h
      · exact Or.inl h
      · cases h
      · exact Or.inr (Or.inr h)
  · by_cases hmn : m = l.nodeCount
    · rw [hmn, hret] at hr
      cases hr
    · simp only [Function.update_of_ne hmn] at hc
      exact C.marked m c hc hr
  · simp only at hm
    obtain ⟨h1, h2⟩ := C.bound m (by omega)
    exact ⟨(Function.update_of_ne (by omega) _ _).trans h1, h2⟩

theorem Chain.grows_alloc (C : l.Chain retired job xs) (data : α) :
    l.Grows { l with
      node := Function.update l.node l.nodeCount (some ⟨none, none, false, data⟩)
      nodeCount := l.nodeCount + 1 } retired := by
  obtain ⟨hfree, hret⟩ := C.bound _ (Nat.le_refl _)
  refine ⟨fun n hn => ?_, fun n hn hr => ?_, fun n c' m hc' hm => ?_⟩
  · by_cases hne : n = l.nodeCount
    · rw [hne, hfree] at hn
      cases hn
    · simp only [Function.update_of_ne hne]
      exact hn
  · have hne : n ≠ l.nodeCount := by
      rintro rfl
      rw [hret] at hr
      cases hr
    simp only [Function.update_of_ne hne]
    exact hn
  · by_cases hne : n = l.nodeCount
    · simp only [hne, Function.update_self, Option.some.injEq] at hc'
      rw [← hc'] at hm
      cases hm
    · simp only [Function.update_of_ne hne] at hc'
      exact Or.inl ⟨c', hc', hm⟩

theorem Chain.pushHead (C : l.Chain retired (.pushHead n) xs) :
    ∃ xs', Chain { l with head := some n } retired (.pushTail n) xs' := by
  obtain ⟨hw, ⟨data, hd⟩, ht⟩ := C.shape
  have hxs : xs = [] := by
    have h := seg_last hw
    rw [ht] at h
    simpa using h.symm
  subst hxs
  refine ⟨[(n, data)], C.rewire (rewired_ends (v := none) rfl rfl) ⟨rfl, none, hd, rfl, rfl⟩
    (by simp) (fun m => ?_) fun m hm => by cases hm⟩
  simp [Job.pending, eq_comm]

theorem Chain.pushBack {oldTail : Nat} (C : l.Chain retired (.pushBack n oldTail) xs) :
    ∃ l', l.setBack n (some oldTail) = .ok l' ∧ l.Rewired l' none ∧
      l'.Chain retired (.pushNext n oldTail) xs := by
  obtain ⟨hw, ⟨data, hd⟩, ht⟩ := C.shape
  obtain ⟨l', hrun, R, hnode, hhead, htail⟩ := rewired_setBack hd (some oldTail)
  refine ⟨l', hrun, R, C.rewire R ⟨?_, ⟨data, ?_⟩, htail.trans ht⟩ C.nodup (fun m => Iff.rfl)
    fun m hm => (C.pending m hm).1⟩
  · unfold Whole
    rw [hhead, htail]
    refine seg_congr (fun m hm => ?_) hw
    rw [hnode]
    refine putBack_ne ?_
    rintro rfl
    exact (C.pending m rfl).1 hm
  · rw [hnode, putBack_self hd]

theorem Chain.pushNext {oldTail : Nat} (C : l.Chain retired (.pushNext n oldTail) xs) :
    ∃ l' xs', l.setNext oldTail (some n) = .ok l' ∧ l.Rewired l' (some n) ∧
      l'.Chain retired (.pushTail n) xs' := by
  obtain ⟨hw, ⟨data, hd⟩, ht⟩ := C.shape
  obtain ⟨hnew, _⟩ := C.pending n rfl
  unfold Whole at hw
  rw [ht] at hw
  obtain ⟨hmem, hseg⟩ := seg_putNext hw C.nodup (some n)
  obtain ⟨c, hc⟩ := C.shape.mem_cell hmem
  obtain ⟨l', hrun, R, hnode, hhead, _⟩ := rewired_setNext hc (some n)
  have hne : n ≠ oldTail := by
    rintro rfl
    exact hnew hmem
  have hcell : l'.node n = some ⟨none, some oldTail, false, data⟩ := by
    rw [hnode, putNext_ne hne, hd]
  rw [← hnode] at hseg
  refine ⟨l', xs ++ [(n, data)], hrun, R, C.rewire R ?_ ?_ (fun m => ?_) fun m hm => by cases hm⟩
  · unfold Shape
    rw [hhead]
    exact seg_append.mpr ⟨_, _, hseg, rfl, none, hcell, rfl, rfl⟩
  · have hnd := C.nodup
    simp only [ids, List.map_append, List.map_cons, List.map_nil, List.nodup_append] at hnd ⊢
    refine ⟨hnd, List.nodup_singleton n, fun a ha b hb => ?_⟩
    rw [List.mem_singleton.mp hb]
    rintro rfl
    exact hnew ha
  · simp [Job.pending, eq_comm]

theorem Chain.pushTail (C : l.Chain retired (.pushTail n) xs) :
    Chain { l with tail := some n } retired .none xs :=
  C.rewire (rewired_ends (v := none) rfl rfl) C.shape C.nodup (fun _ => Iff.rfl)
    fun _ hm => by cases hm

/-! ## The stores of `erase` -/

/-- The node of an `erase` that goes on stands in the list. -/
theorem Chain.asked_mem {c : Node α} (C : l.Chain retired (.eraseTest n assign oldNext) xs)
    (hc : l.node n = some c) (hd : c.deleted = false) : n ∈ ids xs := by
  rcases C.cover n c hc with h | h | h
  · exact h
  · cases h
  · rw [C.marked n c hc h] at hd
    cases hd

theorem Chain.mark {c : Node α} (C : l.Chain retired (.eraseTest n assign oldNext) xs)
    (hc : l.node n = some c) (hd : c.deleted = false) :
    ∃ l' xs', l.write n (fun c => { c with deleted := true }) = .ok l' ∧ l.Rewired l' none ∧
      l'.Chain retired (.eraseBack n assign oldNext) xs' := by
  obtain ⟨hw, c', hc', hnext⟩ := C.shape
  rw [hc, Option.some.injEq] at hc'
  subst hc'
  obtain ⟨x, hx, rfl⟩ := List.mem_map.mp (C.asked_mem hc hd)
  obtain ⟨pre, post, rfl⟩ := List.append_of_mem hx
  have hnd := C.nodup
  simp only [ids, List.map_append, List.map_cons, List.nodup_append, List.nodup_cons,
    List.mem_cons] at hnd
  obtain ⟨hpre, ⟨hxpost, hpost⟩, hdis⟩ := hnd
  have hxpre : x.1 ∉ pre.map Prod.fst := fun hm => hdis _ hm _ (Or.inl rfl) rfl
  obtain ⟨q', e', h1, he, nx, hcell, h2⟩ := seg_append.mp hw
  rw [hc, Option.some.injEq] at hcell
  subst hcell
  simp only at hnext
  subst hnext he
  have h := rewired_write (v := none) (f := fun c => { c with deleted := true }) hc
    (fun _ => rfl) (Or.inl rfl)
  have hother : ∀ ys : List (Nat × α), x.1 ∉ ids ys → ∀ m ∈ ids ys, m ≠ x.1 := by
    rintro ys hys m hm rfl
    exact hys hm
  refine ⟨_, pre ++ post, h.1, h.2, C.rewire h.2 ⟨pre, post, q', rfl, ?_, ⟨x.2, ?_⟩, ?_⟩ ?_ ?_ ?_⟩
  · exact seg_congr (fun m hm => Function.update_of_ne (hother pre hxpre m hm) _ _) h1
  · simp
  · exact seg_congr (fun m hm => Function.update_of_ne (hother post hxpost m hm) _ _) h2
  · simp only [ids, List.map_append, List.nodup_append]
    exact ⟨hpre, hpost, fun a ha b hb => hdis a ha b (Or.inr hb)⟩
  · intro m
    simp only [ids, List.map_append, List.map_cons, List.mem_append, List.mem_cons, Job.pending,
      Option.some.injEq, reduceCtorEq, or_false]
    rw [eq_comm (a := x.1)]
    tauto
  · intro m hm
    obtain rfl := Option.some.inj hm
    simp only [ids, List.map_append, List.mem_append, not_or]
    exact ⟨hxpre, hxpost⟩

/-- What the cell of a node that is unlinked says. -/
theorem Out.unlinked (O : l.Out pre post n oldPrev oldNext first last) :
    l.Unlinked (pre ++ post) n oldNext := by
  obtain ⟨data, hd⟩ := O.cell
  refine ⟨⟨_, hd, rfl, rfl⟩, fun m hm => ?_⟩
  have h := O.after
  rw [hm] at h
  rw [ids, List.map_append]
  exact List.mem_append_right _ ((seg_start h).resolve_right (fun h => nomatch h))

theorem Chain.erasePrev (C : l.Chain retired (.erasePrev n assign oldNext oldPrev) xs) :
    ∃ l', (match oldPrev with
      | some p => l.setNext p oldNext
      | none => .ok { l with head := oldNext }) = .ok l' ∧ l.Rewired l' oldNext ∧
      (∀ m ∈ oldNext, m ∈ ids xs) ∧ l'.Chain retired (.eraseNext n assign oldNext oldPrev) xs := by
  obtain ⟨pre, post, rfl, O⟩ := C.shape
  have hlive := O.unlinked.2
  obtain ⟨hn, _⟩ := C.pending n rfl
  have hnd := C.nodup
  simp only [ids, List.map_append, List.nodup_append] at hnd
  obtain ⟨hpre, hpost, hdis⟩ := hnd
  cases oldPrev with
  | none =>
    have hnil : pre = [] := by
      have h := seg_last O.before
      simpa using h.symm
    subst hnil
    have R : l.Rewired { l with head := oldNext } oldNext := rewired_ends rfl rfl
    refine ⟨_, rfl, R, hlive, C.rewire R ⟨[], post, rfl, ⟨rfl, rfl⟩, O.cell, O.after⟩ C.nodup
      (fun m => Iff.rfl) fun m hm => (C.pending m hm).1⟩
  | some p =>
    obtain ⟨hmem, hseg⟩ := seg_putNext O.before hpre oldNext
    have hpxs : p ∈ ids (pre ++ post) := by
      rw [ids, List.map_append]
      exact List.mem_append_left _ hmem
    obtain ⟨c, hc⟩ := C.shape.mem_cell hpxs
    obtain ⟨l', hrun, R, hnode, hhead, htail⟩ := rewired_setNext hc oldNext
    have hnp : n ≠ p := by
      rintro rfl
      exact hn hpxs
    obtain ⟨data, hd⟩ := O.cell
    refine ⟨l', hrun, R, hlive, C.rewire R ⟨pre, post, rfl, ?_, ⟨data, ?_⟩, ?_⟩ C.nodup
      (fun m => Iff.rfl) fun m hm => (C.pending m hm).1⟩
    · rw [hnode, hhead]
      exact hseg
    · rw [hnode, putNext_ne hnp, hd]
    · rw [htail, hnode]
      exact seg_congr (fun m hm => putNext_ne fun he => hdis p hmem m hm he.symm) O.after

theorem Chain.eraseNext (C : l.Chain retired (.eraseNext n assign oldNext oldPrev) xs) :
    ∃ l', (match oldNext with
      | some k => l.setBack k oldPrev
      | none => .ok { l with tail := oldPrev }) = .ok l' ∧ l.Rewired l' none ∧
      l'.Chain retired (.eraseAlloc n assign oldNext) xs := by
  obtain ⟨pre, post, rfl, O⟩ := C.shape
  obtain ⟨hn, _⟩ := C.pending n rfl
  have hnd := C.nodup
  simp only [ids, List.map_append, List.nodup_append] at hnd
  obtain ⟨hpre, hpost, hdis⟩ := hnd
  obtain ⟨data, hd⟩ := O.cell
  have hlive := O.unlinked.2
  cases oldNext with
  | none =>
    have hnil : post = [] := by
      have h := seg_first O.after
      simpa using h.symm
    subst hnil
    have R : l.Rewired { l with tail := oldPrev } none := rewired_ends rfl rfl
    refine ⟨_, rfl, R, C.rewire R ⟨?_, ⟨_, hd, rfl, rfl⟩, fun m hm => by cases hm⟩ C.nodup
      (fun m => Iff.rfl) fun m hm => (C.pending m hm).1⟩
    rw [List.append_nil]
    exact O.before
  | some k =>
    obtain ⟨hmem, hseg⟩ := seg_putBack O.after hpost oldPrev
    have hkxs : k ∈ ids (pre ++ post) := hlive k rfl
    obtain ⟨c, hc⟩ := C.shape.mem_cell hkxs
    obtain ⟨l', hrun, R, hnode, hhead, htail⟩ := rewired_setBack hc oldPrev
    have hnk : n ≠ k := by
      rintro rfl
      exact hn hkxs
    have hcell : l'.node n = some ⟨some k, oldPrev, true, data⟩ := by
      rw [hnode, putBack_ne hnk, hd]
    refine ⟨l', hrun, R, C.rewire R ⟨?_, ⟨_, hcell, rfl, rfl⟩, hlive⟩ C.nodup
      (fun m => Iff.rfl) fun m hm => (C.pending m hm).1⟩
    unfold Whole
    rw [hhead, htail]
    refine seg_append.mpr ⟨oldPrev, some k, ?_, ?_⟩
    · refine seg_congr (fun m hm => ?_) O.before
      rw [hnode]
      exact putBack_ne fun he => hdis m hm k hmem he
    · rw [hnode]
      exact hseg

/-! ## A node that is retired, and freed -/

/-- In a whole list the cells of the list lead into it, and nothing leads out. -/
theorem Whole.next_mem {c : Node α} {m : Nat} (hw : l.Whole xs) (hn : n ∈ ids xs)
    (hc : l.node n = some c) (hm : c.next = some m) : m ∈ ids xs := by
  obtain ⟨x, hx, rfl⟩ := List.mem_map.mp hn
  refine Reaches.mem_of_seg ((seg_reaches hw hx).trans (.next hc ?_)) hw
  rw [hm]
  exact .here

theorem Chain.retire {t z : Nat} {stage : PushStage}
    (C : l.Chain retired (.eraseLink n assign oldNext z stage) xs) :
    l.Chain (Function.update retired n (some t)) .none xs := by
  obtain ⟨hw, ⟨c, hc, _, hdel⟩, _⟩ := C.shape
  obtain ⟨hn, _⟩ := C.pending n rfl
  have hother : ∀ m, m ≠ n → Function.update retired n (some t) m = retired m := fun m hm =>
    Function.update_of_ne hm _ _
  refine ⟨hw, C.nodup, fun m hm => (by cases hm), fun m hm => ?_, fun m c' hc' => ?_,
    fun m c' hc' hr => ?_, fun m hm => ?_⟩
  · rw [hother m]
    · exact C.live m hm
    · rintro rfl
      exact hn hm
  · by_cases hmn : m = n
    · rw [hmn, Function.update_self]
      exact Or.inr (Or.inr rfl)
    · rw [hother m hmn]
      rcases C.cover m c' hc' with h | h | h
      · exact Or.inl h
      · exact absurd (Option.some.inj h).symm hmn
      · exact Or.inr (Or.inr h)
  · by_cases hmn : m = n
    · rw [hmn, hc, Option.some.injEq] at hc'
      rw [← hc', hdel]
    · rw [hother m hmn] at hr
      exact C.marked m c' hc' hr
  · obtain ⟨h1, h2⟩ := C.bound m hm
    have hmn : m ≠ n := by
      rintro rfl
      rw [hc] at h1
      cases h1
    exact ⟨h1, (hother m hmn).trans h2⟩

/-- The list without a node that the call in progress has nothing to do with. -/
theorem Shape.free {d : Nat} (S : l.Shape xs job) (hd : d ∉ ids xs)
    (hp : job.pending ≠ some d) (ha : job.asked ≠ some d) :
    Shape { l with node := Function.update l.node d none } xs job := by
  have hne : ∀ m, m ≠ d → Function.update l.node d none m = l.node m := fun m hm =>
    Function.update_of_ne hm _ _
  have hseg : ∀ {ys : List (Nat × α)} {b p q e : Option Nat}, (∀ y ∈ ys, y ∈ xs) →
      Seg l.node b p ys q e → Seg (Function.update l.node d none) b p ys q e := by
    intro ys b p q e hsub hs
    refine seg_congr (fun m hm => hne m ?_) hs
    rintro rfl
    obtain ⟨y, hy, rfl⟩ := List.mem_map.mp hm
    exact hd (List.mem_map_of_mem (hsub y hy))
  have hall : ∀ {b p q e : Option Nat}, Seg l.node b p xs q e →
      Seg (Function.update l.node d none) b p xs q e := hseg fun _ hy => hy
  have hout : ∀ {pre post : List (Nat × α)} {m : Nat} {oldPrev oldNext first last : Option Nat},
      xs = pre ++ post → m ≠ d → l.Out pre post m oldPrev oldNext first last →
      Out { l with node := Function.update l.node d none } pre post m oldPrev oldNext first last := by
    rintro pre post m oldPrev oldNext first last rfl hm O
    obtain ⟨data, hc⟩ := O.cell
    exact ⟨hseg (fun y hy => List.mem_append_left _ hy) O.before, ⟨data, (hne m hm).trans hc⟩,
      hseg (fun y hy => List.mem_append_right _ hy) O.after⟩
  have hpd : ∀ m, job.pending = some m → m ≠ d := by
    rintro m hm rfl
    exact hp hm
  cases job with
  | none => exact hall S
  | pushTail => exact hall S
  | pushLoad n =>
    obtain ⟨hw, data, hc⟩ := S
    exact ⟨hall hw, data, (hne n (hpd n rfl)).trans hc⟩
  | pushHead n =>
    obtain ⟨hw, ⟨data, hc⟩, ht⟩ := S
    exact ⟨hall hw, ⟨data, (hne n (hpd n rfl)).trans hc⟩, ht⟩
  | pushBack n =>
    obtain ⟨hw, ⟨data, hc⟩, ht⟩ := S
    exact ⟨hall hw, ⟨data, (hne n (hpd n rfl)).trans hc⟩, ht⟩
  | pushNext n =>
    obtain ⟨hw, ⟨data, hc⟩, ht⟩ := S
    exact ⟨hall hw, ⟨data, (hne n (hpd n rfl)).trans hc⟩, ht⟩
  | eraseTest n =>
    obtain ⟨hw, c, hc, hn⟩ := S
    refine ⟨hall hw, c, (hne n ?_).trans hc, hn⟩
    rintro rfl
    exact ha rfl
  | eraseBack n =>
    obtain ⟨pre, post, p, h, O⟩ := S
    exact ⟨pre, post, p, h, hout h (hpd n rfl) O⟩
  | erasePrev n =>
    obtain ⟨pre, post, h, O⟩ := S
    exact ⟨pre, post, h, hout h (hpd n rfl) O⟩
  | eraseNext n =>
    obtain ⟨pre, post, h, O⟩ := S
    exact ⟨pre, post, h, hout h (hpd n rfl) O⟩
  | eraseAlloc n =>
    obtain ⟨hw, ⟨c, hc, hn⟩, hl⟩ := S
    exact ⟨hall hw, ⟨c, (hne n (hpd n rfl)).trans hc, hn⟩, hl⟩
  | eraseLink n =>
    obtain ⟨hw, ⟨c, hc, hn⟩, hl⟩ := S
    exact ⟨hall hw, ⟨c, (hne n (hpd n rfl)).trans hc, hn⟩, hl⟩

theorem Chain.free {d : Nat} (C : l.Chain retired job xs) (hr : (retired d).isSome = true)
    (ha : job.asked ≠ some d) :
    Chain { l with node := Function.update l.node d none } retired job xs := by
  have hd : d ∉ ids xs := by
    intro hm
    rw [C.live d hm] at hr
    cases hr
  have hp : job.pending ≠ some d := by
    intro hp
    rw [(C.pending d hp).2] at hr
    cases hr
  have hwas : ∀ m c, Function.update l.node d none m = some c → l.node m = some c := by
    intro m c hc
    by_cases hm : m = d
    · rw [hm, Function.update_self] at hc
      cases hc
    · rwa [Function.update_of_ne hm] at hc
  refine ⟨C.shape.free hd hp ha, C.nodup, C.pending, C.live, fun m c hc => C.cover m c (hwas m c hc),
    fun m c hc => C.marked m c (hwas m c hc), fun m hm => ?_⟩
  obtain ⟨h1, h2⟩ := C.bound m hm
  refine ⟨?_, h2⟩
  by_cases hmd : m = d
  · rw [hmd]
    exact Function.update_self _ _ _
  · exact (Function.update_of_ne hmd _ _).trans h1

end NodeList

end CsSignal
