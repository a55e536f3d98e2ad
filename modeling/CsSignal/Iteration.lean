-- The moves of an iterator: its lock, a step along `next`, the search for the
-- next entry with a property, and its unlock. A search that starts under a
-- guard loses no entry that was in the list at the lock.
import CsSignal.Cursor

namespace CsSignal

open LinkedCells

namespace RcuList

variable {α : Type}

theorem Guarded.count_pos {l : RcuList α} {cs : List Cursor} (h : Guarded l cs) {n : Nat}
    {c : Node α} (hc : l.node n = some c) : n < l.nodeCount := by
  obtain ⟨zs, hr, _, _⟩ := h
  refine Nat.lt_of_not_le fun hge => ?_
  rw [hr.nodes.fresh n hge] at hc
  cases hc

theorem Guarded.bound {l : RcuList α} {cs : List Cursor} (h : Guarded l cs) {x : Nat × α}
    (hx : x ∈ l.toList) : x.1 < l.nodeCount := by
  obtain ⟨zs, hr, _, _⟩ := h
  exact hr.nodes.bound _ (List.mem_map_of_mem hx)

theorem Guarded.head_le {l : RcuList α} {cs : List Cursor} (h : Guarded l cs) :
    (∀ y, l.head = some y → y ∈ ids l.toList) ∧
      ∀ x ∈ l.toList, ∃ i, l.head = some i ∧ i ≤ x.1 := by
  obtain ⟨zs, hr, _, _⟩ := h
  exact ⟨hr.nodes.head_le.1, fun x hx => hr.nodes.head_le.2 x.1 (List.mem_map_of_mem hx)⟩

/-- A new guard, with an iterator at the head. -/
theorem Guarded.lock {l : RcuList α} {cs : List Cursor} (h : Guarded l cs) :
    Guarded l.rcuReadLock.2 (⟨l.rcuReadLock.1, l.head, l.nodeCount⟩ :: cs) ∧
      l.rcuReadLock.2.toList = l.toList := by
  obtain ⟨zs, hr, ho, ha⟩ := h
  have hl : l.rcuReadLock.2.toList = l.toList := hr.lock.toList_eq
  refine ⟨⟨l.guardEntry :: zs, by rw [hl]; exact hr.lock, ?_, fun c hc => ?_⟩, hl⟩
  · rw [owned_cons_true rfl, ho]
    rfl
  · rw [hl]
    rcases List.mem_cons.mp hc with rfl | hc
    · exact ⟨⟨_, List.mem_cons_self, rfl, rfl, rfl⟩, fun n hn => Or.inl (hr.nodes.head_le.1 n hn)⟩
    · exact (ha c hc).lock _

/-- A step of the newest iterator. -/
theorem Guarded.next {l : RcuList α} {g st n : Nat} {cs : List Cursor}
    (h : Guarded l (⟨g, some n, st⟩ :: cs)) :
    ∃ c, l.node n = some c ∧ Guarded l (⟨g, c.next, st⟩ :: cs) ∧
      (∀ y, c.next = some y → n < y) ∧
      ∀ m ∈ ids l.toList, n < m → m < st → ∃ y, c.next = some y ∧ y ≤ m := by
  obtain ⟨zs, hr, ho, ha⟩ := h
  obtain ⟨hlk, hreach⟩ := ha _ List.mem_cons_self
  obtain ⟨c, hc, hnext, hall⟩ := hr.step hlk (hreach n rfl)
  refine ⟨c, hc, ⟨zs, hr, ho, fun c' hc' => ?_⟩, fun y hy => (hnext y hy).1, hall⟩
  rcases List.mem_cons.mp hc' with rfl | hc'
  · exact ⟨hlk, fun y hy => (hnext y hy).2⟩
  · exact ha c' (List.mem_cons_of_mem _ hc')

/-- The search of the newest iterator, from where it stands. -/
theorem Guarded.find {l : RcuList α} {p : α → Bool} {g st : Nat} {cs : List Cursor} {fuel : Nat}
    {iter : Option Nat} (h : Guarded l (⟨g, iter, st⟩ :: cs))
    (hf : ∀ n, iter = some n → l.nodeCount ≤ n + fuel) :
    ∃ res, l.find p fuel iter = .ok res ∧ Guarded l (⟨g, res, st⟩ :: cs) ∧
      (∀ n, res = some n → (∃ i, iter = some i ∧ i ≤ n) ∧ ∃ c, l.node n = some c ∧ p c.data) ∧
      ∀ x ∈ l.toList, p x.2 → x.1 < st → (∃ i, iter = some i ∧ i ≤ x.1) →
        ∃ n, res = some n ∧ n ≤ x.1 := by
  induction fuel generalizing iter with
  | zero =>
    cases iter with
    | none => exact ⟨none, rfl, h, by simp, fun x _ _ _ hi => by obtain ⟨i, hi, _⟩ := hi; cases hi⟩
    | some n =>
      obtain ⟨c, hc, _⟩ := h.next
      have := h.count_pos hc
      have := hf n rfl
      omega
  | succ fuel ih =>
    cases iter with
    | none => exact ⟨none, rfl, h, by simp, fun x _ _ _ hi => by obtain ⟨i, hi, _⟩ := hi; cases hi⟩
    | some n =>
      obtain ⟨c, hc, hnext, hlt, hall⟩ := h.next
      simp only [NodeList.find, NodeList.deref, hc, ok_bind]
      by_cases hp : p c.data = true
      · rw [if_pos hp]
        exact ⟨some n, rfl, h, fun m hm => by cases hm; exact ⟨⟨n, rfl, Nat.le_refl _⟩, c, hc, hp⟩,
          fun x _ _ _ hi => by obtain ⟨i, hi, hle⟩ := hi; cases hi; exact ⟨n, rfl, hle⟩⟩
      · rw [if_neg hp]
        obtain ⟨res, hrun, hg, hres, hmeet⟩ := ih hnext fun y hy => by
          have := hlt y hy
          have := hf n rfl
          omega
        refine ⟨res, hrun, hg, fun m hm => ?_, fun x hx hpx hst hi => ?_⟩
        · obtain ⟨⟨i, hi, hle⟩, hcell⟩ := hres m hm
          have := hlt i hi
          exact ⟨⟨n, rfl, by omega⟩, hcell⟩
        · obtain ⟨i, hi, hle⟩ := hi
          cases hi
          -- the entry is not the one that was passed
          have hne : n ≠ x.1 := by
            rintro rfl
            obtain ⟨zs, hr, _, _⟩ := h
            obtain ⟨d, hd, _, hdm⟩ := hr.nodes.cell_of_mem (List.mem_map_of_mem hx)
            rw [hc, Option.some.injEq] at hd
            subst hd
            exact hp (data_unique hr.nodes.nodup hdm hx ▸ hpx)
          have hlt' : n < x.1 := Nat.lt_of_le_of_ne hle hne
          exact hmeet x hx hpx hst (hall x.1 (List.mem_map_of_mem hx) hlt' hst)

theorem owned_split {zs : List Entry} {g : Nat} {gs : List Nat} (h : owned zs = g :: gs) :
    ∃ above e below, zs = above ++ e :: below ∧ owned above = [] ∧ e.owner = true ∧ e.id = g ∧
      owned below = gs := by
  induction zs with
  | nil => cases h
  | cons a as ih =>
    by_cases ho : a.owner = true
    · rw [owned_cons_true ho, List.cons.injEq] at h
      exact ⟨[], a, as, rfl, rfl, ho, h.1, h.2⟩
    · have ho' : a.owner = false := by simpa using ho
      rw [owned_cons_false ho'] at h
      obtain ⟨above, e, below, rfl, h1, h2, h3, h4⟩ := ih h
      exact ⟨a :: above, e, below, rfl, by rw [owned_cons_false ho', h1], h2, h3, h4⟩

theorem any_of_owned {zs : List Entry} (h : owned zs ≠ []) : zs.any (·.owner) = true := by
  rw [List.any_eq_true]
  by_contra hc
  refine h ?_
  rw [owned, List.map_eq_nil_iff, List.filter_eq_nil_iff]
  exact fun e he ho => hc ⟨e, he, ho⟩

/-- The unlock of the newest iterator frees nothing that another one needs. -/
theorem Guarded.unlock {l : RcuList α} {c : Cursor} {cs : List Cursor} (h : Guarded l (c :: cs)) :
    ∃ l', l.unlock c.guard = .ok l' ∧ Guarded l' cs ∧ l'.toList = l.toList ∧
      l'.nodeCount = l.nodeCount ∧ (cs ≠ [] → l'.node = l.node) := by
  obtain ⟨zs, hr, ho, ha⟩ := h
  obtain ⟨above, e, below, rfl, habove, heo, hid, hbelow⟩ := owned_split ho
  obtain ⟨l', hrun, hr', _, hnode⟩ := hr.unlock heo
  have hl := hr'.toList_eq
  have hez : e.zombieNode = none := hr.guards e (by simp) heo
  refine ⟨l', hid ▸ hrun, ⟨_, by rw [hl]; exact hr', ?_, fun c' hc' => ?_⟩, hl, by rw [hnode],
    fun hne => ?_⟩
  · rw [owned_unlocked, habove, hbelow]
    rfl
  · rw [hl]
    refine (ha c' (List.mem_cons_of_mem _ hc')).unlock hr.desc hez ?_
    -- the other guards are below
    have hg : c'.guard ∈ owned below := by
      rw [hbelow]
      exact List.mem_map_of_mem hc'
    obtain ⟨e', he', hid'⟩ := List.mem_map.mp hg
    have hdesc := hr.desc
    simp only [List.pairwise_append, List.pairwise_cons] at hdesc
    rw [← hid']
    exact Nat.ne_of_lt (hdesc.2.1.1 e' (List.mem_of_mem_filter he'))
  · have hb : below.any (·.owner) = true := any_of_owned (by
      rw [hbelow]
      exact fun hn => hne (List.map_eq_nil_iff.mp hn))
    rw [hnode]
    simp [hb]

/-- The unlock of the newest guard of a list whose object is gone. -/
theorem Suffix.unlockOwned {l : RcuList α} {es : List Entry} {g : Nat} {gs : List Nat}
    (h : Suffix l es) (ho : owned es = g :: gs) :
    ∃ l' es', l.unlock g = .ok l' ∧ Suffix l' es' ∧ owned es' = gs ∧
      (gs ≠ [] → l'.node = l.node) := by
  obtain ⟨above, e, below, rfl, _, heo, rfl, hbelow⟩ := owned_split ho
  obtain ⟨l', hrun, hsuf, _, _, _, _, hnode⟩ := h.drop.unlock heo
  refine ⟨l', _, hrun, hsuf, ?_, fun hne => ?_⟩
  · have := owned_unlocked [] below e
    rw [List.nil_append] at this
    rw [this, hbelow]
    rfl
  · rw [hnode]
    simp [any_of_owned (hbelow ▸ hne)]

end RcuList

end CsSignal
