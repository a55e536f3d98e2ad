-- Iterators under a guard. An iterator stands on a node of the list, or on one
-- that was erased after its guard was locked; no call on the list takes that
-- node away, and from it every node that was in the list all along is met.
import CsSignal.Reclaim

namespace CsSignal

open LinkedCells

namespace RcuList

variable {α : Type}

/-- An iterator: the entry of its guard, the node it stands on, and the number
of nodes that the list had allocated when its guard was locked. -/
structure Cursor where
  guard : Nat
  iter : Option Nat
  start : Nat

/-- The addresses of the active guards, newest first. -/
def owned (zs : List Entry) : List Nat := (zs.filter (·.owner)).map Entry.id

/-- The node is in the list, or was erased after the guard `g` was locked. -/
def Reached (live : List (Nat × α)) (zs : List Entry) (g : Nat) (n : Nat) : Prop :=
  n ∈ ids live ∨ ∃ e ∈ zs, g < e.id ∧ e.zombieNode = some n

/-- The entry of the guard is on the stack, and the guard is active. -/
def Locked (zs : List Entry) (g : Nat) (start : Nat) : Prop :=
  ∃ e ∈ zs, e.id = g ∧ e.owner = true ∧ e.era = start

/-- The iterator is safe. -/
def At (live : List (Nat × α)) (zs : List Entry) (c : Cursor) : Prop :=
  Locked zs c.guard c.start ∧ ∀ n, c.iter = some n → Reached live zs c.guard n

/-! ## Stepping -/

theorem era_le {zs : List Entry} (hd : zs.Pairwise fun a b => b.id < a.id)
    (hr : zs.Pairwise fun a b => b.era ≤ a.era) {e e' : Entry} (he : e ∈ zs) (he' : e' ∈ zs)
    (hid : e.id < e'.id) : e.era ≤ e'.era := by
  obtain ⟨as, bs, rfl⟩ := List.append_of_mem he
  simp only [List.pairwise_append, List.pairwise_cons] at hd hr
  simp only [List.mem_append, List.mem_cons] at he'
  rcases he' with he' | rfl | he'
  · exact hr.2.2 e' he' e (by simp)
  · exact absurd hid (Nat.lt_irrefl _)
  · exact absurd hid (Nat.not_lt.mpr (Nat.le_of_lt (hd.2.1.1 e' he')))

/-- What a step along `next` meets, from a node under a guard. -/
theorem Rep.step {l : RcuList α} {live : List (Nat × α)} {zs : List Entry} (h : Rep l live zs)
    {g : Nat} {start : Nat} {n : Nat} (hg : Locked zs g start)
    (hn : Reached live zs g n) :
    ∃ c, l.node n = some c ∧ (∀ y, c.next = some y → n < y ∧ Reached live zs g y) ∧
      ∀ m ∈ ids live, n < m → m < start → ∃ y, c.next = some y ∧ y ≤ m := by
  rcases hn with hn | ⟨e, he, hlt, hz⟩
  · obtain ⟨c, hc, _, _⟩ := h.nodes.cell_of_mem hn
    obtain ⟨h1, h2⟩ := h.nodes.next_of_mem hn hc
    exact ⟨c, hc, fun y hy => ⟨(h1 y hy).1, Or.inl (h1 y hy).2⟩, fun m hm hnm _ => h2 m hm hnm⟩
  · obtain ⟨c, hc, _⟩ := h.kept n (mem_dead.mpr ⟨e, he, hz⟩)
    obtain ⟨h1, h2⟩ := h.frozen e he n hz c hc
    refine ⟨c, hc, fun y hy => ⟨(h1 y hy).1, (h1 y hy).2.imp id ?_⟩, ?_⟩
    · rintro ⟨e', he', hlt', hz'⟩
      exact ⟨e', he', Nat.lt_trans hlt hlt', hz'⟩
    · intro m hm hnm hms
      rcases h2 m hm hnm with hera | hy
      · obtain ⟨eg, heg, rfl, _, rfl⟩ := hg
        exact absurd hms (Nat.not_lt.mpr (Nat.le_trans (era_le h.desc h.eras heg he hlt) hera))
      · exact hy

/-! ## What a call on the list leaves of an iterator -/

theorem Locked.push {zs : List Entry} {g : Nat} {start : Nat} (h : Locked zs g start)
    (e : Entry) : Locked (e :: zs) g start := by
  obtain ⟨eg, heg, hrest⟩ := h
  exact ⟨eg, List.mem_cons_of_mem _ heg, hrest⟩

theorem At.lock {live : List (Nat × α)} {zs : List Entry} {c : Cursor} (h : At live zs c)
    (e : Entry) : At live (e :: zs) c := by
  refine ⟨h.1.push e, fun n hn => (h.2 n hn).imp id ?_⟩
  rintro ⟨e', he', hrest⟩
  exact ⟨e', List.mem_cons_of_mem _ he', hrest⟩

theorem At.pushBack {live : List (Nat × α)} {zs : List Entry} {c : Cursor} (h : At live zs c)
    (x : Nat × α) : At (live ++ [x]) zs c := by
  refine ⟨h.1, fun n hn => (h.2 n hn).imp (fun hm => ?_) id⟩
  simp [hm]

theorem At.erase {live : List (Nat × α)} {zs : List Entry} {c : Cursor} (h : At live zs c)
    {k : Nat} (hk : ∀ e ∈ zs, e.id < k) {live' : List (Nat × α)} {n : Nat} {era : Nat}
    (hl : ∀ m ∈ ids live, m = n ∨ m ∈ ids live') :
    At live' (⟨k, false, some n, era⟩ :: zs) c := by
  refine ⟨h.1.push _, fun i hi => ?_⟩
  obtain ⟨⟨eg, heg, hid, _⟩, hn⟩ := h
  rcases hn i hi with hn | ⟨e', he', hrest⟩
  · rcases hl _ hn with hn | hn
    · exact Or.inr ⟨_, List.mem_cons_self, hid ▸ hk eg heg, by rw [hn]⟩
    · exact Or.inl hn
  · exact Or.inr ⟨e', List.mem_cons_of_mem _ he', hrest⟩

/-- The unlock of another guard frees nothing that the iterator can meet. -/
theorem At.unlock {live : List (Nat × α)} {above below : List Entry} {e : Entry} {c : Cursor}
    (h : At live (above ++ e :: below) c)
    (hd : (above ++ e :: below).Pairwise fun a b => b.id < a.id) (he : e.zombieNode = none)
    (hne : c.guard ≠ e.id) : At live (above ++ unlockedEntries e below) c := by
  obtain ⟨⟨eg, heg, hid, ho, hera⟩, hn⟩ := h
  have hany : eg ∈ below → below.any (·.owner) = true := fun hb =>
    List.any_eq_true.mpr ⟨eg, hb, ho⟩
  have hgne : eg ≠ e := fun hc => hne (hid ▸ hc ▸ rfl)
  simp only [List.pairwise_append, List.pairwise_cons] at hd
  constructor
  · refine ⟨eg, ?_, hid, ho, hera⟩
    simp only [List.mem_append, List.mem_cons] at heg ⊢
    rcases heg with heg | heg | heg
    · exact Or.inl heg
    · exact absurd heg hgne
    · rw [if_pos (hany heg)]
      exact Or.inr (Or.inr heg)
  · refine fun i hi => (hn i hi).imp id ?_
    rintro ⟨e', he', hlt, hz⟩
    refine ⟨e', ?_, hlt, hz⟩
    simp only [List.mem_append, List.mem_cons] at he' heg ⊢
    rcases he' with he' | rfl | he'
    · exact Or.inl he'
    · rw [he] at hz
      cases hz
    · have : eg ∈ below := by
        rcases heg with heg | heg | heg
        · have := hd.2.2 eg heg e' (by simp [he'])
          omega
        · exact absurd heg hgne
        · exact heg
      rw [if_pos (hany this)]
      exact Or.inr (Or.inr he')

theorem owned_unlocked (above below : List Entry) (e : Entry) :
    owned (above ++ unlockedEntries e below) = owned above ++ owned below := by
  unfold owned
  by_cases hb : below.any (·.owner) = true
  · simp [unlockedEntries, hb]
  · have : below.filter (·.owner) = [] := by
      rw [List.filter_eq_nil_iff]
      intro e' he' ho
      exact hb (List.any_eq_true.mpr ⟨e', he', ho⟩)
    simp [unlockedEntries, hb, this]

theorem owned_append (xs ys : List Entry) : owned (xs ++ ys) = owned xs ++ owned ys := by
  simp [owned]

theorem owned_cons_true {e : Entry} (he : e.owner = true) (zs : List Entry) :
    owned (e :: zs) = e.id :: owned zs := by simp [owned, he]

theorem owned_cons_false {e : Entry} (he : e.owner = false) (zs : List Entry) :
    owned (e :: zs) = owned zs := by simp [owned, he]

/-! ## A list between two calls -/

/-- The memory of a list between two calls, with its active guards: each of
them belongs to one of the iterators `cs`, newest first. -/
def Guarded (l : RcuList α) (cs : List Cursor) : Prop :=
  ∃ zs, Rep l l.toList zs ∧ owned zs = cs.map Cursor.guard ∧ ∀ c ∈ cs, At l.toList zs c

theorem guarded_empty : Guarded ({} : RcuList α) [] :=
  ⟨[], rep_empty, rfl, by simp⟩

theorem Rep.toList_eq {l : RcuList α} {live : List (Nat × α)} {zs : List Entry}
    (h : Rep l live zs) : l.toList = live := h.nodes.toList_eq

/-- What a handle does to its list between its lock and its unlock: the stack
only grows, by nodes, and every iterator stays safe. -/
def Grown (l l' : RcuList α) : Prop :=
  l.nodeCount ≤ l'.nodeCount ∧ ∀ zs, Rep l l.toList zs →
    ∃ ext, Rep l' l'.toList (ext ++ zs) ∧ owned ext = [] ∧
      ∀ c, At l.toList zs c → At l'.toList (ext ++ zs) c

theorem Grown.refl (l : RcuList α) : Grown l l :=
  ⟨Nat.le_refl _, fun _ h => ⟨[], h, rfl, fun _ hc => hc⟩⟩

theorem Grown.trans {l l' l'' : RcuList α} (h : Grown l l') (h' : Grown l' l'') : Grown l l'' := by
  refine ⟨Nat.le_trans h.1 h'.1, fun zs hr => ?_⟩
  obtain ⟨ext, hr', ho, ha⟩ := h.2 zs hr
  obtain ⟨ext', hr'', ho', ha'⟩ := h'.2 _ hr'
  refine ⟨ext' ++ ext, by rw [List.append_assoc]; exact hr'', ?_, fun c hc => ?_⟩
  · rw [owned_append, ho, ho']
    rfl
  · rw [List.append_assoc]
    exact ha' c (ha c hc)

/-- A lock, the work of its handle, and the unlock. -/
theorem Guarded.handle {l l' : RcuList α} {cs : List Cursor} (h : Guarded l cs)
    (hw : Grown (l.rcuReadLock).2 l') :
    ∃ l'', l'.unlock (l.rcuReadLock).1 = .ok l'' ∧ l''.toList = l'.toList ∧ Guarded l'' cs ∧
      l''.nodeCount = l'.nodeCount ∧
      ∀ zs, Rep l l.toList zs → (∀ c ∈ cs, At l.toList zs c) → cs ≠ [] → l''.node = l'.node := by
  obtain ⟨zs, hr, ho, ha⟩ := h
  have hl1 : (l.rcuReadLock).2.toList = l.toList := hr.lock.toList_eq
  have hr1 : Rep (l.rcuReadLock).2 (l.rcuReadLock).2.toList (l.guardEntry :: zs) := hl1 ▸ hr.lock
  obtain ⟨ext, hr2, hext, ha2⟩ := hw.2 _ hr1
  obtain ⟨l'', hrun, hr3, _, hnode⟩ := hr2.unlock rfl
  have hl3 : l''.toList = l'.toList := hr3.toList_eq
  refine ⟨l'', hrun, hl3, ⟨_, hl3 ▸ hr3, ?_, ?_⟩, by rw [hnode], ?_⟩
  · rw [owned_unlocked, hext, List.nil_append, ho]
  · intro c hc
    rw [hl3]
    have hc1 : At (l.rcuReadLock).2.toList (l.guardEntry :: zs) c := hl1 ▸ (ha c hc).lock _
    refine (ha2 c hc1).unlock hr2.desc rfl ?_
    obtain ⟨⟨eg, heg, hid, _⟩, _⟩ := ha c hc
    exact hid ▸ Nat.ne_of_lt (hr.zbound eg heg)
  · intro zs' hr' ha' hne
    obtain ⟨c, hc⟩ := List.exists_mem_of_ne_nil cs hne
    obtain ⟨⟨eg, heg, _, hown, _⟩, _⟩ := ha c hc
    have hb : zs.any (·.owner) = true := List.any_eq_true.mpr ⟨eg, heg, hown⟩
    rw [hnode]
    simp [hb]

theorem Rep.grown_pushBack {l : RcuList α} {live : List (Nat × α)} {zs : List Entry}
    (h : Rep l live zs) (a : α) :
    ∃ l', l.pushBack a = .ok l' ∧ l'.toList = live ++ [(l.nodeCount, a)] ∧ Grown l l' ∧
      l'.nodeCount = l.nodeCount + 1 ∧ ∀ m, m ∉ ids live → m ≠ l.nodeCount → l'.node m = l.node m := by
  obtain ⟨l', hrun, hr', hcount, _, _, hsame⟩ := h.pushBack a
  refine ⟨l', hrun, hr'.toList_eq, ⟨by omega, fun zs' hz => ?_⟩, hcount, hsame⟩
  obtain ⟨l2, hrun2, hr2, _⟩ := hz.pushBack a
  rw [hrun, Except.ok.injEq] at hrun2
  subst hrun2
  exact ⟨[], hr2.toList_eq ▸ hr2, rfl, fun c hc => hr2.toList_eq ▸ hc.pushBack _⟩

theorem Rep.grown_erase {l : RcuList α} {pre post : List (Nat × α)} {x : Nat × α}
    {zs : List Entry} (h : Rep l (pre ++ x :: post) zs) :
    ∃ nl c, l.node x.1 = some c ∧ c.data = x.2 ∧ c.next = post.head?.map Prod.fst ∧
      l.toNodeList.unlink x.1 = .ok (c.next, true, nl) ∧
      (l.erased nl x.1).toList = pre ++ post ∧ Grown l (l.erased nl x.1) ∧
      (l.erased nl x.1).nodeCount = l.nodeCount ∧ nl.node x.1 = some { c with deleted := true } ∧
      ∀ m, m ∉ ids (pre ++ x :: post) → nl.node m = l.node m := by
  obtain ⟨nl, c, hc, hdata, hnx, hrun, hcount, hr, hself, hsame⟩ := h.erase
  refine ⟨nl, c, hc, hdata, hnx, hrun, hr.toList_eq, ⟨?_, fun zs' hz => ?_⟩, hcount, hself, hsame⟩
  · exact Nat.le_of_eq hcount.symm
  · have hl := h.toList_eq
    rw [hl] at hz ⊢
    obtain ⟨nl2, c2, _, _, _, hrun2, _, hr2, _⟩ := hz.erase
    rw [hrun, Except.ok.injEq, Prod.mk.injEq, Prod.mk.injEq] at hrun2
    obtain ⟨_, _, rfl⟩ := hrun2
    refine ⟨[⟨l.zombieCount, false, some x.1, l.nodeCount⟩], hr2.toList_eq ▸ hr2, rfl, fun k hk => ?_⟩
    rw [hr2.toList_eq]
    refine hk.erase hz.zbound fun m hm => ?_
    simp only [ids, List.map_append, List.map_cons, List.mem_append, List.mem_cons] at hm ⊢
    tauto

/-! ## A whole call -/

/-- What a call leaves of the memory of a list. While an iterator is active, no
cell goes away, and a node that is not in the list keeps its pointer. -/
structure ListStep (l l' : RcuList α) : Prop where
  guarded : ∀ cs, Guarded l cs → Guarded l' cs
  count : l.nodeCount ≤ l'.nodeCount
  old : ∀ x ∈ l'.toList, x.1 < l.nodeCount → x ∈ l.toList
  cells : ∀ cs, Guarded l cs → cs ≠ [] → ∀ n c, l.node n = some c →
    ∃ c', l'.node n = some c' ∧ c'.data = c.data ∧ (n ∉ ids l'.toList → c'.next = c.next)

theorem ListStep.refl (l : RcuList α) : ListStep l l :=
  ⟨fun _ h => h, Nat.le_refl _, fun _ h _ => h, fun _ _ _ _ c hc => ⟨c, hc, rfl, fun _ => rfl⟩⟩

/-- After a call that leaves the entries alone, the first call counts. -/
theorem ListStep.trans {l l' l'' : RcuList α} (h : ListStep l l') (h' : ListStep l' l'')
    (hsame : l''.toList = l'.toList) : ListStep l l'' := by
  refine ⟨fun cs hc => h'.guarded cs (h.guarded cs hc), Nat.le_trans h.count h'.count,
    fun x hx hlt => h.old x (hsame ▸ hx) hlt, fun cs hc hne n c hn => ?_⟩
  obtain ⟨c', hc', hd', hn'⟩ := h.cells cs hc hne n c hn
  obtain ⟨c'', hc'', hd'', hn''⟩ := h'.cells cs (h.guarded cs hc) hne n c' hc'
  exact ⟨c'', hc'', hd''.trans hd', fun hout => (hn'' hout).trans (hn' (hsame ▸ hout))⟩

/-- A lock, the work of its handle and the unlock, as one step of the list. -/
theorem Guarded.listStep {l l' : RcuList α} {cs : List Cursor} (h : Guarded l cs)
    (hw : Grown (l.rcuReadLock).2 l') (hold : ∀ x ∈ l'.toList, x.1 < l.nodeCount → x ∈ l.toList)
    (hcells : ∀ n c, l.node n = some c →
      ∃ c', l'.node n = some c' ∧ c'.data = c.data ∧ (n ∉ ids l'.toList → c'.next = c.next)) :
    ∃ l'', l'.unlock (l.rcuReadLock).1 = .ok l'' ∧ l''.toList = l'.toList ∧ ListStep l l'' ∧
      l''.nodeCount = l'.nodeCount := by
  obtain ⟨l'', hrun, hl, _, hcount, _⟩ := h.handle hw
  have hdet : ∀ {l2 : RcuList α}, l'.unlock (l.rcuReadLock).1 = .ok l2 → l2 = l'' := fun h2 =>
    Except.ok.inj (h2.symm.trans hrun)
  refine ⟨l'', hrun, hl, ⟨fun cs' hc' => ?_, ?_, fun x hx => hold x (hl ▸ hx), ?_⟩, hcount⟩
  · obtain ⟨l2, hrun2, _, hg2, _⟩ := hc'.handle hw
    exact hdet hrun2 ▸ hg2
  · rw [hcount]
    exact hw.1
  · intro cs' hc' hne n c hn
    obtain ⟨l2, hrun2, _, _, _, hnode⟩ := hc'.handle hw
    obtain ⟨zs, hr, _, ha⟩ := hc'
    obtain ⟨c', hc2, hd, hnx⟩ := hcells n c hn
    have hsame : l''.node = l'.node := hdet hrun2 ▸ hnode zs hr ha hne
    exact ⟨c', (congrFun hsame n).trans hc2, hd, fun hout => hnx (hl ▸ hout)⟩

theorem data_unique {live : List (Nat × α)} (hn : (ids live).Nodup) {n : Nat} {a b : α}
    (ha : (n, a) ∈ live) (hb : (n, b) ∈ live) : a = b := by
  have := List.inj_on_of_nodup_map hn ha hb rfl
  exact congrArg Prod.snd this

/-- A handle that only looks at the list. -/
theorem Guarded.lookStep {l : RcuList α} {cs : List Cursor} (h : Guarded l cs) :
    ∃ l', (l.rcuReadLock).2.unlock (l.rcuReadLock).1 = .ok l' ∧ l'.toList = l.toList ∧
      ListStep l l' ∧ l'.nodeCount = l.nodeCount := by
  obtain ⟨zs, hr, _, _⟩ := id h
  have hl := hr.lock.toList_eq
  obtain ⟨l', hrun, hl', hstep, hcount⟩ := h.listStep (.refl _) (fun x hx _ => by rwa [← hl])
    fun n c hc => ⟨c, hc, rfl, fun _ => rfl⟩
  exact ⟨l', hrun, hl'.trans hl, hstep, hcount⟩

/-- A handle that appends an entry. -/
theorem Guarded.pushStep {l : RcuList α} {cs : List Cursor} (h : Guarded l cs) (a : α) :
    ∃ l1 l', (l.rcuReadLock).2.pushBack a = .ok l1 ∧ l1.unlock (l.rcuReadLock).1 = .ok l' ∧
      l'.toList = l.toList ++ [(l.nodeCount, a)] ∧ ListStep l l' ∧
      l'.nodeCount = l.nodeCount + 1 := by
  obtain ⟨zs, hr, _, _⟩ := id h
  obtain ⟨l1, hpush, hl1, hgrown, hcount, hsame⟩ := hr.lock.grown_pushBack a
  have hl1 : l1.toList = l.toList ++ [(l.nodeCount, a)] := hl1
  have hcount : l1.nodeCount = l.nodeCount + 1 := hcount
  have hold : ∀ x ∈ l1.toList, x.1 < l.nodeCount → x ∈ l.toList := fun x hx hlt => by
    rw [hl1] at hx
    rcases List.mem_append.mp hx with hx | hx
    · exact hx
    · rw [List.mem_singleton.mp hx] at hlt
      exact absurd hlt (Nat.lt_irrefl _)
  obtain ⟨l', hrun, hl', hstep, hcount'⟩ := h.listStep hgrown hold fun n c hc => by
    by_cases hn : n ∈ ids l.toList
    · -- a node of the list keeps its data
      obtain ⟨d, hd, _, hdm⟩ := hr.nodes.cell_of_mem hn
      rw [hc, Option.some.injEq] at hd
      subst hd
      obtain ⟨ext, hr2, _, _⟩ := hgrown.2 _ (hr.lock.toList_eq ▸ hr.lock)
      have hn2 : n ∈ ids l1.toList := by
        rw [hl1]
        simp [hn]
      obtain ⟨d', hd', _, hdm'⟩ := hr2.nodes.cell_of_mem hn2
      refine ⟨d', hd', data_unique hr2.nodes.nodup hdm' ?_, fun hout => absurd hn2 hout⟩
      rw [hl1]
      simp [hdm]
    · have hne : n ≠ l.nodeCount := by
        rintro rfl
        rw [hr.nodes.fresh _ (Nat.le_refl _)] at hc
        cases hc
      exact ⟨c, (hsame n hn hne).trans hc, rfl, fun _ => rfl⟩
  exact ⟨l1, l', hpush, hrun, hl'.trans hl1, hstep, hcount'.trans hcount⟩

/-! ## Erasing in list order -/

/-- The entries `rest` with the property are erased one after the other, first
to last; `pre` are those before them that stay. -/
inductive EraseRun (p : Nat × α → Bool) :
    List (Nat × α) → List (Nat × α) → RcuList α → RcuList α → Prop
  | done (pre : List (Nat × α)) (l : RcuList α) : EraseRun p pre [] l l
  | keep {pre rest : List (Nat × α)} {x : Nat × α} {l l' : RcuList α} :
      p x = false → EraseRun p (pre ++ [x]) rest l l' → EraseRun p pre (x :: rest) l l'
  | erase {pre rest : List (Nat × α)} {x : Nat × α} {l l' : RcuList α} {nl : NodeList α}
      {nx : Option Nat} :
      p x = true → l.toNodeList.unlink x.1 = .ok (nx, true, nl) →
      EraseRun p pre rest (l.erased nl x.1) l' → EraseRun p pre (x :: rest) l l'

/-- What a run of erasures leaves: the list without the entries, every iterator
safe, and each erased node with the pointer it had. -/
theorem EraseRun.spec {p : Nat × α → Bool} {pre rest : List (Nat × α)} {l l' : RcuList α}
    (h : EraseRun p pre rest l l') {zs : List Entry} (hr : Rep l (pre ++ rest) zs) :
    l'.toList = pre ++ rest.filter (fun x => !p x) ∧ Grown l l' ∧ l'.nodeCount = l.nodeCount ∧
      (∀ x ∈ rest, p x = true → ∃ c c', l.node x.1 = some c ∧ l'.node x.1 = some c' ∧
        c'.next = c.next ∧ c'.data = c.data) ∧
      ∀ m, m ∉ ids (pre ++ rest) → l'.node m = l.node m := by
  induction h generalizing zs with
  | done pre l => exact ⟨by simpa using hr.toList_eq, .refl l, rfl, by simp, fun _ _ => rfl⟩
  | @keep pre rest x l l' hp _ ih =>
    have hr' : Rep l ((pre ++ [x]) ++ rest) zs := by simpa using hr
    obtain ⟨h1, h2, h3, h4, h5⟩ := ih hr'
    refine ⟨by simpa [hp] using h1, h2, h3, fun y hy hpy => ?_, fun m hm => h5 m (by simpa using hm)⟩
    rcases List.mem_cons.mp hy with rfl | hy
    · rw [hp] at hpy
      cases hpy
    · exact h4 y hy hpy
  | @erase pre rest x l l' nl nx hp hrun _ ih =>
    obtain ⟨nl', c, hc, _, _, hrun', hl1, hg, hcount, hself, hsame⟩ := hr.grown_erase
    rw [hrun, Except.ok.injEq, Prod.mk.injEq, Prod.mk.injEq] at hrun'
    obtain ⟨_, _, rfl⟩ := hrun'
    obtain ⟨ext, hr1, _, _⟩ := hg.2 zs (hr.toList_eq ▸ hr)
    rw [hl1] at hr1
    obtain ⟨h1, h2, h3, h4, h5⟩ := ih hr1
    have hnd := hr.nodes.nodup
    simp only [ids, List.map_append, List.map_cons, List.nodup_append, List.nodup_cons] at hnd
    have hxout : x.1 ∉ ids (pre ++ rest) := by
      simp only [ids, List.map_append, List.mem_append, not_or]
      exact ⟨fun hm => hnd.2.2 _ hm x.1 (by simp) rfl, hnd.2.1.1⟩
    refine ⟨by simpa [hp] using h1, hg.trans h2, h3.trans hcount, fun y hy hpy => ?_, fun m hm => ?_⟩
    · rcases List.mem_cons.mp hy with rfl | hy
      · exact ⟨c, _, hc, (h5 y.1 hxout).trans hself, rfl, rfl⟩
      · -- a later entry: its cell still has its pointer after this erasure
        obtain ⟨d, d', hd, hd', hn, hdat⟩ := h4 y hy hpy
        obtain ⟨as, bs, rfl⟩ := List.append_of_mem hy
        have hcell := hr.nodes.cell (show _ = (pre ++ x :: as) ++ y :: bs by simp)
        have hcell1 := hr1.nodes.cell (show _ = (pre ++ as) ++ y :: bs by simp)
        have hd1 : d = _ := Option.some.inj (hd.symm.trans hcell1)
        refine ⟨_, d', hcell, hd', ?_, ?_⟩
        · rw [hn, hd1]
        · rw [hdat, hd1]
    · have hm' : m ∉ ids (pre ++ rest) := by
        simp only [ids, List.map_append, List.map_cons, List.mem_append, List.mem_cons] at hm ⊢
        tauto
      exact (h5 m hm').trans (hsame m hm)

/-- No erasure changes the data of a node, nor the pointer of one that is gone. -/
theorem EraseRun.cells {p : Nat × α → Bool} {live : List (Nat × α)} {l l' : RcuList α}
    (h : EraseRun p [] live l l') {zs : List Entry} (hr : Rep l live zs) :
    ∀ n c, l.node n = some c →
      ∃ c', l'.node n = some c' ∧ c'.data = c.data ∧ (n ∉ ids l'.toList → c'.next = c.next) := by
  obtain ⟨hl, hg, _, herased, hsame⟩ := h.spec (by simpa using hr)
  obtain ⟨ext, hr', _, _⟩ := hg.2 zs (hr.toList_eq ▸ hr)
  intro n c hc
  by_cases hn : n ∈ ids live
  · obtain ⟨x, hx, rfl⟩ := List.mem_map.mp hn
    by_cases hp : p x = true
    · obtain ⟨d, d', hd, hd', hnx, hdat⟩ := herased x hx hp
      rw [hc, Option.some.injEq] at hd
      subst hd
      exact ⟨d', hd', hdat, fun _ => hnx⟩
    · have hxl : x ∈ l'.toList := by
        rw [hl]
        simpa [hx] using hp
      have hxi : x.1 ∈ ids l'.toList := List.mem_map_of_mem hxl
      obtain ⟨d', hd', _, hdm⟩ := hr'.nodes.cell_of_mem hxi
      obtain ⟨d, hd, _, hdm'⟩ := hr.nodes.cell_of_mem hn
      rw [hc, Option.some.injEq] at hd
      subst hd
      exact ⟨d', hd', (data_unique hr'.nodes.nodup hdm hxl).trans
        (data_unique hr.nodes.nodup hdm' hx).symm, fun hout => absurd hxi hout⟩
  · exact ⟨c, (hsame n (by simpa using hn)).trans hc, rfl, fun _ => rfl⟩

/-- A handle that erases the entries with the property. -/
theorem Guarded.eraseStep {l l1 : RcuList α} {cs : List Cursor} {p : Nat × α → Bool}
    (h : Guarded l cs) (hE : EraseRun p [] l.toList (l.rcuReadLock).2 l1) :
    ∃ l', l1.unlock (l.rcuReadLock).1 = .ok l' ∧ l'.toList = l.toList.filter (fun x => !p x) ∧
      ListStep l l' := by
  obtain ⟨zs, hr, _, _⟩ := id h
  obtain ⟨hl1, hg, _⟩ := hE.spec (by simpa using hr.lock)
  rw [List.nil_append] at hl1
  obtain ⟨l', hrun, hl', hstep, _⟩ := h.listStep hg
    (fun x hx _ => by
      rw [hl1] at hx
      exact (List.mem_filter.mp hx).1)
    (hE.cells hr.lock)
  exact ⟨l', hrun, hl'.trans hl1, hstep⟩

end RcuList

end CsSignal
