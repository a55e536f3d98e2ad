-- A walk through a list that is shared, from `begin` by `++`, or by what `erase`
-- returns, to the end, while writers push and erase one store at a time. The walk meets
-- the nodes in the order of the list, none twice, and none that was not in the list
-- since it began; it misses no node that stays in the list; and it ends when the pushes do.
import CsSignal.SharedLinks

namespace CsSignal

open LinkedCells

namespace SharedList

variable {α : Type} {σ σ' σ0 σ1 : SharedList α} {h : Handle} {e : Event α}
  {bs : List (Handle × Event α)}

/-! ## The nodes that are visited -/

/-- The step moves the iterator of the handle. -/
def Moves (h : Handle) (σ σ' : SharedList α) (x : Handle × Event α) : Prop :=
  x.1 = h ∧ x.2.advances (σ.phase h).job (σ'.phase h).job = true

instance (h : Handle) (σ σ' : SharedList α) (x : Handle × Event α) : Decidable (Moves h σ σ' x) :=
  inferInstanceAs (Decidable (_ ∧ _))

/-- The node that a step brings the iterator of the handle to. -/
def arrival (h : Handle) (σ σ' : SharedList α) (x : Handle × Event α) : List Nat :=
  if Moves h σ σ' x then (σ'.iterator h).toList else []

def arrivals (h : Handle) : SharedList α → List (Handle × Event α) → List Nat
  | _, [] => []
  | σ, x :: bs =>
    match σ.step x with
    | .ok σ' => arrival h σ σ' x ++ arrivals h σ' bs
    | .error _ => []

/-- The nodes that the walk stands on in a run from `begin`, the first one included. -/
def visited (σ0 : SharedList α) (h : Handle) (bs : List (Handle × Event α)) : List Nat :=
  (σ0.iterator h).toList ++ arrivals h σ0 bs

/-- The run from `σ` comes through the state. -/
def Through (σ : SharedList α) (bs : List (Handle × Event α)) (σc : SharedList α) : Prop :=
  ∃ cs, cs <+: bs ∧ Runs.run step σ cs = .ok σc

theorem through_here (σ : SharedList α) (bs : List (Handle × Event α)) : Through σ bs σ :=
  ⟨[], List.nil_prefix, rfl⟩

theorem Through.cons {x : Handle × Event α} {σc : SharedList α} (hs : σ.step x = .ok σ')
    (ht : Through σ' bs σc) : Through σ (x :: bs) σc := by
  obtain ⟨cs, hcs, hr⟩ := ht
  exact ⟨x :: cs, List.cons_prefix_cons.mpr ⟨rfl, hcs⟩, Runs.run_cons.mpr ⟨σ', hs, hr⟩⟩

/-! ## The walk -/

/-- A walk of the handle that has visited `vs`. `seen` are the nodes that were in the
list at some moment since it began, and `always` those that were in it all the time. -/
structure Walk (σ : SharedList α) (h : Handle) (seen always : Nat → Prop) (vs : List Nat) :
    Prop where
  linked : Linked σ
  walks : (σ.phase h).walks = some (σ.iterator h)
  trail : Trail σ.list.node σ.list.head σ.list.nodeCount seen always
  visits : Visits (σ.iterator h) seen always vs

theorem iterator_of_walks {iter : Option Nat} (hi : (σ.phase h).walks = some iter) :
    σ.iterator h = iter := by
  unfold iterator
  cases hp : σ.phase h with
  | active write z it job =>
    rw [hp] at hi
    exact Option.some.inj hi
  | _ =>
    rw [hp] at hi
    cases hi

theorem begin_step (hb : σ.step (h, .begin) = .ok σ0) :
    ∃ write z, σ0 = σ.goto h (.active write z σ.list.head .none) := by
  cases hp : σ.phase h with
  | active write z iter job =>
    by_cases hj : job = .none
    · subst hj
      simp only [step, hp] at hb
      cases hb
      exact ⟨write, z, rfl⟩
    · cases job with
      | none => exact absurd rfl hj
      | eraseLink current assign oldNext newZombie stage =>
        simp only [step, hp] at hb
        cases stage <;> cases hb
      | _ =>
        simp only [step, hp] at hb
        cases hb
  | lock write z stage =>
    simp only [step, hp] at hb
    cases stage <;> cases hb
  | _ =>
    simp only [step, hp] at hb
    cases hb

theorem Walk.start (L : Linked σ) (hb : σ.step (h, .begin) = .ok σ0) :
    Walk σ0 h σ0.InList σ0.InList (σ0.iterator h).toList := by
  have L0 := L.after hb (L.went hb)
  obtain ⟨write, z, rfl⟩ := begin_step hb
  have hw : ((σ.goto h (.active write z σ.list.head .none)).phase h).walks = some σ.list.head := by
    rw [goto_phase]
    rfl
  have hi := iterator_of_walks hw
  refine ⟨L0, by rw [hi, hw], .start L0.ascends fun n => L0.in_list_lt, ?_⟩
  rw [hi]
  exact .start L0.ascends

/-- A step leaves the iterator where it is, or moves it along the pointer of its node. -/
theorem Walk.turn {seen always : Nat → Prop} {vs : List Nat} {x : Handle × Event α}
    (W : Walk σ h seen always vs) (hs : σ.step x = .ok σ') (hx : x.1 = h → x.2.Walks) :
    ¬ Moves h σ σ' x ∧ (σ'.phase h).walks = some (σ.iterator h) ∨
      Moves h σ σ' x ∧ ∃ n c, σ.iterator h = some n ∧ σ.list.node n = some c ∧
        (σ'.phase h).walks = some c.next := by
  obtain ⟨h', e⟩ := x
  have G := W.linked.went hs
  by_cases hh : h' = h
  · subst hh
    rcases G.walk _ W.walks (hx rfl) with ⟨hstay, hi⟩ | ⟨hadv, hi⟩
    · refine Or.inl ⟨fun hm => ?_, hi⟩
      have hm := hm.2
      rw [hstay] at hm
      cases hm
    · exact Or.inr ⟨⟨rfl, hadv⟩, hi⟩
  · refine Or.inl ⟨fun hm => hh hm.1, ?_⟩
    rw [G.others h (Ne.symm hh)]
    exact W.walks

theorem Walk.step {seen always : Nat → Prop} {vs : List Nat} {x : Handle × Event α}
    (W : Walk σ h seen always vs) (hs : σ.step x = .ok σ') (hx : x.1 = h → x.2.Walks) :
    Walk σ' h (fun n => seen n ∨ σ'.InList n) (fun m => always m ∧ σ'.InList m)
      (vs ++ arrival h σ σ' x) := by
  have G := W.linked.went hs
  have L' := W.linked.after hs G
  have T' := W.trail.edit W.linked.ascends G.edit fun n => L'.in_list_lt
  have V := W.visits
  rcases W.turn hs hx with ⟨hm, hi⟩ | ⟨hm, n, c, hn, hc, hi⟩
  · have hiter := iterator_of_walks hi
    refine ⟨L', by rw [hi, hiter], T', ?_⟩
    rw [arrival, if_neg hm, List.append_nil, hiter]
    exact V.mono (fun n => Or.inl) fun m => And.left
  · have hiter := iterator_of_walks hi
    rw [hn] at V
    refine ⟨L', by rw [hi, hiter], T', ?_⟩
    rw [arrival, if_pos hm, hiter]
    exact (V.next W.linked.ascends W.trail hc).mono (fun n => Or.inl) fun m => And.left

/-- What was in the list on the way was in it at some state that the run comes
through, and what is in all these states was in it all the time. -/
theorem Walk.run {seen always : Nat → Prop} {vs : List Nat} (W : Walk σ h seen always vs)
    (hr : Runs.run SharedList.step σ bs = .ok σ1) (hw : ∀ x ∈ bs, x.1 = h → x.2.Walks) :
    ∃ seen' always', Walk σ1 h seen' always' (vs ++ arrivals h σ bs) ∧
      (∀ n, seen' n → seen n ∨ ∃ σc, Through σ bs σc ∧ σc.InList n) ∧
      ∀ m, always m → (∀ σc, Through σ bs σc → σc.InList m) → always' m := by
  induction bs generalizing σ seen always vs with
  | nil =>
    cases hr
    rw [arrivals, List.append_nil]
    exact ⟨seen, always, W, fun n => Or.inl, fun m hm _ => hm⟩
  | cons x bs ih =>
    obtain ⟨σ', hs, hr⟩ := Runs.run_cons.mp hr
    have W' := W.step hs (hw x List.mem_cons_self)
    obtain ⟨seen', always', W1, hseen, halways⟩ :=
      ih W' hr fun y hy => hw y (List.mem_cons_of_mem _ hy)
    refine ⟨seen', always', ?_, fun n hn => ?_, fun m hm hall => ?_⟩
    · simp only [arrivals, hs]
      rw [← List.append_assoc]
      exact W1
    · rcases hseen n hn with (hn | hn) | ⟨σc, ht, hn⟩
      · exact Or.inl hn
      · exact Or.inr ⟨σ', (through_here σ' bs).cons hs, hn⟩
      · exact Or.inr ⟨σc, ht.cons hs, hn⟩
    · refine halways m ⟨hm, hall σ' ((through_here σ' bs).cons hs)⟩ fun σc ht => ?_
      exact hall σc (ht.cons hs)

/-! ## What a walk keeps to -/

/-- One node comes before another one in the list. -/
def Before (σ : SharedList α) (n m : Nat) : Prop :=
  ∃ c, σ.list.node n = some c ∧ Reaches σ.list.node c.next m

theorem Linked.before_iff {n m : Nat} (L : Linked σ) (hn : σ.InList n) (hm : σ.InList m) :
    n < m ↔ σ.Before n m := by
  constructor
  · exact L.ascends.before hn hm
  · rintro ⟨c, hc, hr⟩
    exact L.ascends.lt hc hr

/-- A node is allocated by a push only. -/
theorem Linked.count_step {x : Handle × Event α} (L : Linked σ) (hs : σ.step x = .ok σ') :
    σ'.list.nodeCount = σ.list.nodeCount ∨
      x.2.isPush = true ∧ σ'.list.nodeCount = σ.list.nodeCount + 1 := by
  rcases (L.went hs).count with hc | ⟨_, ⟨data, he⟩, hc⟩
  · exact Or.inl hc
  · rw [he]
    exact Or.inr ⟨rfl, hc⟩

theorem Linked.count_run (L : Linked σ) (hr : Runs.run step σ bs = .ok σ1) :
    σ1.list.nodeCount ≤ σ.list.nodeCount + bs.countP fun x => x.2.isPush := by
  induction bs generalizing σ with
  | nil =>
    cases hr
    exact Nat.le_refl _
  | cons x bs ih =>
    obtain ⟨σ', hs, hr⟩ := Runs.run_cons.mp hr
    have hle := ih (L.after hs (L.went hs)) hr
    rw [List.countP_cons]
    rcases L.count_step hs with hc | ⟨hp, hc⟩
    · omega
    · rw [if_pos hp]
      omega

/-- What holds of a walk of the handle, from `begin` in `σ0`, after the steps `bs`. -/
structure Traversed (σ0 : SharedList α) (h : Handle) (bs : List (Handle × Event α))
    (σ1 : SharedList α) : Prop where
  /-- The addresses of the nodes that are visited rise, -/
  sorted : (visited σ0 h bs).Pairwise (· < ·)
  /-- and their order is the order in which the list has the nodes, at any time. -/
  listOrder : ∀ σc, Through σ0 bs σc → ∀ n m, σc.InList n → σc.InList m → (n < m ↔ σc.Before n m)
  wasIn : ∀ n ∈ visited σ0 h bs, ∃ σc, Through σ0 bs σc ∧ σc.InList n
  /-- At the end no node is missed that was in the list all the time. -/
  complete : σ1.iterator h = none →
    ∀ m, (∀ σc, Through σ0 bs σc → σc.InList m) → m ∈ visited σ0 h bs
  bounded : (visited σ0 h bs).length ≤ σ0.list.nodeCount + bs.countP fun x => x.2.isPush
  /-- Before the end the handle can go on. -/
  goes : (σ1.phase h).job = .none → σ1.iterator h ≠ none →
    ∃ σ2, σ1.step (h, .next) = .ok σ2

theorem Walk.goes {seen always : Nat → Prop} {vs : List Nat} (W : Walk σ h seen always vs)
    (hj : (σ.phase h).job = .none) (hi : σ.iterator h ≠ none) :
    ∃ σ2, σ.step (h, .next) = .ok σ2 := by
  obtain ⟨n, hn⟩ := Option.ne_none_iff_exists'.mp hi
  have hw := W.walks
  cases hp : σ.phase h with
  | active write z iter job =>
    have hguard : σ.Guarding h := ⟨z, by rw [hp]; rfl, by rw [hp]; rfl⟩
    have hreach : Reaches σ.list.node (σ.iterator h) n := hn ▸ .here
    have hsome := W.linked.safe.in_reach ⟨hguard, Or.inl hreach⟩
    obtain ⟨c, hc⟩ := Option.isSome_iff_exists.mp hsome
    rw [hp] at hj
    obtain rfl : job = .none := hj
    obtain rfl : iter = some n := by
      simpa only [iterator, hp] using hn
    simp only [SharedList.step, hp, activeStep, deref_ok hc, ok_bind]
    exact ⟨_, rfl⟩
  | _ =>
    rw [hp] at hw
    cases hw

theorem Walk.traversed {seen always : Nat → Prop} (L : Linked σ0)
    (hr : Runs.run SharedList.step σ0 bs = .ok σ1)
    (W : Walk σ1 h seen always (visited σ0 h bs))
    (hseen : ∀ n, seen n → ∃ σc, Through σ0 bs σc ∧ σc.InList n)
    (halways : ∀ m, (∀ σc, Through σ0 bs σc → σc.InList m) → always m) :
    Traversed σ0 h bs σ1 where
  sorted := W.visits.sorted
  listOrder σc ht n m hn hm := by
    obtain ⟨cs, _, hc⟩ := ht
    exact (L.run hc).before_iff hn hm
  wasIn n hn := hseen n (W.visits.seen n hn)
  complete hend m hm := by
    rcases W.visits.missed m (halways m hm) with hv | ⟨n, hn, _⟩
    · exact hv
    · rw [hend] at hn
      cases hn
  bounded := by
    refine Nat.le_trans (length_le_of_bound ?_ fun n hn => ?_) (L.count_run hr)
    · exact W.visits.sorted.imp Nat.ne_of_lt
    · exact W.trail.bound n (W.visits.seen n hn)
  goes := W.goes

/-! ## The end of a walk -/

/-- The addresses that are left for the walk. -/
def left (σ : SharedList α) (h : Handle) : Nat :=
  match σ.iterator h with
  | some n => σ.list.nodeCount - n
  | none => 0

theorem Walk.iterator_lt {seen always : Nat → Prop} {vs : List Nat} {n : Nat}
    (W : Walk σ h seen always vs) (hn : σ.iterator h = some n) : n < σ.list.nodeCount :=
  W.trail.bound n (W.visits.seen n (W.visits.here n hn).1)

theorem Walk.left_step {seen always : Nat → Prop} {vs : List Nat} {x : Handle × Event α}
    (W : Walk σ h seen always vs) (hs : σ.step x = .ok σ') (hx : x.1 = h → x.2.Walks)
    (hpush : x.2.isPush = false) :
    σ'.left h ≤ σ.left h ∧ (Moves h σ σ' x → σ'.left h < σ.left h) := by
  have hcount : σ'.list.nodeCount = σ.list.nodeCount := by
    rcases W.linked.count_step hs with hc | ⟨hp, _⟩
    · exact hc
    · rw [hpush] at hp
      cases hp
  rcases W.turn hs hx with ⟨hm, hi⟩ | ⟨_, n, c, hn, hc, hi⟩
  · refine ⟨Nat.le_of_eq ?_, fun he => absurd he hm⟩
    unfold left
    rw [iterator_of_walks hi, hcount]
  · have hlt : σ'.left h < σ.left h := by
      have hbound := W.iterator_lt hn
      unfold left
      rw [iterator_of_walks hi, hn, hcount]
      cases hnext : c.next with
      | none => exact Nat.sub_pos_of_lt hbound
      | some y =>
        have hup := W.linked.ascends n c y hc hnext
        exact Nat.sub_lt_sub_left hbound hup
    exact ⟨Nat.le_of_lt hlt, fun _ => hlt⟩

/-- The handles go on for ever, in any order: the walk goes on as long as it is not at
the end, and from some time on nothing is pushed. -/
structure Schedule (σ0 : SharedList α) (h : Handle) (st : Nat → SharedList α)
    (x : Nat → Handle × Event α) : Prop where
  start : st 0 = σ0
  follows : ∀ i, (st i).step (x i) = .ok (st (i + 1))
  walks : ∀ i, (x i).1 = h → (x i).2.Walks
  turns : ∀ i, (st i).iterator h ≠ none → ∃ j, i ≤ j ∧ Moves h (st j) (st (j + 1)) (x j)
  pushes : ∃ k, ∀ i, k ≤ i → (x i).2.isPush = false

theorem Schedule.walk {st : Nat → SharedList α} {x : Nat → Handle × Event α}
    {seen always : Nat → Prop} {vs : List Nat} (S : Schedule σ0 h st x)
    (W : Walk σ0 h seen always vs) (i : Nat) :
    ∃ seen' always' vs', Walk (st i) h seen' always' vs' := by
  induction i with
  | zero =>
    rw [S.start]
    exact ⟨seen, always, vs, W⟩
  | succ i ih =>
    obtain ⟨seen', always', vs', W'⟩ := ih
    exact ⟨_, _, _, W'.step (S.follows i) (S.walks i)⟩

theorem Schedule.ends {st : Nat → SharedList α} {x : Nat → Handle × Event α}
    {seen always : Nat → Prop} {vs : List Nat} (S : Schedule σ0 h st x)
    (W : Walk σ0 h seen always vs) : ∃ i, (st i).iterator h = none := by
  obtain ⟨k, hk⟩ := S.pushes
  have hstep : ∀ i, k ≤ i → (st (i + 1)).left h ≤ (st i).left h ∧
      (Moves h (st i) (st (i + 1)) (x i) → (st (i + 1)).left h < (st i).left h) := fun i hi => by
    obtain ⟨_, _, _, W'⟩ := S.walk W i
    exact W'.left_step (S.follows i) (S.walks i) (hk i hi)
  have hturn : ∀ i, k ≤ i → (st i).left h ≠ 0 →
      ∃ j, i ≤ j ∧ (st (j + 1)).left h < (st j).left h := fun i hi hne => by
    have hiter : (st i).iterator h ≠ none := fun hnone => hne (by simp only [left, hnone])
    obtain ⟨j, hij, hj⟩ := S.turns i hiter
    exact ⟨j, hij, (hstep j (Nat.le_trans hi hij)).2 hj⟩
  obtain ⟨i, _, hzero⟩ := Runs.falls_to_zero (fun i hi => (hstep i hi).1) hturn
  refine ⟨i, ?_⟩
  obtain ⟨_, _, _, W'⟩ := S.walk W i
  cases hn : (st i).iterator h with
  | none => rfl
  | some n =>
    have hlt := W'.iterator_lt hn
    simp only [left, hn] at hzero
    omega

/-- Every walk through the list, from any state that handles can bring it to, while
the others do what they will. -/
theorem traversal (as : List (Handle × Event α)) (σ σ0 : SharedList α) (h : Handle)
    (hr : Runs.run step init as = .ok σ) (hb : σ.step (h, .begin) = .ok σ0) :
    (∀ bs σ1, Runs.run step σ0 bs = .ok σ1 → (∀ x ∈ bs, x.1 = h → x.2.Walks) →
        Traversed σ0 h bs σ1) ∧
      ∀ st x, Schedule σ0 h st x → ∃ i, (st i).iterator h = none := by
  have L := linked_run hr
  have W := Walk.start L hb
  refine ⟨fun bs σ1 hrun hw => ?_, fun st x S => S.ends W⟩
  obtain ⟨seen, always, W1, hseen, halways⟩ := W.run hrun hw
  refine W1.traversed (L.after hb (L.went hb)) hrun (fun n hn => ?_) fun m hm => ?_
  · rcases hseen n hn with hn | hn
    · exact ⟨σ0, through_here σ0 bs, hn⟩
    · exact hn
  · exact halways m (hm σ0 (through_here σ0 bs)) hm

/-- Two nodes are pushed, and a reader stands on the first one. -/
def twoPushed : List (Handle × Event Nat) :=
  [(0, .lock true), (0, .go), (0, .go), (0, .swap true), (0, .go),
    (0, .pushBack 7), (0, .go), (0, .go), (0, .go), (0, .pushBack 8), (0, .go), (0, .go), (0, .go),
    (0, .go), (1, .lock false), (1, .go), (1, .go), (1, .swap true)]

/-- The writer erases the first node and pushes a third one, and the reader goes on. -/
def editedAhead : List (Handle × Event Nat) :=
  [(0, .begin), (0, .erase false), (0, .go), (0, .go), (0, .go), (1, .next), (0, .go), (0, .go),
    (0, .go), (0, .go), (0, .swap true), (0, .pushBack 9), (0, .go), (0, .go), (0, .go), (0, .go),
    (1, .read), (1, .next), (1, .next)]

def walkBegun : SharedList Nat :=
  Runs.reached step (Runs.reached step init twoPushed) [(1, .begin)]

theorem traversal_edited :
    Traversed walkBegun 1 editedAhead (Runs.reached step walkBegun editedAhead) :=
  (traversal twoPushed _ walkBegun 1 (Runs.run_reached (by decide))
    (Runs.step_reached (by decide))).1 editedAhead _ (Runs.run_reached (by decide)) (by decide)

end SharedList

end CsSignal
