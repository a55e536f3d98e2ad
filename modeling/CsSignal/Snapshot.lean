-- What a walk reads from a list that is shared, while writes take effect: every element
-- that stays, some of those that come or go meanwhile, in the order of the list and none
-- twice. When nothing is erased meanwhile it is the whole list of one moment.
import CsSignal.Effects
import CsSignal.Traversal
import Mathlib.Data.List.Sort

namespace CsSignal

open LinkedCells

/-! ## The data of a node -/

/-- A node that was there has the data that it had, for as long as it is there. -/
def NodeList.Holds {α : Type} (l l' : NodeList α) : Prop :=
  ∀ n < l.nodeCount, ∀ c', l'.node n = some c' → ∃ c, l.node n = some c ∧ c'.data = c.data

namespace SharedList

variable {α : Type} {σ σ' σ0 σ1 σc σd : SharedList α} {h : Handle} {p' : Phase} {e : Event α}
  {z n : Nat} {iter : Option Nat} {job : Job} {bs : List (Handle × Event α)}
  {x : Handle × Event α}

theorem holds_same {l l' : NodeList α} (hl : l' = l) : l.Holds l' := by
  rw [hl]
  exact fun n _ c hc => ⟨c, hc, rfl⟩

theorem holds_write {l l' : NodeList α} {f : Node α → Node α} (hl : l.write n f = .ok l')
    (hf : ∀ c, (f c).data = c.data) : l.Holds l' := by
  obtain ⟨c, hc, rfl⟩ := NodeList.of_write hl
  intro m _ c' hc'
  by_cases hm : m = n
  · subst hm
    simp only [Function.update_self, Option.some.injEq] at hc'
    exact ⟨c, hc, hc' ▸ hf c⟩
  · exact ⟨c', (Function.update_of_ne hm _ _).symm.trans hc', rfl⟩

theorem holds_eraseLink {current newZombie : Nat} {assign : Bool} {oldNext : Option Nat}
    {stage : PushStage}
    (hs : σ.jobStep h z iter (.eraseLink current assign oldNext newZombie stage) e = .ok σ') :
    σ.list.toNodeList.Holds σ'.list.toNodeList := by
  rw [jobStep_eraseLink] at hs
  obtain ⟨⟨σ1, next⟩, hpush, hs⟩ := bind_ok hs
  obtain ⟨hl, _⟩ := nodes_pushEntry hpush
  cases next <;> cases hs <;> exact holds_same hl

theorem holds_job (hs : σ.jobStep h z iter job e = .ok σ') :
    σ.list.toNodeList.Holds σ'.list.toNodeList := by
  rcases go_of_jobStep hs with rfl | ⟨current, assign, oldNext, newZombie, stage, rfl⟩
  · cases job with
    | none => cases hs
    | pushLoad n =>
      simp only [jobStep] at hs
      split at hs <;> cases hs <;> exact holds_same rfl
    | pushHead n | pushTail n =>
      cases hs
      exact fun n _ c hc => ⟨c, hc, rfl⟩
    | pushBack n t | pushNext n t =>
      obtain ⟨nl, hnl, hs⟩ := bind_ok hs
      cases hs
      exact holds_write (mapError_ok hnl) fun _ => rfl
    | eraseTest n assign oldNext =>
      obtain ⟨c, _, hs⟩ := bind_ok hs
      split at hs
      · cases hs
        exact holds_same rfl
      · obtain ⟨nl, hnl, hs⟩ := bind_ok hs
        cases hs
        exact holds_write (mapError_ok hnl) fun _ => rfl
    | eraseBack n assign oldNext =>
      obtain ⟨c, _, hs⟩ := bind_ok hs
      cases hs
      exact holds_same rfl
    | erasePrev n assign oldNext oldPrev =>
      cases oldPrev with
      | none =>
        cases hs
        exact fun n _ c hc => ⟨c, hc, rfl⟩
      | some p =>
        obtain ⟨nl, hnl, hs⟩ := bind_ok hs
        cases hs
        exact holds_write (mapError_ok hnl) fun _ => rfl
    | eraseNext n assign oldNext oldPrev =>
      cases oldNext with
      | none =>
        cases hs
        exact fun n _ c hc => ⟨c, hc, rfl⟩
      | some k =>
        obtain ⟨nl, hnl, hs⟩ := bind_ok hs
        cases hs
        exact holds_write (mapError_ok hnl) fun _ => rfl
    | eraseAlloc n assign oldNext =>
      cases hs
      exact holds_same rfl
    | eraseLink => exact holds_eraseLink hs
  · exact holds_eraseLink hs

theorem holds_active {write : Bool} (hs : σ.activeStep h write z iter e = .ok σ') :
    σ.list.toNodeList.Holds σ'.list.toNodeList := by
  cases e with
  | begin | unlock =>
    cases hs
    exact holds_same rfl
  | read | next =>
    cases iter with
    | none => cases hs
    | some n =>
      obtain ⟨c, _, hs⟩ := bind_ok hs
      cases hs
      exact holds_same rfl
  | pushBack data =>
    cases write with
    | false => cases hs
    | true =>
      cases hs
      intro n hn c hc
      exact ⟨c, (Function.update_of_ne (Nat.ne_of_lt hn) _ _).symm.trans hc, rfl⟩
  | erase assign =>
    cases iter with
    | none => cases write <;> cases hs
    | some n =>
      cases write with
      | false => cases hs
      | true =>
        obtain ⟨c, _, hs⟩ := bind_ok hs
        cases hs
        exact holds_same rfl
  | _ => cases hs

/-- No step changes the data of a node. -/
theorem holds_step (hs : σ.step (h, e) = .ok σ') :
    σ.list.toNodeList.Holds σ'.list.toNodeList := by
  cases hp : σ.phase h with
  | idle =>
    cases e with
    | lock write =>
      rw [step_idle hp] at hs
      cases hs
      exact holds_same rfl
    | _ =>
      simp only [step, hp] at hs
      cases hs
  | lock write z stage =>
    simp only [step, hp] at hs
    obtain ⟨⟨σ1, next⟩, hpush, hs⟩ := bind_ok hs
    obtain ⟨hl, _⟩ := nodes_pushEntry hpush
    cases next <;> cases hs <;> exact holds_same hl
  | active write z iter job =>
    cases job with
    | none =>
      simp only [step, hp] at hs
      exact holds_active hs
    | _ =>
      simp only [step, hp] at hs
      exact holds_job hs
  | lockMutex z =>
    obtain rfl := go_of_step hs (by rw [hp]; rfl)
    simp only [step, hp] at hs
    split at hs <;> cases hs
    exact holds_same rfl
  | unlockMutex z =>
    obtain rfl := go_of_step hs (by rw [hp]; rfl)
    simp only [step, hp] at hs
    cases hs
    exact holds_same rfl
  | unlock z | scanOwner z cached_next n | scanNext z cached_next n | sweepNext z n =>
    obtain rfl := go_of_step hs (by rw [hp]; rfl)
    simp only [step, hp] at hs
    obtain ⟨c, _, hs⟩ := bind_ok hs
    cases hs
    exact holds_same rfl
  | sweepNode z n =>
    obtain rfl := go_of_step hs (by rw [hp]; rfl)
    simp only [step, hp] at hs
    obtain ⟨c, _, hs⟩ := bind_ok hs
    obtain ⟨l, hl, hs⟩ := bind_ok hs
    cases hs
    exact fun m _ c hc => ⟨c, (RcuList.nodes_freeZombieNode (mapError_ok hl)).2 m c hc, rfl⟩
  | sweepFree z n next =>
    obtain rfl := go_of_step hs (by rw [hp]; rfl)
    simp only [step, hp] at hs
    obtain ⟨l, hl, hs⟩ := bind_ok hs
    cases hs
    exact holds_same (RcuList.nodes_freeZombie (mapError_ok hl))
  | cut z | clear z =>
    obtain rfl := go_of_step hs (by rw [hp]; rfl)
    simp only [step, hp] at hs
    obtain ⟨l, hl, hs⟩ := bind_ok hs
    cases hs
    exact holds_same (RcuList.nodes_writeZombie (mapError_ok hl))

theorem Linked.holds_run (L : Linked σ) (hr : Runs.run step σ bs = .ok σ') :
    σ.list.toNodeList.Holds σ'.list.toNodeList := by
  induction bs generalizing σ with
  | nil =>
    cases hr
    exact holds_same rfl
  | cons x bs ih =>
    obtain ⟨σ1, hs, hr⟩ := Runs.run_cons.mp hr
    intro n hn c' hc'
    have hn1 : n < σ1.list.nodeCount := by
      rcases L.count_step hs with hc | ⟨_, hc⟩ <;> omega
    obtain ⟨c1, hc1, h1⟩ := ih (L.after hs (L.went hs)) hr n hn1 c' hc'
    obtain ⟨c, hc, h2⟩ := holds_step hs n hn c1 hc1
    exact ⟨c, hc, h1.trans h2⟩

theorem Through.linked (L : Linked σ0) (ht : Through σ0 bs σc) : Linked σc := by
  obtain ⟨cs, _, hr⟩ := ht
  exact L.run hr

/-- A node has the same data at all moments of a run. -/
theorem Through.data {c d : Node α} (L : Linked σ0) (hσc : Through σ0 bs σc)
    (hσd : Through σ0 bs σd) (hc : σc.list.node n = some c) (hd : σd.list.node n = some d) :
    c.data = d.data := by
  obtain ⟨cs, hcs, hrc⟩ := hσc
  obtain ⟨ds, hds, hrd⟩ := hσd
  have hlater : ∀ {σa σb : SharedList α} {as bs : List (Handle × Event α)} {a b : Node α},
      as <+: bs → Runs.run step σ0 as = .ok σa → Runs.run step σ0 bs = .ok σb →
        σa.list.node n = some a → σb.list.node n = some b → b.data = a.data := by
    rintro σa σb as _ a b ⟨es, rfl⟩ ha hb hna hnb
    obtain ⟨σa', ha', hes⟩ := Runs.run_append.mp hb
    obtain rfl := Except.ok.inj (ha.symm.trans ha')
    have La := L.run ha
    obtain ⟨a', hna', hab⟩ := La.holds_run hes n (La.lt hna) b hnb
    rw [hna, Option.some.injEq] at hna'
    rw [hab, hna']
  rcases List.prefix_or_prefix_of_prefix hcs hds with hp | hp
  · exact (hlater hp hrc hrd hc hd).symm
  · exact hlater hp hrd hrc hd hc

/-! ## What a walk reads -/

/-- The element of the node that the iterator stands on, with the number of its push. -/
def element (σ : SharedList α) (h : Handle) : Option (Nat × α) :=
  (σ.iterator h).bind fun n => (σ.list.node n).map fun c => (n, c.data)

/-- The elements that a run brings the iterator of the handle to. -/
def meetings (h : Handle) : SharedList α → List (Handle × Event α) → List (Nat × α)
  | _, [] => []
  | σ, x :: bs =>
    match σ.step x with
    | .ok σ' => (if Moves h σ σ' x then (σ'.element h).toList else []) ++ meetings h σ' bs
    | .error _ => []

/-- The elements that a walk reads in a run from `begin`, the first one included. -/
def met (σ0 : SharedList α) (h : Handle) (bs : List (Handle × Event α)) : List (Nat × α) :=
  (σ0.element h).toList ++ meetings h σ0 bs

/-- The writes of all handles that take effect in a run. -/
def meanwhile (σ0 : SharedList α) (bs : List (Handle × Event α)) : List (Write α) :=
  σ0.sequence.effects (Runs.marks step mark σ0 bs)

section

variable {seen always : Nat → Prop} {vs : List Nat}

theorem Walk.cell (W : Walk σ h seen always vs) (hn : σ.iterator h = some n) :
    ∃ c, σ.list.node n = some c := by
  have hw := W.walks
  cases hp : σ.phase h with
  | active write z iter job =>
    have hguard : σ.Guarding h := ⟨z, by rw [hp]; rfl, by rw [hp]; rfl⟩
    have hreach : Reaches σ.list.node (σ.iterator h) n := hn ▸ .here
    exact Option.isSome_iff_exists.mp (W.linked.safe.in_reach ⟨hguard, Or.inl hreach⟩)
  | _ =>
    rw [hp] at hw
    cases hw

theorem Walk.ids_element (W : Walk σ h seen always vs) :
    ids (σ.element h).toList = (σ.iterator h).toList := by
  unfold element
  cases hn : σ.iterator h with
  | none => rfl
  | some n =>
    obtain ⟨c, hc⟩ := W.cell hn
    simp only [Option.bind_some, hc, Option.map_some, Option.toList_some, ids, List.map_cons,
      List.map_nil]

/-- The elements that are read are those of the nodes that are visited. -/
theorem Walk.ids_meetings (W : Walk σ h seen always vs)
    (hr : Runs.run SharedList.step σ bs = .ok σ1) (hw : ∀ x ∈ bs, x.1 = h → x.2.Walks) :
    ids (meetings h σ bs) = arrivals h σ bs := by
  induction bs generalizing σ seen always vs with
  | nil => rfl
  | cons x bs ih =>
    obtain ⟨σ', hs, hr⟩ := Runs.run_cons.mp hr
    have W' := W.step hs (hw x List.mem_cons_self)
    have hrest := ih W' hr fun y hy => hw y (List.mem_cons_of_mem _ hy)
    simp only [meetings, arrivals, hs, arrival]
    rw [ids, List.map_append]
    split
    · exact congrArg₂ _ W'.ids_element hrest
    · exact hrest

/-- An element that is read is that of its node at some moment of the run. -/
theorem data_of_meetings {x : Nat × α} (hx : x ∈ meetings h σ bs) :
    ∃ σc c, Through σ bs σc ∧ σc.list.node x.1 = some c ∧ c.data = x.2 := by
  induction bs generalizing σ with
  | nil => cases hx
  | cons y bs ih =>
    simp only [meetings] at hx
    split at hx
    · rename_i σ' hs
      rcases List.mem_append.mp hx with hx | hx
      · split at hx
        · obtain ⟨n, _, hx⟩ := Option.bind_eq_some_iff.mp (Option.mem_toList.mp hx)
          obtain ⟨c, hc, rfl⟩ := Option.map_eq_some_iff.mp hx
          exact ⟨σ', c, (through_here σ' bs).cons hs, hc, rfl⟩
        · cases hx
      · obtain ⟨σc, c, ht, hc⟩ := ih hx
        exact ⟨σc, c, ht.cons hs, hc⟩
    · cases hx

end

/-! ## The list and what a walk reads -/

theorem Linked.mem_items_iff (L : Linked σ) {y : Nat × α} : y ∈ σ.sequence.items ↔
    σ.InList y.1 ∧ ∃ c, σ.list.node y.1 = some c ∧ c.data = y.2 := by
  have hids : ∀ n, n ∈ ids σ.list.toList ↔ σ.InList n := fun n =>
    L.climbs.mem_walk_iff fun _ _ => Nat.le_add_left _ _
  constructor
  · intro hy
    exact ⟨(hids y.1).mp (List.mem_map_of_mem hy), L.leads.cell hy⟩
  · rintro ⟨hn, c, hc, hd⟩
    obtain ⟨z, hz, hzy⟩ := List.mem_map.mp ((hids y.1).mpr hn)
    obtain ⟨c', hc', hd'⟩ := L.leads.cell hz
    rw [hzy, hc, Option.some.injEq] at hc'
    obtain rfl : z = y := Prod.ext hzy (by rw [← hd', ← hc', hd])
    exact hz

theorem meanwhile_append (L : Linked σ) {as : List (Handle × Event α)}
    (hr : Runs.run step σ as = .ok σ1) :
    σ.meanwhile (as ++ bs) = σ.meanwhile as ++ σ1.meanwhile bs := by
  simp only [meanwhile, Sequence.effects, Runs.marks_append hr, Runs.marks_append (L.shows_run hr)]

/-- The list at the end of a run is what the writes made of it. -/
theorem items_run (L : Linked σ) (hr : Runs.run step σ bs = .ok σ1) :
    σ1.sequence.items = (σ.meanwhile bs).foldl Write.edit σ.sequence.items :=
  Sequence.run_items (L.shows_run hr)

theorem Through.meanwhile (L : Linked σ0) (ht : Through σ0 bs σc) :
    ∃ ws, ws <+: σ0.meanwhile bs ∧ σc.sequence.items = ws.foldl Write.edit σ0.sequence.items := by
  obtain ⟨cs, ⟨ds, rfl⟩, hr⟩ := ht
  refine ⟨σ0.meanwhile cs, ?_, items_run L hr⟩
  rw [meanwhile_append L hr]
  exact List.prefix_append _ _

section

variable {seen always : Nat → Prop}

theorem Walk.ids_met (W : Walk σ0 h seen always (σ0.iterator h).toList)
    (hr : Runs.run SharedList.step σ0 bs = .ok σ1) (hw : ∀ x ∈ bs, x.1 = h → x.2.Walks) :
    ids (met σ0 h bs) = visited σ0 h bs := by
  rw [met, ids, List.map_append]
  exact congrArg₂ _ W.ids_element (W.ids_meetings hr hw)

theorem data_of_met {y : Nat × α} (hy : y ∈ met σ0 h bs) :
    ∃ σc c, Through σ0 bs σc ∧ σc.list.node y.1 = some c ∧ c.data = y.2 := by
  rcases List.mem_append.mp hy with hy | hy
  · obtain ⟨n, _, hy⟩ := Option.bind_eq_some_iff.mp (Option.mem_toList.mp hy)
    obtain ⟨c, hc, rfl⟩ := Option.map_eq_some_iff.mp hy
    exact ⟨σ0, c, through_here σ0 bs, hc, rfl⟩
  · exact data_of_meetings hy

/-- A visited node is read with the data that it has at any moment. -/
theorem Walk.mem_met_iff (W : Walk σ0 h seen always (σ0.iterator h).toList)
    (hr : Runs.run SharedList.step σ0 bs = .ok σ1) (hw : ∀ x ∈ bs, x.1 = h → x.2.Walks)
    {c : Node α} (ht : Through σ0 bs σc) (hc : σc.list.node n = some c) :
    (n, c.data) ∈ met σ0 h bs ↔ n ∈ visited σ0 h bs := by
  rw [← W.ids_met hr hw]
  constructor
  · exact fun hn => List.mem_map_of_mem (f := Prod.fst) hn
  · intro hn
    obtain ⟨y, hy, rfl⟩ := List.mem_map.mp hn
    obtain ⟨σd, d, htd, hd, hdata⟩ := data_of_met hy
    rw [ht.data W.linked htd hc hd, hdata]
    exact hy

/-- What is read was in the list when the walk began, or was pushed since. -/
theorem Walk.known (W : Walk σ0 h σ0.InList σ0.InList (σ0.iterator h).toList)
    (hr : Runs.run SharedList.step σ0 bs = .ok σ1) (hw : ∀ x ∈ bs, x.1 = h → x.2.Walks) :
    met σ0 h bs ⊆ σ0.sequence.items ++ Write.pushed (σ0.meanwhile bs) := by
  intro y hy
  obtain ⟨seen, always, W1, hseen, _⟩ := W.run hr hw
  have hv : y.1 ∈ visited σ0 h bs := W.ids_met hr hw ▸ List.mem_map_of_mem (f := Prod.fst) hy
  obtain ⟨σc, ht, hin⟩ : ∃ σc, Through σ0 bs σc ∧ σc.InList y.1 := by
    rcases hseen y.1 (W1.visits.seen y.1 hv) with hin | hin
    · exact ⟨σ0, through_here σ0 bs, hin⟩
    · exact hin
  obtain ⟨σd, d, htd, hd, hdata⟩ := data_of_met hy
  obtain ⟨ws, hpre, hitems⟩ := ht.meanwhile W.linked
  have L := ht.linked W.linked
  obtain ⟨c, hc⟩ : ∃ c, σc.list.node y.1 = some c := by
    obtain ⟨xs, N⟩ := L.safe.nodes
    exact Option.isSome_iff_exists.mp (N.of_reaches hin fun m hm => N.head_live hm).2
  have hmem : y ∈ σc.sequence.items :=
    L.mem_items_iff.mpr ⟨hin, c, hc, (ht.data W.linked htd hc hd).trans hdata⟩
  rw [hitems] at hmem
  rcases List.mem_append.mp (Write.edits_sublist.subset hmem) with hy | hy
  · exact List.mem_append_left _ hy
  · exact List.mem_append_right _ ((hpre.filterMap Write.pushes).subset hy)

/-- A walk that came to the end has read what was in the list all the time. -/
theorem Walk.kept (W : Walk σ0 h σ0.InList σ0.InList (σ0.iterator h).toList)
    (hr : Runs.run SharedList.step σ0 bs = .ok σ1) (hw : ∀ x ∈ bs, x.1 = h → x.2.Walks)
    (hend : σ1.iterator h = none) {y : Nat × α} (hy : y ∈ σ0.sequence.items)
    (hn : y.1 ∉ Write.erased (σ0.meanwhile bs)) : y ∈ met σ0 h bs := by
  obtain ⟨seen, always, W1, _, halways⟩ := W.run hr hw
  have hstays : ∀ σc, Through σ0 bs σc → σc.InList y.1 := by
    intro σc ht
    obtain ⟨ws, hpre, hitems⟩ := ht.meanwhile W.linked
    have hn' : y.1 ∉ Write.erased ws := fun he => hn ((hpre.filterMap Write.erases).subset he)
    exact ((ht.linked W.linked).mem_items_iff.mp (hitems ▸ Write.mem_edits hy hn')).1
  obtain ⟨_, c, hc, hdata⟩ := W.linked.mem_items_iff.mp hy
  have hv : y.1 ∈ visited σ0 h bs := by
    have hal := halways y.1 (hstays σ0 (through_here σ0 bs)) hstays
    rcases W1.visits.missed y.1 hal with hv | ⟨n, hn, _⟩
    · exact hv
    · rw [hend] at hn
      cases hn
  have hmem := (W.mem_met_iff hr hw (through_here σ0 bs) hc).mpr hv
  rw [hdata] at hmem
  exact hmem

/-! ## When nothing is erased -/

theorem Walk.meetings_none {vs : List Nat} (W : Walk σ h seen always vs)
    (hr : Runs.run SharedList.step σ bs = .ok σ1) (hw : ∀ x ∈ bs, x.1 = h → x.2.Walks)
    (hi : σ.iterator h = none) : meetings h σ bs = [] := by
  induction bs generalizing σ seen always vs with
  | nil => rfl
  | cons x bs ih =>
    obtain ⟨σ', hs, hr⟩ := Runs.run_cons.mp hr
    have hx := hw x List.mem_cons_self
    simp only [meetings, hs]
    rcases W.turn hs hx with ⟨hm, hi'⟩ | ⟨_, n, c, hn, _⟩
    · rw [if_neg hm, List.nil_append]
      exact ih (W.step hs hx) hr (fun y hy => hw y (List.mem_cons_of_mem _ hy))
        ((iterator_of_walks hi').trans hi)
    · rw [hi] at hn
      cases hn

/-- The walk stands on the last of the first elements of the list, and pushes add to its
end: it reads on from there until it is at the end of the list. -/
theorem Walk.whole {ns : List Nat} {vs : List (Nat × α)} {y : Nat × α}
    (W : Walk σ h seen always ns) (hr : Runs.run SharedList.step σ bs = .ok σ1)
    (hw : ∀ x ∈ bs, x.1 = h → x.2.Walks) (hno : Write.erased (σ.meanwhile bs) = [])
    (hend : σ1.iterator h = none) (hvs : vs ++ [y] <+: σ.sequence.items)
    (hi : σ.iterator h = some y.1) :
    ∃ σc, Through σ bs σc ∧ vs ++ [y] ++ meetings h σ bs = σc.sequence.items := by
  induction bs generalizing σ seen always ns vs y with
  | nil =>
    cases hr
    rw [hi] at hend
    cases hend
  | cons x bs ih =>
    obtain ⟨σ', hs, hr⟩ := Runs.run_cons.mp hr
    have hx := hw x List.mem_cons_self
    have hw' : ∀ y ∈ bs, y.1 = h → y.2.Walks := fun y hy => hw y (List.mem_cons_of_mem _ hy)
    have W' := W.step hs hx
    have hone : Runs.run SharedList.step σ [x] = .ok σ' := Runs.run_cons.mpr ⟨σ', hs, rfl⟩
    have hsplit : σ.meanwhile (x :: bs) = σ.meanwhile [x] ++ σ'.meanwhile bs :=
      meanwhile_append W.linked hone
    rw [hsplit, Write.erased, List.filterMap_append, List.append_eq_nil_iff] at hno
    have hgrow : σ.sequence.items <+: σ'.sequence.items := by
      rw [items_run W.linked hone]
      exact Write.prefix_edits hno.1
    simp only [meetings, hs]
    rcases W.turn hs hx with ⟨hm, hi'⟩ | ⟨hm, n, c, hn, hc, hi'⟩
    · obtain ⟨σc, ht, hmet⟩ := ih W' hr hw' hno.2 (hvs.trans hgrow)
        ((iterator_of_walks hi').trans hi)
      rw [if_neg hm, List.nil_append]
      exact ⟨σc, ht.cons hs, hmet⟩
    · obtain rfl : y.1 = n := Option.some.inj (hi.symm.trans hn)
      obtain ⟨post, hitems⟩ := id hvs
      have hl := W.linked.leads
      rw [show σ.list.toList = vs ++ [y] ++ post from hitems.symm] at hl
      obtain ⟨e', hl, hpost⟩ := leads_append.mp hl
      obtain ⟨_, _, _, c', hc', _, he⟩ := leads_append.mp hl
      rw [hc, Option.some.injEq] at hc'
      subst hc'
      obtain rfl : c.next = e' := he
      rw [if_pos hm]
      cases post with
      | nil =>
        have hnone : σ'.iterator h = none := (iterator_of_walks hi').trans hpost
        refine ⟨σ, through_here σ _, ?_⟩
        rw [W'.meetings_none hr hw' hnone, element, hnone, ← hitems]
        simp
      | cons z post =>
        obtain ⟨hz, d, hd, hdata, _⟩ := hpost
        have hsome : σ'.iterator h = some z.1 := (iterator_of_walks hi').trans hz
        obtain ⟨d', hd'⟩ := W'.cell hsome
        obtain ⟨d0, hd0, hd0'⟩ := holds_step hs z.1 (W.linked.lt hd) d' hd'
        rw [hd, Option.some.injEq] at hd0
        subst hd0
        have helem : σ'.element h = some z := by
          rw [element, hsome, Option.bind_some, hd', Option.map_some, hd0', hdata]
        have hvs' : vs ++ [y] ++ [z] <+: σ.sequence.items := ⟨post, by rw [← hitems]; simp⟩
        obtain ⟨σc, ht, hmet⟩ := ih W' hr hw' hno.2 (hvs'.trans hgrow) hsome
        refine ⟨σc, ht.cons hs, ?_⟩
        rw [helem, Option.toList_some, ← List.append_assoc]
        exact hmet

/-! ## Every walk -/

theorem arrivals_append {as : List (Handle × Event α)} (hr : Runs.run step σ as = .ok σ1) :
    arrivals h σ (as ++ bs) = arrivals h σ as ++ arrivals h σ1 bs := by
  induction as generalizing σ with
  | nil =>
    cases hr
    rfl
  | cons x as ih =>
    obtain ⟨σ', hs, hr⟩ := Runs.run_cons.mp hr
    simp only [List.cons_append, arrivals, hs, ih hr, List.append_assoc]

/-- Lists in the order of the pushes are sublists when they are subsets. -/
theorem sublist_of_rising {xs ys : List (Nat × α)} (hx : xs.Pairwise fun x y => x.1 < y.1)
    (hy : ys.Pairwise fun x y => x.1 < y.1) (hsub : xs ⊆ ys) : xs.Sublist ys := by
  have hanti : Std.Antisymm fun x y : Nat × α => x.1 < y.1 :=
    ⟨fun x y hxy hyx => absurd (Nat.lt_trans hxy hyx) (Nat.lt_irrefl _)⟩
  have hnd : xs.Nodup := by
    refine List.Pairwise.imp ?_ hx
    rintro x y hlt rfl
    exact Nat.lt_irrefl _ hlt
  exact List.sublist_of_subperm_of_pairwise (hnd.subperm hsub) hx hy

theorem numbered_run {as : List (Handle × Event α)} (hr : Runs.run step init as = .ok σ) :
    σ.sequence.Numbered :=
  Runs.run_keeps (fun _ _ _ hN hs => hN.step hs) (linked_init.shows_run hr) Sequence.numbered_empty

/-- What a walk has read that came to the end of the list, while writes took effect. -/
structure Snapshot (σ0 : SharedList α) (h : Handle) (bs : List (Handle × Event α)) : Prop where
  /-- Every element is read that was there when the walk began and was not erased since, -/
  kept : (σ0.sequence.items.filter fun x => x.1 ∉ Write.erased (σ0.meanwhile bs)).Sublist
    (met σ0 h bs)
  /-- and otherwise only what was erased or pushed meanwhile. -/
  known : (met σ0 h bs).Sublist (σ0.sequence.items ++ Write.pushed (σ0.meanwhile bs))
  moment : Write.erased (σ0.meanwhile bs) = [] →
    ∃ σc, Through σ0 bs σc ∧ met σ0 h bs = σc.sequence.items
  /-- The iterator shows these elements, whenever it is looked at. -/
  shown : ∀ σc n c, Through σ0 bs σc → σc.iterator h = some n → σc.list.node n = some c →
    (n, c.data) ∈ met σ0 h bs

theorem Walk.shown (W : Walk σ0 h σ0.InList σ0.InList (σ0.iterator h).toList)
    (hr : Runs.run SharedList.step σ0 bs = .ok σ1) (hw : ∀ x ∈ bs, x.1 = h → x.2.Walks)
    {c : Node α} (ht : Through σ0 bs σc) (hn : σc.iterator h = some n)
    (hc : σc.list.node n = some c) : (n, c.data) ∈ met σ0 h bs := by
  rw [W.mem_met_iff hr hw ht hc]
  obtain ⟨cs, ⟨ds, rfl⟩, hrc⟩ := ht
  obtain ⟨_, _, Wc, _⟩ := W.run hrc fun x hx => hw x (List.mem_append_left _ hx)
  rw [visited, arrivals_append hrc, ← List.append_assoc]
  exact List.mem_append_left _ (Wc.visits.here n hn).1

theorem Walk.moment (W : Walk σ0 h σ0.InList σ0.InList (σ0.iterator h).toList)
    (hhead : σ0.iterator h = σ0.list.head) (hr : Runs.run SharedList.step σ0 bs = .ok σ1)
    (hw : ∀ x ∈ bs, x.1 = h → x.2.Walks) (hend : σ1.iterator h = none)
    (hno : Write.erased (σ0.meanwhile bs) = []) :
    ∃ σc, Through σ0 bs σc ∧ met σ0 h bs = σc.sequence.items := by
  have hl := W.linked.leads
  rw [← hhead] at hl
  cases hitems : σ0.list.toList with
  | nil =>
    rw [hitems] at hl
    have hnone : σ0.iterator h = none := hl
    refine ⟨σ0, through_here σ0 bs, ?_⟩
    rw [met, W.meetings_none hr hw hnone, element, hnone]
    exact hitems.symm
  | cons y post =>
    rw [hitems] at hl
    obtain ⟨hy, c, hc, hdata, _⟩ := hl
    have helem : σ0.element h = some y := by
      rw [element, hy, Option.bind_some, hc, Option.map_some, hdata]
    have hfirst : [] ++ [y] <+: σ0.sequence.items := ⟨post, hitems.symm⟩
    obtain ⟨σc, ht, hmet⟩ := W.whole hr hw hno hend hfirst hy
    rw [met, helem]
    exact ⟨σc, ht, hmet⟩

/-- Every walk through the list, from any state that handles can bring it to, to its end,
while the others do what they will. So a loop that counts elements, as in
`internal_cntConnections`, is wrong by at most what was erased and pushed meanwhile. -/
theorem walk_reads {as : List (Handle × Event α)} (hr : Runs.run step init as = .ok σ)
    (hb : σ.step (h, .begin) = .ok σ0) (hrun : Runs.run step σ0 bs = .ok σ1)
    (hw : ∀ x ∈ bs, x.1 = h → x.2.Walks) (hend : σ1.iterator h = none) :
    Snapshot σ0 h bs ∧ ∀ want : Nat × α → Bool,
      (met σ0 h bs).countP want ≤
        σ0.sequence.items.countP want + (Write.pushed (σ0.meanwhile bs)).countP want ∧
      σ0.sequence.items.countP want ≤ (met σ0 h bs).countP want +
        (σ0.sequence.items.filter fun x => x.1 ∈ Write.erased (σ0.meanwhile bs)).countP want := by
  have L := linked_run hr
  have W := Walk.start L hb
  have hhead : σ0.iterator h = σ0.list.head := by
    obtain ⟨write, z, rfl⟩ := begin_step hb
    rw [iterator, goto_phase]
    rfl
  have hr0 : Runs.run step init (as ++ [(h, .begin)]) = .ok σ0 :=
    Runs.run_append.mpr ⟨σ, hr, Runs.run_cons.mpr ⟨σ0, hb, rfl⟩⟩
  have hN := numbered_run hr0
  have hsorted : (met σ0 h bs).Pairwise fun x y => x.1 < y.1 := by
    obtain ⟨_, _, W1, _⟩ := W.run hrun hw
    have hv : (visited σ0 h bs).Pairwise (· < ·) := W1.visits.sorted
    rw [← W.ids_met hrun hw] at hv
    exact List.pairwise_map.mp hv
  have hkept : (σ0.sequence.items.filter fun x => x.1 ∉ Write.erased (σ0.meanwhile bs)).Sublist
      (met σ0 h bs) := by
    refine sublist_of_rising (hN.sorted.filter _) hsorted fun y hy => ?_
    obtain ⟨hy, hn⟩ := List.mem_filter.mp hy
    exact W.kept hrun hw hend hy (of_decide_eq_true hn)
  have hknown := sublist_of_rising hsorted (hN.known_sorted (W.linked.shows_run hrun))
    (W.known hrun hw)
  refine ⟨⟨hkept, hknown, W.moment hhead hrun hw hend, fun σc n c => W.shown hrun hw⟩,
    fun want => ⟨?_, ?_⟩⟩
  · rw [← List.countP_append]
    exact hknown.countP_le
  · rw [List.countP_eq_countP_filter_add σ0.sequence.items want
      (fun x => x.1 ∈ Write.erased (σ0.meanwhile bs)), Nat.add_comm]
    refine Nat.add_le_add_right ?_ _
    simpa only [decide_not] using hkept.countP_le (p := want)

theorem walk_reads_edited :
    Snapshot walkBegun 1 editedAhead ∧ met walkBegun 1 editedAhead = [(0, 7), (1, 8), (2, 9)] :=
  ⟨(walk_reads (h := 1) (Runs.run_reached (by decide : (Runs.run step init twoPushed).isOk = true))
      (Runs.step_reached (by decide)) (Runs.run_reached (by decide)) (by decide) (by decide)).1,
    by decide⟩

end

end SharedList

end CsSignal
