-- What `internal_disconnect` does to the lists of both sides.
import CsSignal.Bookkeeping

namespace CsSignal

open LinkedCells Calls RcuList

/-! ## One match -/

/-- The world after a match was removed: one entry less on each side. -/
def World.removed (w : World) (s : SenderId) (lS : RcuList ConnectStruct) (r : ReceiverId)
    (lR : RcuList SenderId) : World :=
  { w.spend 3 with
    connectList := Function.update w.connectList s lS
    possibleSenders := Function.update w.possibleSenders r lR }

/-- The entry of the sender that `find` meets. -/
theorem find_sender {live : List (Nat × SenderId)} {s : SenderId}
    (hs : s ∈ live.map Prod.snd) :
    ∃ as y bs, live = as ++ y :: bs ∧ y.2 = s ∧ live.find? (fun x => x.2 == s) = some y ∧
      (as ++ bs).map Prod.snd = (live.map Prod.snd).erase s := by
  obtain ⟨z, hz, hzs⟩ := List.mem_map.mp hs
  cases hf : live.find? (fun x => x.2 == s) with
  | none =>
    have := List.find?_eq_none.mp hf z hz
    simp [hzs] at this
  | some y =>
    obtain ⟨hy, as, bs, hl, has⟩ := List.find?_eq_some_iff_append.mp hf
    have hys : y.2 = s := by simpa using hy
    refine ⟨as, y, bs, hl, hys, rfl, ?_⟩
    subst hl
    have hnot : s ∉ as.map Prod.snd := by
      intro hm
      obtain ⟨a, ha, rfl⟩ := List.mem_map.mp hm
      have := has a ha
      simp at this
    rw [List.map_append, List.map_append, List.map_cons, hys, List.erase_append_right _ hnot,
      List.erase_cons_head]

theorem removeMatch_run {w : World} {s : SenderId} {r : ReceiverId} {pre post : List (Nat × ConnectStruct)}
    {x : Nat × ConnectStruct} {zs : List Entry} (hs : (w.sender s).isSome = true)
    (hr : w.receiver r = true) (ha : w.enough 3) (hS : Rep (w.connectList s) (pre ++ x :: post) zs)
    (hR : Guarded (w.possibleSenders r) []) (hmem : s ∈ w.possible r) :
    ∃ nl nx lR, (w.connectList s).toNodeList.unlink x.1 = .ok (nx, true, nl) ∧
      removeMatch s x.1 r w = .returned () (w.removed s ((w.connectList s).erased nl x.1) r lR) ∧
      Guarded lR [] ∧ lR.values = (w.possible r).erase s := by
  let R := possibleSendersOf r
  let S := connectListOf s
  obtain ⟨zr, hRr, _, _⟩ := id hR
  obtain ⟨as, y, bs, hlive, _, hfind, herase⟩ := find_sender (show s ∈ (R.get w).toList.map Prod.snd from hmem)
  -- lock the receiver's list
  let w1 := R.set (w.spend 1) (R.get w).rcuReadLock.2
  have hlive1 : R.live w1 = true := hr
  have hR1 : Rep (R.get w1) (R.get w).toList ((R.get w).guardEntry :: zr) := by
    show Rep (R.get (R.set _ _)) _ _
    rw [R.get_set]
    exact hRr.lock
  have hR1' : Rep (R.get w1) (as ++ y :: bs) ((R.get w).guardEntry :: zr) := by
    rw [← hlive]
    exact hR1
  -- find the sender and erase it
  obtain ⟨nlR, cR, _, _, _, hunR, hlR, hgR, _⟩ := hR1'.grown_erase
  have ha1 : w1.enough 1 := (R.enough_set).mpr
    (World.enough_spend (World.enough_mono ha (by omega)))
  have hstepR := R.erase_run hlive1 ha1 hunR
  let w2 := R.set (w1.spend 1) ((R.get w1).erased nlR y.1)
  -- erase the connection
  obtain ⟨nl, c, _, _, _, hunS, _⟩ := hS.grown_erase
  have ha2 : w2.enough 1 := (R.enough_set).mpr
    (World.enough_spend ((R.enough_set).mpr (World.enough_spend (World.enough_mono ha (by omega)))))
  have hstepS := S.erase_run (w := w2) (n := x.1) hs ha2 hunS
  let w3 := S.set (w2.spend 1) ((S.get w2).erased nl x.1)
  -- unlock the receiver's list
  have hg3 : R.get w3 = (R.get w1).erased nlR y.1 := R.get_set _ _
  have hgrown : Grown (R.get w).rcuReadLock.2 (R.get w3) := by
    rw [hg3]
    have : R.get w1 = (R.get w).rcuReadLock.2 := R.get_set _ _
    rw [this] at hgR ⊢
    exact hgR
  obtain ⟨lR, hun, hlR3, hguard, _⟩ := hR.handle hgrown
  refine ⟨nl, c.next, lR, hunS, ?_, hguard, ?_⟩
  · have hbody : (do
        let fuel ← R.bound
        let first ← R.begin
        let found ← R.find (· == s) fuel first
        let _ ← R.erase found
        let _ ← S.erase (some x.1) : Op Unit) w1 = .returned () w3 := by
      rw [R.search_run hlive1 hR1, hfind]
      simp only [Option.map_some]
      rw [bind_returned hstepR, bind_returned hstepS]
      rfl
    have := R.withHandle_run _ hr (World.enough_mono ha (by omega)) hbody hun
    refine this.trans (congrArg (Outcome.returned ()) ?_)
    have h3 : ((w.spend 1).spend 1).spend 1 = w.spend 3 := by
      rw [World.spend_spend, World.spend_spend]
    show R.set w3 lR = _
    simp only [w3, w2, w1, R, S, possibleSendersOf, connectListOf, World.removed, World.spend,
      Function.update_idem, Function.update_self] at h3 ⊢
    congr 1
    exact congrArg World.allocs h3
  · rw [values_eq_of_toList hlR3, hg3, hlR, herase]
    rfl

@[simp] theorem removed_possible_self (w : World) (s : SenderId) (lS : RcuList ConnectStruct)
    (r : ReceiverId) (lR : RcuList SenderId) :
    (w.removed s lS r lR).possible r = lR.values := by
  simp [World.possible, World.removed]

theorem removed_possible_ne (w : World) (s : SenderId) (lS : RcuList ConnectStruct)
    {r r' : ReceiverId} (lR : RcuList SenderId) (h : r' ≠ r) :
    (w.removed s lS r lR).possible r' = w.possible r' := by
  simp [World.possible, World.removed, Function.update_of_ne h]

theorem removed_sameObjects (w : World) (s : SenderId) (lS : RcuList ConnectStruct)
    (r : ReceiverId) (lR : RcuList SenderId) : SameObjects w (w.removed s lS r lR) :=
  ⟨rfl, rfl, rfl, rfl, rfl, rfl⟩

theorem removed_slotsSound {w : World} {s : SenderId} {lS : RcuList ConnectStruct}
    {r : ReceiverId} {lR : RcuList SenderId} (h : w.SlotsSound) (hl : Guarded lR []) :
    (w.removed s lS r lR).SlotsSound := by
  intro r' hr'
  by_cases hrr : r' = r
  · subst hrr
    simpa [World.removed] using hl
  · have := h r' hr'
    simpa [World.removed, Function.update_of_ne hrr] using this

/-- A match of the loop: both entries are gone, and the node that was erased still leads
to the next one. -/
structure MatchGone (s : SenderId) (pre post : List (Nat × ConnectStruct)) (x : Nat × ConnectStruct)
    (zs : List Entry) (w w' : World) : Prop where
  run : removeMatch s x.1 x.2.receiver w = .returned () w'
  objects : SameObjects w w'
  allocs : w'.allocs = (w.spend 3).allocs
  unlink : ∃ nl nx, (w.connectList s).toNodeList.unlink x.1 = .ok (nx, true, nl) ∧
    w'.connectList s = (w.connectList s).erased nl x.1
  own : ∃ ext, Rep (w'.connectList s) (pre ++ post) (ext ++ zs)
  next : ∃ c : Node ConnectStruct, c.next = post.head?.map Prod.fst ∧
    (connectListOf s).deref x.1 w' = .returned c w'
  others : ∀ s', s' ≠ s → w'.connectList s' = w.connectList s'
  slots : w'.SlotsSound
  possible : w'.possible x.2.receiver = (w.possible x.2.receiver).erase s
  possible_ne : ∀ r, r ≠ x.2.receiver → w'.possible r = w.possible r

theorem matchGone_run {w : World} {s : SenderId} {pre post : List (Nat × ConnectStruct)}
    {x : Nat × ConnectStruct} {zs : List Entry} (hs : (w.sender s).isSome = true)
    (hr : w.receiver x.2.receiver = true) (ha : w.enough 3)
    (hS : Rep (w.connectList s) (pre ++ x :: post) zs) (hR : w.SlotsSound)
    (hmem : s ∈ w.possible x.2.receiver) : ∃ w', MatchGone s pre post x zs w w' := by
  obtain ⟨nl, nx, lR, hun, hrun, hguard, hvals⟩ := removeMatch_run hs hr ha hS (hR _ hr) hmem
  obtain ⟨nl', c, _, _, hnx', hun', hl1, hg, _, hself, _⟩ := hS.grown_erase
  rw [hun, Except.ok.injEq, Prod.mk.injEq, Prod.mk.injEq] at hun'
  obtain ⟨_, _, rfl⟩ := hun'
  obtain ⟨ext, hS1, _, _⟩ := hg.2 zs (hS.toList_eq ▸ hS)
  rw [hl1] at hS1
  set w1 := w.removed s ((w.connectList s).erased nl x.1) x.2.receiver lR with hw1
  have hown : w1.connectList s = (w.connectList s).erased nl x.1 := by
    simp [hw1, World.removed]
  exact ⟨w1, {
    run := hrun
    objects := removed_sameObjects _ _ _ _ _
    allocs := rfl
    unlink := ⟨nl, nx, hun, hown⟩
    own := ⟨ext, by rw [hown]; exact hS1⟩
    next := ⟨{ c with deleted := true }, hnx', (connectListOf s).deref_run hs (by
      show (w1.connectList s).node x.1 = _
      rw [hown]
      exact hself)⟩
    others := fun s' hs' => by simp [hw1, World.removed, Function.update_of_ne hs']
    slots := removed_slotsSound hR hguard
    possible := by rw [hw1, removed_possible_self, hvals]
    possible_ne := fun r hr' => removed_possible_ne _ _ _ _ hr' }⟩

/-! ## The loop -/

/-- How many of the entries match and have the receiver `r`. -/
def hits (hit : ConnectStruct → Bool) (rest : List (Nat × ConnectStruct)) (r : ReceiverId) : Nat :=
  rest.countP fun x => hit x.2 && x.2.receiver == r

/-- What the loop did, for the entries `rest` that were still ahead. -/
structure Disconnected (s : SenderId) (hit : ConnectStruct → Bool)
    (pre rest : List (Nat × ConnectStruct)) (w w' : World) : Prop where
  objects : SameObjects w w'
  allocs : w'.allocs = (w.spend (3 * rest.countP fun x => hit x.2)).allocs
  own : EraseRun (fun x => hit x.2) pre rest (w.connectList s) (w'.connectList s)
  others : ∀ s', s' ≠ s → w'.connectList s' = w.connectList s'
  slots : w'.SlotsSound
  possible : ∀ r, w'.possible r = (fun xs => xs.erase s)^[hits hit rest r] (w.possible r)

theorem disconnectFrom_run {w : World} {s : SenderId} {hit : ConnectStruct → Bool}
    {pre rest : List (Nat × ConnectStruct)} {zs : List Entry} {fuel : Nat} {retval : Bool}
    (hs : (w.sender s).isSome = true) (hrec : ∀ x ∈ rest, w.receiver x.2.receiver = true)
    (hS : Rep (w.connectList s) (pre ++ rest) zs) (hR : w.SlotsSound)
    (hcount : ∀ r, hits hit rest r ≤ (w.possible r).count s)
    (ha : w.enough (3 * rest.countP fun x => hit x.2)) (hf : rest.length ≤ fuel) :
    ∃ w', disconnectFrom s hit fuel (rest.head?.map Prod.fst) retval w =
        .returned (retval || rest.any fun x => hit x.2) w' ∧ Disconnected s hit pre rest w w' := by
  induction rest generalizing w pre zs fuel retval with
  | nil =>
    refine ⟨w, ?_, .refl w, by simp [World.spend_zero], .done _ _, fun _ _ => rfl, hR, fun r => rfl⟩
    cases fuel <;> simp [disconnectFrom]
  | cons x xs ih =>
    cases fuel with
    | zero => simp at hf
    | succ fuel =>
      have hcell := hS.nodes.cell rfl
      have hderef := (connectListOf s).deref_run (w := w) hs hcell
      have hf' : xs.length ≤ fuel := by simpa using hf
      simp only [List.head?_cons, Option.map_some, disconnectFrom]
      rw [bind_returned hderef]
      by_cases hp : hit x.2 = true
      · -- a match: both entries go, and the walk goes on from the erased node
        have hcx : (x :: xs).countP (fun x => hit x.2) = xs.countP (fun x => hit x.2) + 1 := by
          simp [hp]
        rw [hcx] at ha
        have hhx : hits hit (x :: xs) x.2.receiver = hits hit xs x.2.receiver + 1 := by
          simp [hits, hp]
        have hmem : s ∈ w.possible x.2.receiver := by
          have := hcount x.2.receiver
          rw [hhx] at this
          exact List.count_pos_iff.mp (by omega)
        have hrx := hrec x (by simp)
        obtain ⟨w1, hM⟩ :=
          matchGone_run hs hrx (World.enough_mono ha (by omega)) hS hR hmem
        obtain ⟨nl, nx, hun, hown⟩ := hM.unlink
        obtain ⟨ext, hS1⟩ := hM.own
        obtain ⟨c, hnx, hderef1⟩ := hM.next
        have hcount1 : ∀ r, hits hit xs r ≤ (w1.possible r).count s := by
          intro r
          have := hcount r
          by_cases hrr : r = x.2.receiver
          · subst hrr
            rw [hM.possible, List.count_erase_self]
            rw [hhx] at this
            omega
          · rw [hM.possible_ne r hrr]
            have hne : (x.2.receiver == r) = false := by simpa using fun he => hrr he.symm
            simpa [hits, hne] using this
        have ha1 : w1.enough (3 * xs.countP fun x => hit x.2) := by
          unfold World.enough
          rw [hM.allocs]
          exact World.enough_spend (by rw [Nat.add_comm]; simpa [Nat.mul_add] using ha)
        obtain ⟨w', hrec', hD⟩ := ih (w := w1) (by rw [hM.objects.sender]; exact hs)
          (fun y hy => by rw [hM.objects.receiver]; exact hrec y (by simp [hy])) hS1 hM.slots
          hcount1 ha1 hf'
        refine ⟨w', ?_, ⟨hM.objects.trans hD.objects, ?_, ?_, ?_, hD.slots, ?_⟩⟩
        · simp only [hp, if_true]
          rw [bind_returned hM.run, bind_returned hderef1, hnx, hrec']
          simp [hp]
        · rw [hD.allocs, hcx]
          show w1.allocs.map _ = _
          rw [hM.allocs]
          show ((w.spend 3).spend _).allocs = _
          rw [World.spend_spend]
          congr 2
          omega
        · refine .erase hp hun ?_
          rw [← hown]
          exact hD.own
        · intro s' hs'
          rw [hD.others s' hs', hM.others s' hs']
        · intro r
          rw [hD.possible r]
          by_cases hrr : r = x.2.receiver
          · subst hrr
            rw [hM.possible, hhx, Function.iterate_succ_apply]
          · rw [hM.possible_ne r hrr]
            have hne : (x.2.receiver == r) = false := by simpa using fun he => hrr he.symm
            simp [hits, hne]
      · -- no match
        have hp' : hit x.2 = false := by simpa using hp
        have hhx : ∀ r, hits hit (x :: xs) r = hits hit xs r := fun r => by simp [hits, hp']
        have hcx : (x :: xs).countP (fun x => hit x.2) = xs.countP (fun x => hit x.2) := by
          simp [hp']
        rw [hcx] at ha
        have hS' : Rep (w.connectList s) ((pre ++ [x]) ++ xs) zs := by simpa using hS
        obtain ⟨w', hrec', hD⟩ := ih hs
          (fun y hy => hrec y (by simp [hy])) hS' hR (fun r => hhx r ▸ hcount r) ha hf'
        refine ⟨w', ?_, ⟨hD.objects, by rw [hD.allocs, hcx], .keep hp' hD.own, hD.others, hD.slots,
          fun r => by rw [hD.possible r, hhx]⟩⟩
        simp only [hp', if_false, Bool.false_eq_true]
        rw [hrec']
        simp [hp']

/-! ## The call -/

/-- What a call of `internal_disconnect` does to both sides. -/
structure DisconnectDone (s : SenderId) (hit : ConnectStruct → Bool) (w w' : World) : Prop where
  objects : SameObjects w w'
  allocs : w'.allocs = (w.spend (3 * (w.conns s).countP hit + 1)).allocs
  own : ListStep (w.connectList s) (w'.connectList s)
  live : (w'.connectList s).toList = (w.connectList s).toList.filter fun x => !hit x.2
  others : ∀ s', s' ≠ s → w'.connectList s' = w.connectList s'
  slots : w'.SlotsSound
  possible : ∀ r, w'.possible r =
    (fun xs => xs.erase s)^[(w.conns s).countP fun c => hit c && c.receiver == r] (w.possible r)

/-- A receiver has a booking for each connection that goes. -/
theorem World.Booked.hits_le {w : World} (hB : w.Booked) {s : SenderId}
    (hs : (w.sender s).isSome = true) (hit : ConnectStruct → Bool) (r : ReceiverId) :
    (w.conns s).countP (fun c => hit c && c.receiver == r) ≤ (w.possible r).count s := by
  by_cases hr : w.receiver r = true
  · rw [← hB.counts s r hs hr]
    refine List.countP_mono_left fun c _ hc => ?_
    rw [Bool.and_eq_true] at hc
    exact hc.2
  · have h0 : (w.conns s).countP (fun c => hit c && c.receiver == r) = 0 := by
      refine List.countP_eq_zero.mpr fun c hc hcr => hr ?_
      simp only [Bool.and_eq_true, beq_iff_eq] at hcr
      exact hcr.2 ▸ hB.receivers s hs c hc
    omega

theorem disconnect_run {w : World} {s : SenderId} {hit : ConnectStruct → Bool} {cs : List Cursor}
    (hs : (w.sender s).isSome = true) (hS : Guarded (w.connectList s) cs) (hR : w.SlotsSound)
    (hB : w.Booked) (ha : w.enough (3 * (w.conns s).countP hit + 1)) :
    ∃ w', ((connectListOf s).withHandle do
        let fuel ← (connectListOf s).bound
        let iter ← (connectListOf s).begin
        disconnectFrom s hit fuel iter false) w = .returned ((w.conns s).any hit) w' ∧
      DisconnectDone s hit w w' := by
  let S := connectListOf s
  obtain ⟨zs, hr, ho, hat⟩ := id hS
  set live := (w.connectList s).toList with hlive
  have hconns : w.conns s = live.map Prod.snd := rfl
  have hcountP : ∀ q : ConnectStruct → Bool,
      (w.conns s).countP q = live.countP fun x => q x.2 := fun q => by
    rw [hconns, List.countP_map]
    rfl
  -- the lock
  let w1 := S.set (w.spend 1) (w.connectList s).rcuReadLock.2
  have hw1 : w1.connectList s = (w.connectList s).rcuReadLock.2 := S.get_set _ _
  have hr1 : Rep (w1.connectList s) ([] ++ live) ((w.connectList s).guardEntry :: zs) := by
    rw [hw1]
    exact hr.lock
  have hhead : (w1.connectList s).head = live.head?.map Prod.fst := hr1.nodes.head_eq
  have hcount : ∀ r, hits hit live r ≤ (w1.possible r).count s := by
    intro r
    have hle := hB.hits_le hs hit r
    rw [hcountP] at hle
    exact hle
  -- the loop
  obtain ⟨w2, hrun, hD⟩ := disconnectFrom_run (w := w1) (s := s)
    hs
    (fun x hx => hB.receivers s hs x.2 (List.mem_map_of_mem hx)) hr1 hR hcount
    (World.enough_spend (by rw [Nat.add_comm, ← hcountP]; exact ha)) hr1.nodes.length_le
  -- the unlock
  have hown := hD.own
  rw [hw1] at hown
  obtain ⟨l3, hun, hl3, hstep⟩ := hS.eraseStep hown
  have hbody : (do
      let fuel ← S.bound
      let iter ← S.begin
      disconnectFrom s hit fuel iter false : Op Bool) w1 =
        .returned ((w.conns s).any hit) w2 := by
    rw [bind_returned (S.bound_run (w := w1) hs), bind_returned (S.begin_run (w := w1) hs)]
    show disconnectFrom s hit (w1.connectList s).nodeCount (w1.connectList s).head false w1 = _
    rw [hhead, hrun, hconns, List.any_map, Bool.false_or]
    rfl
  refine ⟨_, S.withHandle_run _ hs (World.enough_mono ha (by omega)) hbody hun, ?_⟩
  refine ⟨⟨hD.objects.sender, hD.objects.receiver, hD.objects.senderCount,
    hD.objects.receiverCount, hD.objects.beingDestroyed, hD.objects.destroyedLocked⟩,
    ?_, ?_, ?_, ?_, hD.slots, ?_⟩
  · rw [S.allocs_set, hD.allocs, hcountP]
    show ((w.spend 1).spend _).allocs = _
    rw [World.spend_spend, Nat.add_comm]
  · rw [show (S.set w2 l3).connectList s = l3 from S.get_set _ _]
    exact hstep
  · rw [show (S.set w2 l3).connectList s = l3 from S.get_set _ _, hl3]
  · intro s' hs'
    have h1 : (S.set w2 l3).connectList s' = w2.connectList s' := Function.update_of_ne hs' _ _
    have h2 : w1.connectList s' = w.connectList s' := Function.update_of_ne hs' _ _
    rw [h1, hD.others s' hs', h2]
  · intro r
    have := hD.possible r
    rw [hcountP]
    exact this

theorem count_iterate_erase_self (s : SenderId) (k : Nat) (xs : List SenderId) :
    (((fun xs => xs.erase s)^[k] xs).count s) = xs.count s - k := by
  induction k generalizing xs with
  | zero => rfl
  | succ k ih => rw [Function.iterate_succ_apply, ih, List.count_erase_self]; omega

theorem count_iterate_erase_ne {s s' : SenderId} (h : s' ≠ s) (k : Nat) (xs : List SenderId) :
    (((fun xs => xs.erase s)^[k] xs).count s') = xs.count s' := by
  induction k generalizing xs with
  | zero => rfl
  | succ k ih => rw [Function.iterate_succ_apply, ih, List.count_erase_of_ne h]

theorem mem_of_mem_iterate_erase {s s' : SenderId} {k : Nat} {xs : List SenderId}
    (h : s' ∈ (fun xs => xs.erase s)^[k] xs) : s' ∈ xs := by
  induction k generalizing xs with
  | zero => exact h
  | succ k ih =>
    rw [Function.iterate_succ_apply] at h
    exact List.mem_of_mem_erase (ih h)

theorem countP_filter_not (hit q : ConnectStruct → Bool) (xs : List ConnectStruct) :
    (xs.filter fun c => !hit c).countP q = xs.countP q - xs.countP fun c => hit c && q c := by
  induction xs with
  | nil => rfl
  | cons x xs ih =>
    have := List.countP_mono_left (l := xs) (p := fun c => hit c && q c) (q := q)
      fun x _ hx => by simp at hx; exact hx.2
    by_cases h : hit x <;> by_cases hq : q x <;> simp [h, hq, ih]
    omega

theorem DisconnectDone.conns {s : SenderId} {hit : ConnectStruct → Bool} {w w' : World}
    (h : DisconnectDone s hit w w') : w'.conns s = (w.conns s).filter fun c => !hit c := by
  rw [World.conns, NodeList.values, h.live, World.conns, NodeList.values, List.filter_map]
  rfl

theorem DisconnectDone.conns_ne {s s' : SenderId} {hit : ConnectStruct → Bool} {w w' : World}
    (h : DisconnectDone s hit w w') (hs : s' ≠ s) : w'.conns s' = w.conns s' := by
  rw [World.conns, h.others s' hs]
  rfl

/-- The sender goes from the list of a receiver once for each connection removed. -/
theorem DisconnectDone.count {s : SenderId} {hit : ConnectStruct → Bool} {w w' : World}
    (h : DisconnectDone s hit w w') (hs : (w.sender s).isSome = true) (hB : w.Booked)
    (r : ReceiverId) :
    (w'.possible r).count s + (w.conns s).countP (fun c => hit c && c.receiver == r) =
      (w.possible r).count s := by
  rw [h.possible r, count_iterate_erase_self]
  exact Nat.sub_add_cancel (hB.hits_le hs hit r)

theorem DisconnectDone.booked {s : SenderId} {hit : ConnectStruct → Bool} {w w' : World}
    (h : DisconnectDone s hit w w') (hB : w.Booked) : w'.Booked := by
  refine ⟨fun s' r hs' hr => ?_, fun s' hs' c hc => ?_, fun r hr s' hs' => ?_⟩
  · rw [h.objects.sender] at hs'
    rw [h.objects.receiver] at hr
    rw [h.possible r]
    by_cases hss : s' = s
    · subst hss
      rw [h.conns, countP_filter_not, count_iterate_erase_self, hB.counts _ r hs' hr]
    · rw [h.conns_ne hss, count_iterate_erase_ne hss, hB.counts s' r hs' hr]
  · rw [h.objects.sender] at hs'
    rw [h.objects.receiver]
    refine hB.receivers s' hs' c ?_
    by_cases hss : s' = s
    · subst hss
      rw [h.conns] at hc
      exact (List.mem_filter.mp hc).1
    · rwa [h.conns_ne hss] at hc
  · rw [h.objects.receiver] at hr
    rw [h.objects.sender]
    rw [h.possible r] at hs'
    exact hB.senders r hr s' (mem_of_mem_iterate_erase hs')

theorem DisconnectDone.listsStep {s : SenderId} {hit : ConnectStruct → Bool} {w w' : World}
    (h : DisconnectDone s hit w w') : ListsStep w w' := by
  intro s' _ _
  by_cases hss : s' = s
  · exact hss ▸ h.own
  · rw [h.others s' hss]
    exact .refl _

theorem SameObjects.sound {w w' : World} {cursors : SenderId → List Cursor} (h : SameObjects w w')
    (hw : w.Sound cursors) (hl : ListsStep w w') (hs : w'.SlotsSound) (hB : w'.Booked) :
    w'.Sound cursors := by
  refine ⟨fun s hs => ?_, hs, hB, fun s hs => ?_, fun r hr => ?_⟩
  · exact (hl s (h.sender ▸ hs) hs).guarded _ (hw.lists s (h.sender ▸ hs))
  · rw [h.senderCount]
    exact hw.senderBound s (h.sender ▸ hs)
  · rw [h.receiverCount]
    exact hw.receiverBound r (h.receiver ▸ hr)

/-- `internal_disconnect` between live objects returns, says whether something
matched, and keeps the books. -/
theorem internalDisconnect_run {w : World} {cursors : SenderId → List Cursor} {s : SenderId}
    (hw : w.Sound cursors) (hs : (w.sender s).isSome = true) (ha : w.allocs = none)
    (sig : Option Bento) (r : Option ReceiverId) (slot : Option Bento) :
    ∃ w', internalDisconnect s sig r slot w =
        .returned ((w.conns s).any (isMatch sig r slot)) w' ∧
      DisconnectDone s (isMatch sig r slot) w w' ∧ w'.Sound cursors := by
  obtain ⟨w', hrun, hD⟩ := disconnect_run hs (hw.lists s hs) hw.slots
    hw.booked (World.enough_none ha _)
  exact ⟨w', hrun, hD, hD.objects.sound hw hD.listsStep hD.slots (hD.booked hw.booked)⟩

end CsSignal
