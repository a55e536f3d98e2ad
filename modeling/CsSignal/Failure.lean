-- What `connect` and `internal_disconnect` leave behind when one of their
-- allocations fails.
import CsSignal.Invariant

namespace CsSignal

open LinkedCells Calls RcuList

/-! ## The allocation that fails -/

theorem World.spend_allocs {w : World} {k : Nat} (h : w.allocs = some k) (n : Nat) :
    (w.spend n).allocs = some (k - n) := by
  simp only [World.spend, h, Option.map_some]

theorem World.enough_some {w : World} {k n : Nat} (h : w.allocs = some k) (hn : n ≤ k) :
    w.enough n := by
  intro k' hk'
  rw [h, Option.some.injEq] at hk'
  omega

/-- No list has other entries than before. -/
structure SameEntries (w w' : World) : Prop where
  objects : SameObjects w w'
  connections : ∀ s, (w'.connectList s).toList = (w.connectList s).toList
  possibleSenders : ∀ r, (w'.possibleSenders r).toList = (w.possibleSenders r).toList

theorem SameEntries.failed (w : World) : SameEntries w w.failed :=
  ⟨⟨rfl, rfl, rfl, rfl, rfl, rfl⟩, fun _ => rfl, fun _ => rfl⟩

/-- A handle that is opened and closed leaves the entries of its list. -/
theorem guarded_reopen {α : Type} {l : RcuList α} {cs : List Cursor} (h : Guarded l cs) :
    ∃ l', l.rcuReadLock.2.unlock l.rcuReadLock.1 = .ok l' ∧ l'.toList = l.toList := by
  obtain ⟨l', hun, hl, _⟩ := h.handle (.refl _)
  obtain ⟨zs, hr, _⟩ := h
  exact ⟨l', hun, hl.trans hr.lock.toList_eq⟩

/-! ## `connect` -/

/-- The append at the receiver fails, at the lock or at the node. -/
theorem pushPossible_fail {w : World} {s : SenderId} {r : ReceiverId} {k : Nat}
    (hr : w.receiver r = true) (hR : Guarded (w.possibleSenders r) []) (ha : w.allocs = some k)
    (hk : k < 2) :
    ∃ w', (possibleSendersOf r).withHandle ((possibleSendersOf r).pushBack s) w =
        .thrown .badAlloc w' ∧ SameEntries w w' ∧ w'.connectList = w.connectList := by
  let R := possibleSendersOf r
  cases k with
  | zero => exact ⟨_, R.withHandle_fail ha, .failed w, rfl⟩
  | succ k =>
    obtain rfl : k = 0 := by omega
    obtain ⟨l, hun, hl⟩ := guarded_reopen hR
    have hbody : R.pushBack s (R.set (w.spend 1) (R.get w).rcuReadLock.2) =
        .thrown .badAlloc (R.set (w.spend 1) (R.get w).rcuReadLock.2).failed :=
      bind_thrown (allocate_fail (by rw [R.allocs_set, World.spend_allocs ha]))
    have hget : R.get (R.set (w.spend 1) (R.get w).rcuReadLock.2).failed =
        (R.get w).rcuReadLock.2 := R.get_set _ _
    refine ⟨_, R.withHandle_thrown hr (World.enough_some ha (by omega)) hbody
      (by rw [hget]; exact hun), ⟨⟨rfl, rfl, rfl, rfl, rfl, rfl⟩, fun _ => rfl, fun r' => ?_⟩, rfl⟩
    by_cases hrr : r' = r
    · subst hrr
      rw [← hl]
      exact congrArg NodeList.toList (congrArg RcuList.toNodeList (R.get_set _ _))
    · simp only [R, possibleSendersOf, World.failed, World.spend, Function.update_of_ne hrr]

/-- What a `connect` that throws leaves: perhaps the entry of the sender, without
one of the receiver. -/
structure ConnectFailed (s : SenderId) (added : Option ConnectStruct) (w w' : World) : Prop where
  objects : SameObjects w w'
  own : (w'.connectList s).toList = (w.connectList s).toList ++
    added.toList.map fun item => ((w.connectList s).nodeCount, item)
  others : ∀ s', s' ≠ s → (w'.connectList s').toList = (w.connectList s').toList
  possibleSenders : ∀ r, (w'.possibleSenders r).toList = (w.possibleSenders r).toList

theorem SameEntries.connectFailed {w w' : World} (h : SameEntries w w') (s : SenderId) :
    ConnectFailed s none w w' :=
  ⟨h.objects, by simpa using h.connections s, fun s' _ => h.connections s', h.possibleSenders⟩

theorem ConnectFailed.sameEntries_iff {s : SenderId} {added : Option ConnectStruct} {w w' : World}
    (h : ConnectFailed s added w w') : SameEntries w w' ↔ added = none := by
  constructor
  · intro hs
    have := congrArg List.length (h.own.symm.trans (hs.connections s))
    cases added with
    | none => rfl
    | some item => simp at this
  · rintro rfl
    refine ⟨h.objects, fun s' => ?_, h.possibleSenders⟩
    by_cases hss : s' = s
    · subst hss
      simpa using h.own
    · exact h.others s' hss

theorem addConnection_fail {w : World} {s : SenderId} {r : ReceiverId} (sig slot : Bento)
    (type : ConnectionKind) {zs : List Entry} {k : Nat} (hs : (w.sender s).isSome = true)
    (hr : w.receiver r = true) (hS : Rep (w.connectList s) (w.connectList s).toList zs)
    (hR : Guarded (w.possibleSenders r) []) (ha : w.allocs = some k) (hk : k < 3) :
    ∃ w', addConnection s sig r slot type w = .thrown .badAlloc w' ∧
      ConnectFailed s (if k = 0 then none else some ⟨sig, r, slot, type⟩) w w' ∧
      Grown (w.connectList s) (w'.connectList s) := by
  let S := connectListOf s
  cases k with
  | zero =>
    have hfail : S.pushBack ⟨sig, r, slot, type⟩ w = .thrown .badAlloc w.failed :=
      bind_thrown (allocate_fail ha)
    exact ⟨w.failed, bind_thrown hfail, (SameEntries.failed w).connectFailed s, .refl _⟩
  | succ k =>
    -- the sender has its entry when the receiver fails
    obtain ⟨lS, hpush, hlS, hgrown, _⟩ := hS.grown_pushBack ⟨sig, r, slot, type⟩
    let w1 := S.set (w.spend 1) lS
    have h1 : S.pushBack _ w = .returned () w1 := S.pushBack_run hs (World.enough_some ha (by omega)) hpush
    have hget : w1.connectList s = lS := S.get_set _ _
    obtain ⟨w', hrun, hsame, hcl⟩ := pushPossible_fail (w := w1) (s := s) hr hR
      (show w1.allocs = some k from World.spend_allocs ha 1) (by omega)
    have hobj : SameObjects w w1 := ⟨rfl, rfl, rfl, rfl, rfl, rfl⟩
    refine ⟨w', ?_, ⟨hobj.trans hsame.objects, ?_, fun s' hss => ?_, hsame.possibleSenders⟩, ?_⟩
    · unfold addConnection
      rw [bind_returned h1]
      exact hrun
    · rw [hcl, hget, hlS]
      rfl
    · rw [hcl]
      simp only [w1, S, connectListOf, Function.update_of_ne hss, World.spend]
    · rw [hcl, hget]
      exact hgrown

/-- A connection that is not there already is added in part, or not at all. -/
theorem connectUnless_fail {w : World} (same : ConnectStruct → Bool) {s : SenderId} {r : ReceiverId}
    (sig slot : Bento) (type : ConnectionKind) (u : Bool) {cs : List Cursor} {k : Nat}
    (hs : (w.sender s).isSome = true) (hr : w.receiver r = true) (hS : Guarded (w.connectList s) cs)
    (hR : w.SlotsSound) (ha : w.allocs = some k)
    (hk : k < if u && (w.conns s).any same then 1 else 4) :
    ∃ w', connectUnless same s sig r slot type u w = .thrown .badAlloc w' ∧
      ConnectFailed s (if k < 2 then none else some ⟨sig, r, slot, type⟩) w w' := by
  let S := connectListOf s
  cases k with
  | zero => exact ⟨w.failed, S.withHandle_fail ha, (SameEntries.failed w).connectFailed s⟩
  | succ k =>
    have hdup : (u && (w.conns s).any same) = false := by
      by_contra hd
      rw [if_pos (by simpa using hd)] at hk
      omega
    rw [hdup] at hk
    simp only [Bool.false_eq_true, if_false] at hk
    obtain ⟨zs, hrep, _⟩ := id hS
    let w1 := S.set (w.spend 1) (w.connectList s).rcuReadLock.2
    have hg1 : w1.connectList s = (w.connectList s).rcuReadLock.2 := S.get_set _ _
    have hlive1 : (w1.connectList s).toList = (w.connectList s).toList := by
      rw [hg1]
      exact hrep.lock.toList_eq
    have hr1 : Rep (w1.connectList s) (w1.connectList s).toList
        ((w.connectList s).guardEntry :: zs) := by
      rw [hlive1, hg1]
      exact hrep.lock
    have hconns1 : w1.conns s = w.conns s := congrArg (List.map Prod.snd) hlive1
    obtain ⟨found, hscan, hfound⟩ := scanDuplicate_run (w := w1) same hs hr1 u
    rw [hconns1, hdup] at hfound
    obtain ⟨w2, hadd, hF, hgrown⟩ := addConnection_fail (w := w1) sig slot type hs hr hr1 (hR r hr)
      (show w1.allocs = some k from World.spend_allocs ha 1) (by omega)
    rw [hg1] at hgrown
    obtain ⟨l3, hun, hl3, _⟩ := hS.handle hgrown
    have hget3 : (S.set w2 l3).connectList s = l3 := S.get_set _ _
    have hobj : SameObjects w w1 := ⟨rfl, rfl, rfl, rfl, rfl, rfl⟩
    have hobj' : SameObjects w2 (S.set w2 l3) := ⟨rfl, rfl, rfl, rfl, rfl, rfl⟩
    refine ⟨S.set w2 l3, ?_, ⟨(hobj.trans hF.objects).trans hobj', ?_, fun s' hss => ?_,
      hF.possibleSenders⟩⟩
    · refine S.withHandle_thrown hs (World.enough_some ha (by omega)) ?_ hun
      refine (bind_returned hscan).trans ?_
      simp only [hfound, Bool.false_eq_true, if_false]
      exact bind_thrown hadd
    · have hc : (w1.connectList s).nodeCount = (w.connectList s).nodeCount := by rw [hg1]; rfl
      rw [hget3, hl3, hF.own, hlive1, hc]
      by_cases h0 : k = 0
      · rw [if_pos h0, if_pos (by omega)]
      · rw [if_neg h0, if_neg (by omega)]
    · have h1 : (w1.connectList s').toList = (w.connectList s').toList := by
        simp only [w1, S, connectListOf, Function.update_of_ne hss, World.spend]
      rw [← h1, ← hF.others s' hss]
      simp only [S, connectListOf, Function.update_of_ne hss]

/-- How many allocations a `connect` makes that is not refused. -/
def connectAllocs (o : Overload) (w : World) (s : SenderId) (sig : Bento) (r : ReceiverId)
    (slot : Bento) (unique : Bool) : Nat :=
  o.bentos + if unique && (w.conns s).any (o.same sig r slot) then 1 else 4

/-- The Bento objects of an overload, when one of them can not be made. -/
theorem connect_bento_fail {o : Overload} {s : SenderId} {sig : Bento} {r : ReceiverId}
    {slot : Bento} {type : ConnectionKind} {u : Bool} {w : World} {k : Nat}
    (hacc : o.accepts sig slot = true) (ha : w.allocs = some k) (hk : k < o.bentos) :
    ∃ w', connect o s sig r slot type u w = .thrown .badAlloc w' ∧ SameEntries w w' := by
  have htwo : ∀ f : Op Bool, k < 2 → ∃ w', (do allocate; allocate; f : Op Bool) w =
      .thrown .badAlloc w' ∧ SameEntries w w' := by
    intro f hk
    cases k with
    | zero => exact ⟨_, bind_thrown (allocate_fail ha), .failed w⟩
    | succ k =>
      obtain rfl : k = 0 := by omega
      refine ⟨(w.spend 1).failed, ?_, ⟨⟨rfl, rfl, rfl, rfl, rfl, rfl⟩, fun _ => rfl, fun _ => rfl⟩⟩
      rw [bind_returned (allocate_run (World.enough_some ha (by omega)))]
      exact bind_thrown (allocate_fail (World.spend_allocs ha 1))
  cases o with
  | methodSlot =>
    simp only [Overload.accepts, Bool.and_eq_true, Bool.not_eq_true'] at hacc
    simp only [connect, connectMethod, hacc.1, hacc.2, Bool.false_eq_true, if_false]
    exact htwo _ hk
  | lambdaSlot =>
    simp only [Overload.accepts, Bool.not_eq_true'] at hacc
    simp only [connect, connectLambda, hacc, Bool.false_eq_true, if_false]
    exact htwo _ hk
  | bento => exact absurd hk (Nat.not_lt_zero _)

theorem SameEntries.spend (w : World) (n : Nat) : SameEntries w (w.spend n) :=
  ⟨⟨rfl, rfl, rfl, rfl, rfl, rfl⟩, fun _ => rfl, fun _ => rfl⟩

/-- A `connect` whose allocation `k` fails changes nothing when that is one of its
first: a Bento object, the guard of the sender or the node of the connection. -/
theorem connect_fail {w : World} {cursors : SenderId → List Cursor} {s : SenderId} {r : ReceiverId}
    {o : Overload} {sig slot : Bento} (type : ConnectionKind) {u : Bool} {k : Nat}
    (hw : w.Sound cursors) (hs : (w.sender s).isSome = true) (hr : w.receiver r = true)
    (hacc : o.accepts sig slot = true) (ha : w.allocs = some k)
    (hk : k < connectAllocs o w s sig r slot u) :
    ∃ w', connect o s sig r slot type u w = .thrown .badAlloc w' ∧
      ConnectFailed s (if k < o.bentos + 2 then none else some ⟨sig, r, slot, type⟩) w w' := by
  by_cases hb : k < o.bentos
  · obtain ⟨w', hrun, hF⟩ := connect_bento_fail hacc ha hb
    rw [if_pos (by omega)]
    exact ⟨w', hrun, hF.connectFailed s⟩
  · rcases connect_eq o s sig r slot type u (w := w) with ⟨hno, _⟩ | ⟨_, heq⟩
    · rw [hacc] at hno
      cases hno
    · unfold connectAllocs at hk
      obtain ⟨w', hrun, hF⟩ := connectUnless_fail (w := w.spend o.bentos) (o.same sig r slot)
        sig slot type u hs hr
        (hw.lists s hs) hw.slots (World.spend_allocs ha o.bentos)
        (show k - o.bentos < if u && (w.conns s).any (o.same sig r slot) then 1 else 4 by omega)
      refine ⟨w', ?_, ?_⟩
      · rw [heq (World.enough_some ha (by omega)), hrun]
      · have hiff : (k - o.bentos < 2) ↔ (k < o.bentos + 2) := by omega
        simp only [hiff] at hF
        exact ⟨(SameEntries.spend w _).objects.trans hF.objects, hF.own, hF.others,
          hF.possibleSenders⟩

/-! ## One match of `internal_disconnect` -/

/-- What a match leaves whose allocation `k` fails: 0 is the guard of the receiver,
1 its zombie entry, 2 the zombie entry of the sender. -/
structure MatchCut (s : SenderId) (r : ReceiverId) (nl : NodeList ConnectStruct) (k : Nat)
    (w w' : World) : Prop where
  objects : SameObjects w w'
  own : w'.connectList s =
    if k < 2 then w.connectList s else { w.connectList s with toNodeList := nl }
  others : ∀ s', s' ≠ s → w'.connectList s' = w.connectList s'
  possible : w'.possible r = if k = 0 then w.possible r else (w.possible r).erase s
  possible_ne : ∀ r', r' ≠ r → w'.possible r' = w.possible r'

theorem removeMatch_fail {w : World} {s : SenderId} {r : ReceiverId}
    {pre post : List (Nat × ConnectStruct)} {x : Nat × ConnectStruct} {zs : List Entry} {k : Nat}
    (hs : (w.sender s).isSome = true) (hr : w.receiver r = true) (ha : w.allocs = some k)
    (hk : k < 3) (hS : Rep (w.connectList s) (pre ++ x :: post) zs)
    (hR : Guarded (w.possibleSenders r) []) (hmem : s ∈ w.possible r) :
    ∃ nl nx w', (w.connectList s).toNodeList.unlink x.1 = .ok (nx, true, nl) ∧
      removeMatch s x.1 r w = .thrown .badAlloc w' ∧ MatchCut s r nl k w w' := by
  let R := possibleSendersOf r
  let S := connectListOf s
  obtain ⟨zr, hRr, _⟩ := id hR
  obtain ⟨as, y, bs, hlive, _, hfind, herase⟩ := find_sender
    (show s ∈ (R.get w).toList.map Prod.snd from hmem)
  obtain ⟨nl, c, _, _, _, hunS, _⟩ := hS.grown_erase
  refine ⟨nl, c.next, ?_⟩
  by_cases h0 : k = 0
  · subst h0
    exact ⟨w.failed, hunS, R.withHandle_fail ha, ⟨rfl, rfl, rfl, rfl, rfl, rfl⟩, rfl, fun _ _ => rfl,
      rfl, fun _ _ => rfl⟩
  -- the lock of the receiver's list, and the search
  let w1 := R.set (w.spend 1) (R.get w).rcuReadLock.2
  have hlive1 : R.live w1 = true := hr
  have ha1 : w1.allocs = some (k - 1) := World.spend_allocs ha 1
  have hg1 : R.get w1 = (R.get w).rcuReadLock.2 := R.get_set _ _
  have hR1 : Rep (R.get w1) (R.get w).toList ((R.get w).guardEntry :: zr) := by
    rw [hg1]
    exact hRr.lock
  have hR1' : Rep (R.get w1) (as ++ y :: bs) ((R.get w).guardEntry :: zr) := by
    rw [← hlive]
    exact hR1
  have hbody : ∀ o : Outcome World Exception Fault Unit,
      (do let _ ← R.erase (some y.1); let _ ← S.erase (some x.1) : Op Unit) w1 = o →
      (do let fuel ← R.bound
          let first ← R.begin
          let found ← R.find (· == s) fuel first
          let _ ← R.erase found
          let _ ← S.erase (some x.1) : Op Unit) w1 = o := by
    intro o ho
    rw [R.search_run hlive1 hR1, hfind]
    exact ho
  by_cases h1 : k = 1
  · -- the node of the receiver is out, and nothing keeps it
    subst h1
    obtain ⟨nlR, cR, _, _, _, hunR, hst, _⟩ := hR1'.toStacked.unlink
    have hfail := R.erase_fail hlive1 ha1 hunR
    obtain ⟨l, hun, hl, _⟩ := Stacked.unlock (show Stacked _ (as ++ bs)
      ([] ++ (R.get w).guardEntry :: zr) from hst) rfl
    have hget : R.get (R.set w1 { R.get w1 with toNodeList := nlR }).failed =
        { R.get w1 with toNodeList := nlR } := R.get_set _ _
    refine ⟨_, hunS, R.withHandle_thrown hr (World.enough_some ha (by omega))
      (hbody _ (bind_thrown hfail)) (by rw [hget]; exact hun), ⟨rfl, rfl, rfl, rfl, rfl, rfl⟩, rfl,
      fun _ _ => rfl, ?_, fun r' hrr => ?_⟩
    · rw [if_neg (by decide)]
      show (R.get (R.set _ l)).values = _
      rw [R.get_set, NodeList.values, hl.nodes.toList_eq]
      exact herase
    · simp only [World.possible, R, w1, possibleSendersOf, World.failed, World.spend,
        Function.update_of_ne hrr]
  · -- the entry of the receiver is gone, and the node of the sender is out
    obtain rfl : k = 2 := by omega
    obtain ⟨nlR, cR, _, _, _, hunR, hlR, hgR, _⟩ := hR1'.grown_erase
    have hstep := R.erase_run hlive1 (World.enough_some ha1 (by omega)) hunR
    let w2 := R.set (w1.spend 1) ((R.get w1).erased nlR y.1)
    have ha2 : w2.allocs = some 0 := World.spend_allocs ha1 1
    have hfail := S.erase_fail (w := w2) (n := x.1) hs ha2 hunS
    have hgrown : Grown (R.get w).rcuReadLock.2 ((R.get w1).erased nlR y.1) := by
      rw [hg1] at hgR ⊢
      exact hgR
    obtain ⟨l, hun, hl, _⟩ := hR.handle hgrown
    have hget : R.get (S.set w2 { S.get w2 with toNodeList := nl }).failed =
        (R.get w1).erased nlR y.1 := R.get_set _ _
    refine ⟨_, hunS, R.withHandle_thrown hr (World.enough_some ha (by omega))
      (hbody _ ((bind_returned hstep).trans (bind_thrown hfail))) (by rw [hget]; exact hun),
      ⟨rfl, rfl, rfl, rfl, rfl, rfl⟩, ?_, fun s' hss => ?_, ?_, fun r' hrr => ?_⟩
    · rw [if_neg (by decide)]
      exact S.get_set _ _
    · simp only [R, S, w2, w1, possibleSendersOf, connectListOf, World.failed, World.spend,
        Function.update_of_ne hss]
    · rw [if_neg (by decide)]
      show (R.get (R.set _ l)).values = _
      rw [R.get_set, NodeList.values, hl, hlR]
      exact herase
    · simp only [World.possible, R, S, w2, w1, possibleSendersOf, connectListOf, World.failed,
        World.spend, Function.update_of_ne hrr]

/-! ## The loop -/

/-- Both sides of the signal count the same connections. -/
def Even (s : SenderId) (live : List (Nat × ConnectStruct)) (w : World) : Prop :=
  ∀ r, w.receiver r = true → live.countP (fun x => x.2.receiver == r) = (w.possible r).count s

/-- What the loop leaves when its allocation `k` fails. -/
structure LoopCut (s : SenderId) (live live' : List (Nat × ConnectStruct)) (zs : List Entry)
    (k : Nat) (w w' : World) : Prop where
  objects : SameObjects w w'
  own : ∃ ext, Stacked (w'.connectList s) live' (ext ++ zs)
  others : ∀ s', s' ≠ s → w'.connectList s' = w.connectList s'
  sub : ∀ x ∈ live', x ∈ live
  slots : ∀ r, ∀ s' ∈ w'.possible r, s' ∈ w.possible r
  count_ne : ∀ r s', s' ≠ s → (w'.possible r).count s' = (w.possible r).count s'
  even : Even s live' w' ↔ k % 3 ≠ 1

theorem countP_insert {α : Type} (p : α → Bool) (pre post : List α) (x : α) :
    (pre ++ x :: post).countP p = (pre ++ post).countP p + if p x then 1 else 0 := by
  rw [List.countP_append, List.countP_append, List.countP_cons, Nat.add_assoc]

/-- A match whose removal fails in its first, second or third allocation. -/
theorem MatchCut.loopCut {s : SenderId} {nl : NodeList ConnectStruct} {k : Nat} {w w' : World}
    {pre post : List (Nat × ConnectStruct)} {x : Nat × ConnectStruct} {zs : List Entry}
    {nx : Option Nat} (h : MatchCut s x.2.receiver nl k w w') (hk : k < 3)
    (hun : (w.connectList s).toNodeList.unlink x.1 = .ok (nx, true, nl))
    (hS : Rep (w.connectList s) (pre ++ x :: post) zs) (hrx : w.receiver x.2.receiver = true)
    (heven : Even s (pre ++ x :: post) w) :
    LoopCut s (pre ++ x :: post) (if k < 2 then pre ++ x :: post else pre ++ post) zs k w w' := by
  have hpos := heven _ hrx
  rw [countP_insert, if_pos (beq_self_eq_true _)] at hpos
  have hself : (w'.possible x.2.receiver).count s =
      (w.possible x.2.receiver).count s - if k = 0 then 0 else 1 := by
    rw [h.possible]
    split
    · rfl
    · exact List.count_erase_self
  refine ⟨h.objects, ⟨[], ?_⟩, h.others, fun y hy => ?_, fun r s' hs' => ?_, fun r s' hss => ?_, ?_⟩
  · rw [h.own]
    by_cases h2 : k < 2
    · rw [if_pos h2, if_pos h2]
      exact hS.toStacked
    · obtain ⟨nl', c, _, _, _, hun', hst, _⟩ := hS.toStacked.unlink
      rw [hun, Except.ok.injEq, Prod.mk.injEq, Prod.mk.injEq] at hun'
      obtain ⟨_, _, rfl⟩ := hun'
      rw [if_neg h2, if_neg h2]
      exact hst
  · split at hy
    · exact hy
    · rcases List.mem_append.mp hy with hy | hy
      · exact List.mem_append_left _ hy
      · exact List.mem_append_right _ (List.mem_cons_of_mem _ hy)
  · by_cases hr : r = x.2.receiver
    · subst hr
      rw [h.possible] at hs'
      split at hs'
      · exact hs'
      · exact List.mem_of_mem_erase hs'
    · rwa [h.possible_ne r hr] at hs'
  · by_cases hr : r = x.2.receiver
    · subst hr
      rw [h.possible]
      split
      · rfl
      · exact List.count_erase_of_ne hss
    · rw [h.possible_ne r hr]
  · constructor
    · intro he hk1
      have := he x.2.receiver (h.objects.receiver ▸ hrx)
      rw [if_pos (by omega), countP_insert, if_pos (beq_self_eq_true _), hself,
        if_neg (by omega)] at this
      omega
    · intro hne r hr
      rw [h.objects.receiver] at hr
      have h0 := heven r hr
      by_cases hrr : r = x.2.receiver
      · subst hrr
        rw [hself, ← h0]
        by_cases h2 : k < 2
        · rw [if_pos h2, if_pos (by omega), Nat.sub_zero]
        · rw [if_neg h2, if_neg (by omega), countP_insert, if_pos (beq_self_eq_true _),
            Nat.add_sub_cancel]
      · rw [h.possible_ne r hrr, ← h0]
        split
        · rfl
        · rw [countP_insert, if_neg (by simpa using fun he => hrr he.symm)]
          rfl

/-- After a match both sides count one connection less. -/
theorem MatchGone.even {s : SenderId} {w w' : World} {pre post : List (Nat × ConnectStruct)}
    {x : Nat × ConnectStruct} {zs : List Entry} (h : MatchGone s pre post x zs w w')
    (heven : Even s (pre ++ x :: post) w) : Even s (pre ++ post) w' := by
  intro r hr
  rw [h.objects.receiver] at hr
  have h0 := heven r hr
  rw [countP_insert] at h0
  by_cases hrr : r = x.2.receiver
  · subst hrr
    rw [if_pos (beq_self_eq_true _)] at h0
    rw [h.possible, List.count_erase_self]
    omega
  · rw [if_neg (by simpa using fun he => hrr he.symm)] at h0
    rw [h.possible_ne r hrr]
    exact h0

/-- A match that goes, before one whose removal fails. -/
theorem MatchGone.loopCut {s : SenderId} {w w1 w' : World} {pre post live' : List (Nat × ConnectStruct)}
    {x : Nat × ConnectStruct} {zs ext : List Entry} {k : Nat} (h : MatchGone s pre post x zs w w1)
    (hk : 3 ≤ k) (hC : LoopCut s (pre ++ post) live' (ext ++ zs) (k - 3) w1 w') :
    LoopCut s (pre ++ x :: post) live' zs k w w' := by
  obtain ⟨ext', hst⟩ := hC.own
  refine ⟨h.objects.trans hC.objects, ⟨ext' ++ ext, by rw [List.append_assoc]; exact hst⟩,
    fun s' hss => ?_, fun y hy => ?_, fun r s' hs' => ?_, fun r s' hss => ?_, ?_⟩
  · rw [hC.others s' hss, h.others s' hss]
  · rcases List.mem_append.mp (hC.sub y hy) with hy | hy
    · exact List.mem_append_left _ hy
    · exact List.mem_append_right _ (List.mem_cons_of_mem _ hy)
  · have hm := hC.slots r s' hs'
    by_cases hrr : r = x.2.receiver
    · subst hrr
      rw [h.possible] at hm
      exact List.mem_of_mem_erase hm
    · rwa [h.possible_ne r hrr] at hm
  · rw [hC.count_ne r s' hss]
    by_cases hrr : r = x.2.receiver
    · subst hrr
      rw [h.possible, List.count_erase_of_ne hss]
    · rw [h.possible_ne r hrr]
  · rw [hC.even]
    omega

theorem disconnectFrom_fail {w : World} {s : SenderId} (hit : ConnectStruct → Bool)
    {pre rest : List (Nat × ConnectStruct)} {zs : List Entry} {fuel k : Nat} (retval : Bool)
    (hs : (w.sender s).isSome = true) (hrec : ∀ x ∈ rest, w.receiver x.2.receiver = true)
    (hS : Rep (w.connectList s) (pre ++ rest) zs) (hR : w.SlotsSound)
    (heven : Even s (pre ++ rest) w) (ha : w.allocs = some k)
    (hk : k < 3 * rest.countP fun x => hit x.2) (hf : rest.length ≤ fuel) :
    ∃ live' w', disconnectFrom s hit fuel (rest.head?.map Prod.fst) retval w =
        .thrown .badAlloc w' ∧ LoopCut s (pre ++ rest) live' zs k w w' := by
  induction rest generalizing w pre zs fuel retval k with
  | nil => exact absurd hk (Nat.not_lt_zero _)
  | cons x xs ih =>
    cases fuel with
    | zero => simp at hf
    | succ fuel =>
      have hderef := (connectListOf s).deref_run (w := w) hs (hS.nodes.cell rfl)
      have hf' : xs.length ≤ fuel := by simpa using hf
      simp only [List.head?_cons, Option.map_some, disconnectFrom]
      rw [bind_returned hderef]
      by_cases hp : hit x.2 = true
      · have hrx := hrec x (by simp)
        have hmem : s ∈ w.possible x.2.receiver := by
          have := heven _ hrx
          rw [countP_insert, if_pos (beq_self_eq_true _)] at this
          exact List.count_pos_iff.mp (by omega)
        simp only [hp, if_true]
        by_cases h3 : k < 3
        · -- it is this match that fails
          obtain ⟨nl, nx, w', hun, hrun, hC⟩ := removeMatch_fail hs hrx ha h3 hS (hR _ hrx) hmem
          exact ⟨_, w', bind_thrown hrun, hC.loopCut h3 hun hS hrx heven⟩
        · -- this match goes, and a later one fails
          obtain ⟨w1, hM⟩ :=
            matchGone_run hs hrx (World.enough_some ha (by omega)) hS hR hmem
          obtain ⟨ext, hS1⟩ := hM.own
          obtain ⟨c, hnx, hderef1⟩ := hM.next
          have hcx : (x :: xs).countP (fun x => hit x.2) = xs.countP (fun x => hit x.2) + 1 := by
            simp [hp]
          have ha1 : w1.allocs = some (k - 3) := by rw [hM.allocs, World.spend_allocs ha]
          obtain ⟨live', w', hrec', hC⟩ := ih (w := w1) (k := k - 3) true
            (by rw [hM.objects.sender]; exact hs)
            (fun y hy => by rw [hM.objects.receiver]; exact hrec y (by simp [hy])) hS1 hM.slots
            (hM.even heven) ha1 (by omega) hf'
          exact ⟨live', w', by
            rw [bind_returned hM.run, bind_returned hderef1, hnx]
            exact hrec', hM.loopCut (by omega) hC⟩
      · -- no match
        have hp' : hit x.2 = false := by simpa using hp
        have hcx : (x :: xs).countP (fun x => hit x.2) = xs.countP (fun x => hit x.2) := by
          simp [hp']
        rw [hcx] at hk
        have happ : pre ++ x :: xs = (pre ++ [x]) ++ xs := by simp
        rw [happ] at hS heven ⊢
        simp only [hp', if_false, Bool.false_eq_true]
        exact ih retval hs (fun y hy => hrec y (by simp [hy])) hS hR heven ha hk hf'

/-! ## The calls -/

theorem SameEntries.booked {w w' : World} (h : SameEntries w w') (hB : w.Booked) : w'.Booked := by
  have hc : ∀ s, w'.conns s = w.conns s := fun s => congrArg (List.map Prod.snd) (h.connections s)
  have hp : ∀ r, w'.possible r = w.possible r := fun r =>
    congrArg (List.map Prod.snd) (h.possibleSenders r)
  obtain ⟨h1, h2, h3⟩ := hB
  refine ⟨?_, ?_, ?_⟩ <;> simp only [hc, hp, h.objects.sender, h.objects.receiver] <;> assumption

theorem LoopCut.booked_iff {s : SenderId} {live' : List (Nat × ConnectStruct)} {zs : List Entry}
    {k : Nat} {w w' w'' : World} (h : LoopCut s (w.connectList s).toList live' zs k w w')
    (hs : (w.sender s).isSome = true) (hB : w.Booked)
    (hobj : SameObjects w' w'') (hc : w''.conns s = live'.map Prod.snd)
    (hne : ∀ s', s' ≠ s → w''.conns s' = w'.conns s') (hp : ∀ r, w''.possible r = w'.possible r) :
    w''.Booked ↔ k % 3 ≠ 1 := by
  have hobj' := h.objects.trans hobj
  have hcount : ∀ r, (w''.conns s).countP (fun c => c.receiver == r) =
      live'.countP fun x => x.2.receiver == r := fun r => by
    rw [hc, List.countP_map]
    rfl
  have hne' : ∀ s', s' ≠ s → w''.conns s' = w.conns s' := fun s' hss => by
    rw [hne s' hss, World.conns, h.others s' hss]
    rfl
  rw [← h.even]
  constructor
  · intro hB' r hr
    rw [← hcount, ← hp]
    exact hB'.counts s r (hobj'.sender ▸ hs) (hobj.receiver ▸ hr)
  · intro he
    refine ⟨fun s' r hs' hr => ?_, fun s' hs' c hc' => ?_, fun r hr s' hs' => ?_⟩
    · rw [hobj'.sender] at hs'
      by_cases hss : s' = s
      · subst hss
        rw [hcount, hp]
        exact he r (hobj.receiver ▸ hr)
      · rw [hne' s' hss, hp, h.count_ne r s' hss]
        exact hB.counts s' r hs' (hobj'.receiver ▸ hr)
    · rw [hobj'.sender] at hs'
      rw [hobj'.receiver]
      by_cases hss : s' = s
      · subst hss
        rw [hc] at hc'
        obtain ⟨x, hx, rfl⟩ := List.mem_map.mp hc'
        exact hB.receivers s' hs' _ (List.mem_map_of_mem (h.sub x hx))
      · rw [hne' s' hss] at hc'
        exact hB.receivers s' hs' c hc'
    · rw [hobj'.receiver] at hr
      rw [hobj'.sender]
      rw [hp] at hs'
      exact hB.senders r hr s' (h.slots r s' hs')

/-- An `internal_disconnect` whose allocation `k` fails keeps the books, unless that
is the zombie entry of a receiver: then the sender keeps a connection that the
receiver forgot. -/
theorem internalDisconnect_fail {w : World} {cursors : SenderId → List Cursor} {s : SenderId}
    (hw : w.Sound cursors) (hs : (w.sender s).isSome = true) {sig : Option Bento}
    {r : Option ReceiverId} {slot : Option Bento} {k : Nat} (ha : w.allocs = some k)
    (hk : k < 3 * (w.conns s).countP (isMatch sig r slot) + 1) :
    ∃ w', internalDisconnect s sig r slot w = .thrown .badAlloc w' ∧
      SameObjects w w' ∧ (w'.Booked ↔ k % 3 ≠ 2) := by
  let S := connectListOf s
  have hB := hw.booked
  cases k with
  | zero =>
    have hsame := SameEntries.failed w
    exact ⟨w.failed, S.withHandle_fail ha, hsame.objects, iff_of_true (hsame.booked hB) (by decide)⟩
  | succ k =>
    obtain ⟨zs, hr, _⟩ := hw.lists s hs
    obtain ⟨live, hlive⟩ : ∃ live, (w.connectList s).toList = live := ⟨_, rfl⟩
    rw [hlive] at hr
    -- the lock
    let w1 := S.set (w.spend 1) (w.connectList s).rcuReadLock.2
    have hw1 : w1.connectList s = (w.connectList s).rcuReadLock.2 := S.get_set _ _
    have hr1 : Rep (w1.connectList s) ([] ++ live) ((w.connectList s).guardEntry :: zs) := by
      rw [hw1]
      exact hr.lock
    have hlive1 : (w1.connectList s).toList = live := hr1.toList_eq
    have hhead : (w1.connectList s).head = live.head?.map Prod.fst := hr1.nodes.head_eq
    have hsame : SameEntries w w1 := by
      refine ⟨⟨rfl, rfl, rfl, rfl, rfl, rfl⟩, fun s' => ?_, fun _ => rfl⟩
      by_cases hss : s' = s
      · subst hss
        exact hlive1.trans hlive.symm
      · simp only [w1, S, connectListOf, Function.update_of_ne hss, World.spend]
    have hB1 := hsame.booked hB
    have hcount : ∀ q : ConnectStruct → Bool,
        (w.conns s).countP q = live.countP fun x => q x.2 := fun q => by
      rw [World.conns, NodeList.values, List.countP_map, hlive]
      rfl
    have hcount1 : ∀ q : ConnectStruct → Bool,
        (w1.conns s).countP q = live.countP fun x => q x.2 := fun q => by
      rw [World.conns, NodeList.values, List.countP_map, hlive1]
      rfl
    -- the loop
    obtain ⟨live', w2, hrun, hC⟩ := disconnectFrom_fail (w := w1) (s := s) (isMatch sig r slot) false hs
      (fun x hx => hB.receivers s hs x.2 (List.mem_map_of_mem (hlive ▸ hx))) hr1 hw.slots
      (fun r' hr' => (hcount1 fun c => c.receiver == r').symm.trans (hB1.counts s r' hs hr'))
      (show w1.allocs = some k from World.spend_allocs ha 1)
      (by rw [hcount] at hk; omega) hr1.nodes.length_le
    -- the unlock
    obtain ⟨ext, hst⟩ := hC.own
    obtain ⟨l3, hun, hl3, _⟩ := hst.unlock rfl
    have hget : (S.set w2 l3).connectList s = l3 := S.get_set _ _
    have hbody : (do
        let fuel ← S.bound
        let iter ← S.begin
        disconnectFrom s (isMatch sig r slot) fuel iter false : Op Bool) w1 =
          .thrown .badAlloc w2 := by
      rw [bind_returned (S.bound_run (w := w1) hs), bind_returned (S.begin_run (w := w1) hs)]
      show disconnectFrom s _ _ (w1.connectList s).head false w1 = _
      rw [hhead]
      exact hrun
    have hobj : SameObjects w2 (S.set w2 l3) := ⟨rfl, rfl, rfl, rfl, rfl, rfl⟩
    refine ⟨S.set w2 l3, S.withHandle_thrown hs (World.enough_some ha (by omega)) hbody hun,
      (hsame.objects.trans hC.objects).trans hobj, ?_⟩
    rw [List.nil_append, ← hlive1] at hC
    rw [hC.booked_iff hs hB1 hobj ?_ (fun s' hss => ?_) fun _ => rfl]
    · omega
    · rw [World.conns, hget, NodeList.values, hl3.nodes.toList_eq]
    · simp only [World.conns, S, connectListOf, Function.update_of_ne hss]

theorem connect_enough {w : World} {cursors : SenderId → List Cursor} {s : SenderId}
    {r : ReceiverId} (hw : w.Sound cursors) (hs : (w.sender s).isSome = true)
    (hr : w.receiver r = true) {o : Overload} {sig slot : Bento} {type : ConnectionKind} {u : Bool}
    (hacc : o.accepts sig slot = true) (ha : w.enough (connectAllocs o w s sig r slot u)) :
    ∃ b w', connect o s sig r slot type u w = .returned b w' ∧ w'.Booked := by
  rcases connect_eq o s sig r slot type u (w := w) with ⟨hno, _⟩ | ⟨_, heq⟩
  · rw [hacc] at hno
    cases hno
  · obtain ⟨w', hrun, hD⟩ := connectUnless_run (w := w.spend o.bentos) (o.same sig r slot)
      sig slot type u hs hr
      (hw.lists s hs) hw.slots (World.enough_spend ha)
    refine ⟨_, w', by rw [heq (World.enough_mono ha (Nat.le_add_right _ _)), hrun], ?_⟩
    refine hD.booked (fun c hc => ?_) hs hr ((SameEntries.spend w _).booked hw.booked)
    split at hc
    · cases hc
    · cases hc
      rfl

/-- One allocation fails, the one after `k` others. A `connect` that throws then left
all lists as they were exactly if it was a Bento object, the guard of the sender or
the node of the connection; an `internal_disconnect` that throws then left both sides
in step exactly if it was not the zombie entry of a receiver. -/
theorem allocation_failure {w : World} {cursors : SenderId → List Cursor} {s : SenderId} {k : Nat}
    (hw : w.Sound cursors) (hs : (w.sender s).isSome = true) (ha : w.allocs = some k) :
    (∀ o sig r slot type u, w.receiver r = true →
      (∃ what, connect o s sig r slot type u w = .thrown (.invalidArgument what) w) ∨
      (∃ b w', connect o s sig r slot type u w = .returned b w' ∧ w'.Booked) ∨
      ∃ w', connect o s sig r slot type u w = .thrown .badAlloc w' ∧
        (SameEntries w w' ↔ k < o.bentos + 2)) ∧
    ∀ sig r slot,
      (∃ b w', internalDisconnect s sig r slot w = .returned b w' ∧ w'.Booked) ∨
      ∃ w', internalDisconnect s sig r slot w = .thrown .badAlloc w' ∧
        (w'.Booked ↔ k % 3 ≠ 2) := by
  constructor
  · intro o sig r slot type u hr
    rcases connect_eq o s sig r slot type u (w := w) with ⟨_, h⟩ | ⟨hacc, _⟩
    · exact Or.inl h
    · by_cases hk : k < connectAllocs o w s sig r slot u
      · obtain ⟨w', hrun, hF⟩ := connect_fail type hw hs hr hacc ha hk
        refine Or.inr (Or.inr ⟨w', hrun, hF.sameEntries_iff.trans ?_⟩)
        split <;> simp_all
      · exact Or.inr (Or.inl (connect_enough hw hs hr hacc
          (World.enough_some ha (Nat.le_of_not_lt hk))))
  · intro sig r slot
    by_cases hk : k < 3 * (w.conns s).countP (isMatch sig r slot) + 1
    · obtain ⟨w', hrun, _, hB⟩ := internalDisconnect_fail hw hs ha hk
      exact Or.inr ⟨w', hrun, hB⟩
    · obtain ⟨w', hrun, hD⟩ := disconnect_run hs (hw.lists s hs) hw.slots hw.booked
        (World.enough_some ha (Nat.le_of_not_lt hk))
      exact Or.inl ⟨_, w', hrun, hD.booked hw.booked⟩

/-- The world whose allocator fails after `k` allocations. -/
def World.failing (w : World) (k : Nat) : World := { w with allocs := some k }

theorem World.Sound.failing {w : World} {cursors : SenderId → List Cursor} (hw : w.Sound cursors)
    (k : Nat) : (w.failing k).Sound cursors := by
  obtain ⟨h1, h2, ⟨h3, h4, h5⟩, h6, h7⟩ := hw
  exact ⟨h1, h2, ⟨h3, h4, h5⟩, h6, h7⟩

/-- One connection, from signal 0 to slot 0. -/
def connected : List Action :=
  [.newSender 100, .newReceiver,
    .connect .methodSlot 0 (.method 0 (some 1)) 0 (.method 1 (some 1)) .autoConnection false]

theorem connected_sound (k : Nat) : ∃ cursors, ((after connected).world.failing k).Sound cursors :=
  ⟨_, (inv_reached (Runs.run_reached (by decide +kernel))).memory.toSound.failing k⟩

/-- The last allocation of the disconnect fails: the books are kept. -/
theorem allocation_failure_last :
    (∃ b w', internalDisconnect 0 none none none ((after connected).world.failing 3) =
      .returned b w' ∧ w'.Booked) ∨
    ∃ w', internalDisconnect 0 none none none ((after connected).world.failing 3) =
      .thrown .badAlloc w' ∧ (w'.Booked ↔ 3 % 3 ≠ 2) := by
  obtain ⟨_, hw⟩ := connected_sound 3
  exact (allocation_failure hw (by decide +kernel) rfl).2 none none none

/-- The guard of the receiver fails in `connect`, or its zombie entry in
`internal_disconnect`. -/
theorem allocation_failure_torn :
    ¬ ∀ (w : World) (cursors : SenderId → List Cursor) (s : SenderId) (k : Nat), w.Sound cursors →
      (w.sender s).isSome = true → w.allocs = some k →
      (∀ o sig r slot type u w', w.receiver r = true →
        connect o s sig r slot type u w = .thrown .badAlloc w' → SameEntries w w') ∧
      ∀ sig r slot w', internalDisconnect s sig r slot w = .thrown .badAlloc w' → w'.Booked := by
  intro h
  obtain ⟨cursors, hw⟩ := connected_sound 2
  have hs : (((after connected).world.failing 2).sender 0).isSome = true := by decide +kernel
  have hk : 2 < 3 * (((after connected).world.failing 2).conns 0).countP (isMatch none none none) + 1 := by
    decide +kernel
  obtain ⟨w', hrun, _, hB⟩ := internalDisconnect_fail hw hs rfl hk
  exact absurd rfl (hB.mp ((h _ cursors 0 2 hw hs rfl).2 none none none w' hrun))

end CsSignal
