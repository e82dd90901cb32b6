import TrIrcd.Proofs.ListLoop

/-!
# Which lists of channels are complete

A list comes out right only if the answers of `will_exceed_sendq` undo what
`send_queued` does at each line: before the first line of a bucket they may be
yes any number of times, then they are no and yes in turn (`Smooth`), and at the
end, which is a line too, yes once more. `runFrom_outcome` follows one call from
a bucket to the end, `listRounds_outcome` the calls after it, and
`runFrom_smooth` goes the way back.

Besides, the least age of a channel is compared with 1 and not with its age.
-/

namespace TrIrcd

namespace ListEnv

variable {E : ListEnv} {lopt : LOpts} {q : ListSt → Option ListSt} {st st' : ListSt}
  {fuel hashnum s i : Nat} {out : List ListReply} {b : List ListChannel}
  {bs : List (List ListChannel)}

/-! ## The buckets -/

/-- How many channels of each bucket are shown. -/
def shownCounts (E : ListEnv) (lopt : LOpts) (bs : List (List ListChannel)) : List Nat :=
  bs.map (List.countP (E.shown lopt))

/-- The answers `i` to `j` for buckets with so many channels that are shown: any
number of times yes before the first of a bucket, then no and yes for each. -/
inductive Smooth (E : ListEnv) : List Nat → Nat → Nat → Prop
  | nil (i : Nat) : Smooth E [] i i
  | empty {ks : List Nat} {i j : Nat} : Smooth E ks i j → Smooth E (0 :: ks) i j
  | stop {k : Nat} {ks : List Nat} {i j : Nat} : E.exceeds i = true →
      Smooth E ((k + 1) :: ks) (i + 1) j → Smooth E ((k + 1) :: ks) i j
  | bucket {k : Nat} {ks : List Nat} {i j : Nat} : E.Passes i (k + 1) →
      Smooth E ks (i + 2 * (k + 1)) j → Smooth E ((k + 1) :: ks) i j

theorem Smooth.pass {k : Nat} {ks : List Nat} {j : Nat} (hpass : E.Passes i k)
    (h : E.Smooth ks (i + 2 * k) j) : E.Smooth (k :: ks) i j := by
  cases k with
  | zero => exact .empty h
  | succ k => exact .bucket hpass h

theorem Smooth.wait {k : Nat} {ks : List Nat} {j : Nat} (hk : k ≠ 0) (hyes : E.exceeds i = true)
    (h : E.Smooth (k :: ks) (i + 1) j) : E.Smooth (k :: ks) i j := by
  obtain ⟨k, rfl⟩ := Nat.exists_eq_succ_of_ne_zero hk
  exact .stop hyes h

/-- The number of the last bucket that has a channel, or `s`. -/
def lastBucket : Nat → Nat → List (List ListChannel) → Nat
  | s, _, [] => s
  | s, hashnum, b :: bs => lastBucket (startAfter s hashnum b) (hashnum + 1) bs

/-- Behind the last bucket that has a channel there is none. -/
theorem lastBucket_spec : ∀ {bs : List (List ListChannel)} {s hashnum : Nat},
    (lastBucket s hashnum bs = s ∧ bs.flatten = []) ∨
      ∃ pre b post, bs = pre ++ b :: post ∧ b ≠ [] ∧ post.flatten = [] ∧
        lastBucket s hashnum bs = hashnum + pre.length
  | [], _, _ => .inl ⟨rfl, rfl⟩
  | b :: bs, s, hashnum => by
      rw [lastBucket]
      rcases @lastBucket_spec bs (startAfter s hashnum b) (hashnum + 1) with
        ⟨hlast, hnil⟩ | ⟨pre, d, post, rfl, hd, hpost, hlast⟩
      · by_cases hb : b = []
        · refine .inl ⟨?_, ?_⟩
          · rw [hlast, startAfter, if_pos (List.isEmpty_iff.mpr hb)]
          · rw [List.flatten_cons, hb, hnil, List.append_nil]
        · refine .inr ⟨[], b, bs, rfl, hb, hnil, ?_⟩
          rw [hlast, startAfter, if_neg fun h => hb (List.isEmpty_iff.mp h)]
          rfl
      · refine .inr ⟨b :: pre, d, post, rfl, hd, hpost, ?_⟩
        rw [hlast, List.length_cons]
        omega

/-- At the end of the list: `starthash` is 0, or its bucket has a channel that
is shown, and the answer is yes. -/
def EndStops (E : ListEnv) (lopt : LOpts) (j : Nat) : Prop :=
  lastBucket 0 0 E.table.bucket = 0 ∨
    (∃ c ∈ (E.table.bucket.drop (lastBucket 0 0 E.table.bucket)).flatten, E.shown lopt c = true) ∧
      E.exceeds j = true

theorem runFrom_none : ∀ {bs : List (List ListChannel)} {hashnum s : Nat},
    (∀ c ∈ bs.flatten, ¬ E.shown lopt c = true) →
    ∃ s', E.runFrom q hashnum bs (midway lopt s i out) =
      (q (midway lopt s' i (out ++ [.listEnd]))).map ListSt.clear
  | [], _, s, _ => ⟨s, rfl⟩
  | b :: bs, hashnum, s, h => by
      have hb : ∀ c ∈ b, ¬ E.shown lopt c = true :=
        fun c hc => h c (List.mem_append_left _ hc)
      obtain ⟨s', hrest⟩ := @runFrom_none bs (hashnum + 1) (startAfter s hashnum b)
        fun c hc => h c (List.mem_append_right _ hc)
      refine ⟨s', ?_⟩
      rw [runFrom_cons, chanLoop_none hb]
      exact hrest

/-- The bucket that is last to have a channel, if it is not the first. -/
theorem lastBucket_drop (h : lastBucket 0 0 E.table.bucket ≠ 0) : ∃ b bs,
    E.table.bucket.drop (lastBucket 0 0 E.table.bucket) = b :: bs ∧ bs.flatten = [] := by
  rcases @lastBucket_spec E.table.bucket 0 0 with ⟨hlast, -⟩ | ⟨pre, b, post, heq, -, hpost, hlast⟩
  · exact absurd hlast h
  · refine ⟨b, post, ?_, hpost⟩
    rw [hlast, Nat.zero_add]
    conv_lhs => rw [heq]
    exact List.drop_left

/-- The end of a list is sent once if `send_queued`, which it calls, is stopped. -/
theorem listEnd_once {all : List ListReply}
    (hall : ∀ c ∈ E.table.bucket.flatten, E.shown lopt c = true → rplList E.cptr c ∈ all)
    (hrun : E.sendQueued fuel (midway lopt (lastBucket 0 0 E.table.bucket) i
      (all ++ [.listEnd])) = some st') (hclean : E.Clean st'.out) :
    E.EndStops lopt i ∧ st'.out = all ++ [.listEnd] := by
  by_cases he : lastBucket 0 0 E.table.bucket = 0
  · rw [sendQueued_zero hrun he]
    exact ⟨.inl he, rfl⟩
  · obtain ⟨b, bs, hbs, hpost⟩ := lastBucket_drop he
    cases hfind : b.find? (E.shown lopt) with
    | some c =>
        have h : E.Bucket lopt (lastBucket 0 0 E.table.bucket) b c := ⟨he, ⟨bs, hbs⟩, hfind⟩
        have hshown := List.find?_some hfind
        obtain ⟨hyes, rfl⟩ := sendQueued_sent h
          (List.mem_append_left _ (hall c h.mem hshown)) hrun hclean
        refine ⟨.inr ⟨⟨c, ?_, hshown⟩, hyes⟩, rfl⟩
        rw [hbs]
        exact List.mem_append_left _ (List.mem_of_find?_eq_some hfind)
    | none =>
        -- Nothing stops the call, and it sends the end once more.
        exfalso
        cases fuel with
        | zero => cases hrun
        | succ fuel =>
            have hnone : ∀ c ∈ (b :: bs).flatten, ¬ E.shown lopt c = true := by
              rw [List.flatten_cons, hpost, List.append_nil]
              exact List.find?_eq_none.mp hfind
            rw [sendQueued_succ he, hbs] at hrun
            obtain ⟨s', hend⟩ := @runFrom_none E lopt (E.sendQueued fuel) i (all ++ [.listEnd])
              (b :: bs) (lastBucket 0 0 E.table.bucket) (lastBucket 0 0 E.table.bucket) hnone
            rw [hend] at hrun
            obtain ⟨st₁, hsend, rfl⟩ := Option.map_eq_some_iff.mp hrun
            have hle := sendQueued_grows fuel hsend
            exact hclean.not_end_again (List.mem_append_right _ (List.mem_singleton_self _)) hle

/-- The buckets still to come, and what was sent before them. -/
structure Ahead (E : ListEnv) (lopt : LOpts) (s hashnum : Nat) (out : List ListReply)
    (bs : List (List ListChannel)) : Prop where
  ne : hashnum ≠ 0
  drop : E.table.bucket.drop hashnum = bs
  last : lastBucket s hashnum bs = lastBucket 0 0 E.table.bucket
  sent : out ++ E.sentOf lopt bs.flatten = E.sentOf lopt E.table.bucket.flatten

theorem Ahead.next (h : E.Ahead lopt s hashnum out (b :: bs)) :
    E.Ahead lopt (startAfter s hashnum b) (hashnum + 1) (out ++ E.sentOf lopt b) bs where
  ne := Nat.succ_ne_zero _
  drop := by rw [← List.drop_drop, h.drop, List.drop_one, List.tail_cons]
  last := h.last
  sent := by rw [List.append_assoc, ← sentOf_append, ← List.flatten_cons, h.sent]

theorem startAfter_pos (hb : b.countP (E.shown lopt) ≠ 0) : startAfter s hashnum b = hashnum := by
  rw [startAfter, if_neg]
  intro hnil
  rw [List.isEmpty_iff.mp hnil] at hb
  exact hb rfl

theorem find_of_countP (hb : b.countP (E.shown lopt) ≠ 0) :
    ∃ c, b.find? (E.shown lopt) = some c :=
  Option.isSome_iff_exists.mp
    (List.find?_isSome.mpr (List.countP_pos_iff.mp (Nat.pos_of_ne_zero hb)))

/-- Where the list leaves off, it goes on at the same bucket. -/
theorem Ahead.wait (h : E.Ahead lopt s hashnum out (b :: bs))
    (hb : b.countP (E.shown lopt) ≠ 0) : E.Ahead lopt hashnum hashnum out (b :: bs) := by
  have hlast := h.last
  rw [lastBucket, startAfter_pos hb] at hlast
  refine ⟨h.ne, h.drop, ?_, h.sent⟩
  rw [lastBucket, startAfter_self, hlast]

/-- The end of a list: the answers were smooth, and every line was sent once. -/
structure Ended (E : ListEnv) (lopt : LOpts) (st : ListSt) : Prop where
  start : st.lopt.starthash = 0
  sent : st.out = E.sentOf lopt E.table.bucket.flatten ++ [.listEnd]

/-- One call of `send_list`, from some bucket on. -/
theorem runFrom_outcome : ∀ {bs : List (List ListChannel)} {hashnum s i : Nat}
    {out : List ListReply}, E.Ahead lopt s hashnum out bs →
    E.runFrom (E.sendQueued fuel) hashnum bs (midway lopt s i out) = some st' →
    E.Clean st'.out →
    E.Stuck lopt st' ∨
    (∃ h' i' out' bs', E.Ahead lopt h' h' out' bs' ∧ st' = midway lopt h' i' out' ∧
      ∀ j, E.Smooth (E.shownCounts lopt bs') i' j → E.Smooth (E.shownCounts lopt bs) i j) ∨
    ∃ j, E.Smooth (E.shownCounts lopt bs) i j ∧ E.EndStops lopt j ∧ E.Ended lopt st'
  | [], hashnum, s, i, out, h, hrun, hclean => by
      have hs : s = lastBucket 0 0 E.table.bucket := h.last
      have hout := h.sent
      rw [List.flatten_nil, sentOf_nil, List.append_nil] at hout
      rw [runFrom_nil] at hrun
      obtain ⟨st₁, hsend, rfl⟩ := Option.map_eq_some_iff.mp hrun
      rw [hs, hout] at hsend
      obtain ⟨hend, heq⟩ := listEnd_once (fun c hc hshown => mem_sentOf hc hshown) hsend hclean
      exact .inr (.inr ⟨i, .nil i, hend, rfl, heq⟩)
  | b :: bs, hashnum, s, i, out, h, hrun, hclean => by
      rw [runFrom_cons] at hrun
      obtain ⟨⟨stop, st₁⟩, hchan, hrest⟩ := Option.bind_eq_some_iff.mp hrun
      have hle : st₁.out <+: st'.out := by
        dsimp only at hrest
        split at hrest
        · cases hrest
          exact List.prefix_refl _
        · exact runFrom_grows (sendQueued_grows fuel) hrest
      rcases chanLoop_bucket h.ne h.drop hchan (hclean.of_prefix hle) with
        ⟨rfl, hb, hyes, rfl⟩ | ⟨rfl, hstuck⟩ | ⟨rfl, hpass, rfl⟩
      · cases hrest
        exact .inr (.inl ⟨_, _, _, _, h.wait hb, rfl, fun j hj => hj.wait hb hyes⟩)
      · cases hrest
        exact .inl hstuck
      · rcases runFrom_outcome h.next hrest hclean with
          hstuck | ⟨h', i', out', bs', hahead, heq, hsmooth⟩ | ⟨j, hsmooth, hend⟩
        · exact .inl hstuck
        · exact .inr (.inl ⟨h', i', out', bs', hahead, heq, fun j hj => (hsmooth j hj).pass hpass⟩)
        · exact .inr (.inr ⟨j, hsmooth.pass hpass, hend⟩)

/-! ## The calls of `send_list` -/

theorem listRounds_zero (hst : st.lopt.starthash = 0) : ∀ {n : Nat},
    E.listRounds fuel n st = some st' → st' = st
  | 0, h => (Option.some.inj h).symm
  | n + 1, h => by
      obtain ⟨st₁, hsend, hrest⟩ := Option.bind_eq_some_iff.mp h
      rw [sendQueued_zero hsend hst] at hrest
      exact listRounds_zero hst hrest

/-- A list that stands still does so for ever. -/
theorem listRounds_stuck : ∀ {n : Nat} {st : ListSt}, E.Stuck lopt st →
    E.listRounds fuel n st = some st' → E.Clean st'.out → st'.lopt.starthash ≠ 0
  | 0, st, hstuck, hrun, _ => by
      obtain ⟨hashnum, i, out, b, c, h, -, heq⟩ := hstuck
      rw [← Option.some.inj hrun, heq]
      exact h.ne
  | n + 1, st, hstuck, hrun, hclean => by
      obtain ⟨hashnum, i, out, b, c, h, hsent, rfl⟩ := hstuck
      obtain ⟨st₁, hsend, hrest⟩ := Option.bind_eq_some_iff.mp hrun
      obtain ⟨-, rfl⟩ := sendQueued_sent h hsent hsend
        (hclean.of_prefix (listRounds_grows hrest))
      exact listRounds_stuck ⟨hashnum, _, out, b, c, h, hsent, rfl⟩ hrest hclean

/-- The calls that go on with a list. -/
theorem listRounds_outcome : ∀ {n hashnum i : Nat} {out : List ListReply}
    {bs : List (List ListChannel)}, E.Ahead lopt hashnum hashnum out bs →
    E.listRounds fuel n (midway lopt hashnum i out) = some st' → st'.lopt.starthash = 0 →
    E.Clean st'.out →
    ∃ j, E.Smooth (E.shownCounts lopt bs) i j ∧ E.EndStops lopt j ∧ E.Ended lopt st'
  | 0, hashnum, i, out, bs, h, hrun, hzero, _ => by
      cases hrun
      exact absurd hzero h.ne
  | n + 1, hashnum, i, out, bs, h, hrun, hzero, hclean => by
      obtain ⟨st₁, hsend, hrest⟩ := Option.bind_eq_some_iff.mp hrun
      have hclean₁ := hclean.of_prefix (listRounds_grows hrest)
      cases hfuel : fuel with
      | zero =>
          rw [hfuel] at hsend
          cases hsend
      | succ f =>
          rw [hfuel, sendQueued_succ h.ne, h.drop] at hsend
          rcases runFrom_outcome h hsend hclean₁ with
            hstuck | ⟨h', i', out', bs', hahead, rfl, hsmooth⟩ | ⟨j, hsmooth, hend, hended⟩
          · exact absurd hzero (listRounds_stuck hstuck hrest hclean)
          · obtain ⟨j, hj, hend⟩ := listRounds_outcome hahead hrest hzero hclean
            exact ⟨j, hsmooth j hj, hend⟩
          · rw [listRounds_zero hended.start hrest]
            exact ⟨j, hsmooth, hend, hended⟩

/-- The answers with which a list comes out right. In bucket 0 they are all no,
from there on they are smooth. -/
def Answered (E : ListEnv) (lopt : LOpts) : Prop :=
  (∀ m < (E.table.bucket.headD []).countP (E.shown lopt), E.exceeds m = false) ∧
    ∃ j, E.Smooth (E.shownCounts lopt E.table.bucket.tail)
        ((E.table.bucket.headD []).countP (E.shown lopt)) j ∧
      E.EndStops lopt j

theorem sendList_eq (E : ListEnv) (lopt : LOpts) (fuel : Nat) :
    E.sendList fuel ⟨{ lopt with starthash := 0 }, 0, []⟩ =
      E.runFrom (E.sendQueued fuel) 0 E.table.bucket (midway lopt 0 0 []) := rfl

/-- The first bucket, and what is ahead then. -/
theorem first_bucket (E : ListEnv) (lopt : LOpts) : ∃ b bs, E.table.bucket = b :: bs ∧
    E.Ahead lopt 0 1 (E.sentOf lopt b) bs := by
  cases hT : E.table.bucket with
  | nil =>
      have hsize := E.table.size
      rw [hT] at hsize
      cases hsize
  | cons b bs =>
      refine ⟨b, bs, rfl, Nat.one_ne_zero, ?_, ?_, ?_⟩
      · rw [hT, List.drop_one, List.tail_cons]
      · rw [hT, lastBucket, startAfter_self]
      · rw [hT, ← sentOf_append, List.flatten_cons]

theorem answered_of_listing {n : Nat} (hrun : E.listing fuel n lopt = some st')
    (hzero : st'.lopt.starthash = 0) (hend : ListReply.listEnd ∈ st'.out)
    (hclean : E.Clean st'.out) : E.Answered lopt ∧ E.Ended lopt st' := by
  obtain ⟨b, bs, hT, hahead⟩ := first_bucket E lopt
  obtain ⟨st₁, hsend, hrest⟩ := Option.bind_eq_some_iff.mp hrun
  have hclean₁ := hclean.of_prefix (listRounds_grows hrest)
  rw [sendList_eq, hT, runFrom_cons] at hsend
  obtain ⟨⟨stop, st₂⟩, hchan, hnext⟩ := Option.bind_eq_some_iff.mp hsend
  rw [Answered, hT, List.headD_cons, List.tail_cons]
  rcases chanLoop_first hchan with ⟨rfl, hstart, hno⟩ | ⟨rfl, hpass, rfl⟩
  · -- The list leaves off in bucket 0 and has no end.
    cases hnext
    rw [listRounds_zero hstart hrest] at hend
    exact absurd hend (hno List.not_mem_nil)
  · simp only [Nat.zero_add] at hpass
    rw [Nat.zero_add] at hnext
    rcases runFrom_outcome hahead hnext hclean₁ with
      hstuck | ⟨h', i', out', bs', hahead', rfl, hsmooth⟩ | ⟨j, hsmooth, hstops, hended⟩
    · exact absurd hzero (listRounds_stuck hstuck hrest hclean)
    · obtain ⟨j, hj, hstops, hended⟩ := listRounds_outcome hahead' hrest hzero hclean
      exact ⟨⟨hpass, j, hsmooth j hj, hstops⟩, hended⟩
    · rw [listRounds_zero hended.start hrest]
      exact ⟨⟨hpass, j, hsmooth, hstops⟩, hended⟩

/-- With smooth answers the list is gone on with until it ends. -/
theorem runFrom_smooth {ks : List Nat} {j : Nat} (h : E.Smooth ks i j)
    (hend : E.EndStops lopt j) : ∀ {bs : List (List ListChannel)} {hashnum s fuel : Nat}
    {out : List ListReply}, E.shownCounts lopt bs = ks → E.Ahead lopt s hashnum out bs →
    ∃ n st', (E.runFrom (E.sendQueued (fuel + 1)) hashnum bs (midway lopt s i out)).bind
      (E.listRounds 2 n) = some st' ∧ E.Ended lopt st' := by
  induction h with
  | nil i =>
      intro bs hashnum s fuel out hbs hahead
      rw [List.map_eq_nil_iff.mp hbs] at hahead ⊢
      have hs : s = lastBucket 0 0 E.table.bucket := hahead.last
      have hout := hahead.sent
      rw [List.flatten_nil, sentOf_nil, List.append_nil] at hout
      have hsend : ∃ i', E.sendQueued (fuel + 1) (midway lopt s i (out ++ [.listEnd])) =
          some (midway lopt s i' (out ++ [.listEnd])) := by
        by_cases hzero : s = 0
        · refine ⟨i, ?_⟩
          rw [sendQueued]
          exact if_neg (not_not_intro hzero)
        · rcases hend with hlast | ⟨⟨c, hc, hshown⟩, hyes⟩
          · exact absurd (hs.trans hlast) hzero
          · obtain ⟨b, post, hdrop, hpost⟩ := lastBucket_drop (hs ▸ hzero)
            rw [hdrop, List.flatten_cons, hpost, List.append_nil] at hc
            obtain ⟨d, hd⟩ := Option.isSome_iff_exists.mp
              (List.find?_isSome.mpr ⟨c, hc, hshown⟩)
            exact ⟨i + 1, sendQueued_stop ⟨hzero, ⟨post, hs ▸ hdrop⟩, hd⟩ hyes⟩
      obtain ⟨i', hsend⟩ := hsend
      refine ⟨0, (midway lopt s i' (out ++ [.listEnd])).clear, ?_, rfl, ?_⟩
      · rw [runFrom_nil]
        exact congrArg (fun r => (r.map ListSt.clear).bind (E.listRounds 2 0)) hsend
      · rw [← hout]
        rfl
  | @empty ks i j hks ih =>
      intro bs hashnum s fuel out hbs hahead
      obtain ⟨b, bs, rfl, hb, hbs⟩ := List.map_eq_cons_iff.mp hbs
      have hnone := List.countP_eq_zero.mp hb
      have hnext := hahead.next
      rw [sentOf_eq_nil hnone, List.append_nil] at hnext
      rw [runFrom_cons, chanLoop_none hnone]
      exact ih hend hbs hnext
  | @stop k ks i j hyes hks ih =>
      intro bs hashnum s fuel out hbs hahead
      obtain ⟨n, st', hrun, hended⟩ := @ih hend bs hashnum hashnum 0 out hbs (by
        obtain ⟨b, bs, rfl, hb, -⟩ := List.map_eq_cons_iff.mp hbs
        exact hahead.wait (hb.trans_ne (Nat.succ_ne_zero k)))
      obtain ⟨b, bs, rfl, hb, -⟩ := List.map_eq_cons_iff.mp hbs
      obtain ⟨c, hc⟩ := find_of_countP (hb.trans_ne (Nat.succ_ne_zero k))
      obtain ⟨cs, -, -, hloop⟩ := chanLoop_find hc
      refine ⟨n + 1, st', ?_, hended⟩
      rw [runFrom_cons, hloop, if_pos hyes]
      rw [← hahead.drop, ← sendQueued_succ hahead.ne] at hrun
      exact hrun
  | @bucket k ks i j hpass hks ih =>
      intro bs hashnum s fuel out hbs hahead
      obtain ⟨b, bs, rfl, hb, hbs⟩ := List.map_eq_cons_iff.mp hbs
      obtain ⟨c, hc⟩ := find_of_countP (hb.trans_ne (Nat.succ_ne_zero k))
      have hbucket : E.Bucket lopt hashnum b c := ⟨hahead.ne, ⟨bs, hahead.drop⟩, hc⟩
      rw [runFrom_cons, chanLoop_passes hbucket (hb ▸ hpass), hb]
      exact ih hend hbs hahead.next

theorem listing_of_answered (h : E.Answered lopt) :
    ∃ fuel n st', E.listing fuel n lopt = some st' ∧ E.Ended lopt st' := by
  obtain ⟨b, bs, hT, hahead⟩ := first_bucket E lopt
  rw [Answered, hT, List.headD_cons, List.tail_cons] at h
  obtain ⟨hpass, j, hsmooth, hend⟩ := h
  obtain ⟨n, st', hrun, hended⟩ := @runFrom_smooth E lopt _ _ j hsmooth hend bs 1 0 1 _ rfl hahead
  refine ⟨2, n, st', ?_, hended⟩
  have hfirst := @chanLoop_first_passes E lopt 1 b 0 [] (by
    simp only [Nat.zero_add]
    exact hpass)
  rw [Nat.zero_add, List.nil_append] at hfirst
  rw [listing, sendList_eq, hT, runFrom_cons, hfirst]
  exact hrun

/-- A list that ends has one line for each channel that is shown, and one end. -/
theorem Ended.count (h : E.Ended lopt st) :
    st.out.count .listEnd = 1 ∧ ∀ c ∈ E.table.bucket.flatten,
      st.out.count (rplList E.cptr c) = if E.shown lopt c then 1 else 0 := by
  rw [h.sent]
  refine ⟨?_, fun c hc => ?_⟩
  · rw [List.count_append, List.count_eq_zero_of_not_mem listEnd_notMem_sentOf]
    rfl
  · rw [List.count_append, count_sentOf E.table.nodup hc]
    rfl

/-- The list ends, with one line for each channel that is to be on it, none for
another, and one end. -/
def Complete (E : ListEnv) (lopt : LOpts) : Prop :=
  ∃ fuel n st, E.listing fuel n lopt = some st ∧ st.lopt.starthash = 0 ∧
    st.out.count .listEnd = 1 ∧ ∀ c ∈ E.table.bucket.flatten,
      (E.Wanted lopt c → st.out.count (rplList E.cptr c) = 1) ∧
        (¬ E.Wanted lopt c → st.out.count (rplList E.cptr c) = 0)

theorem Complete.answered (h : E.Complete lopt) : E.Answered lopt ∧
    ∀ c ∈ E.table.bucket.flatten, (E.Wanted lopt c ↔ E.shown lopt c = true) := by
  obtain ⟨fuel, n, st, hrun, hzero, hend, hcount⟩ := h
  have hclean : E.Clean st.out := by
    refine ⟨fun c hc => ?_, hend.le⟩
    by_cases hw : E.Wanted lopt c
    · exact ((hcount c hc).1 hw).le
    · exact ((hcount c hc).2 hw).le.trans (Nat.zero_le 1)
  obtain ⟨hanswered, hended⟩ := answered_of_listing hrun hzero
    (List.count_pos_iff.mp (hend ▸ Nat.one_pos)) hclean
  refine ⟨hanswered, fun c hc => ?_⟩
  have hshown := hended.count.2 c hc
  constructor
  · intro hw
    rw [(hcount c hc).1 hw] at hshown
    by_contra hs
    rw [if_neg hs] at hshown
    cases hshown
  · intro hs
    by_contra hw
    rw [(hcount c hc).2 hw, if_pos hs] at hshown
    cases hshown

end ListEnv

open ListEnv

/-- A list of the channels is complete if and only if the least age tells the
channels apart as 1 does, and the answers are such that each bucket is passed. -/
theorem list_complete_iff (E : ListEnv) (lopt : LOpts) : E.Complete lopt ↔
    (∀ c ∈ E.table.bucket.flatten, E.Visible c → lopt.showall = false → WithinOthers lopt c →
      (lopt.chantimemin ≤ c.tsval ↔ lopt.chantimemin ≤ 1)) ∧ E.Answered lopt := by
  constructor
  · intro h
    obtain ⟨hanswered, hwanted⟩ := h.answered
    refine ⟨fun c hc hv hshow hothers => ?_, hanswered⟩
    have hiff := hwanted c hc
    rw [shown_iff, Wanted] at hiff
    simpa [hv, hshow, hothers] using hiff
  · rintro ⟨hage, hanswered⟩
    have hwanted : ∀ c ∈ E.table.bucket.flatten, E.Wanted lopt c ↔ E.shown lopt c = true := by
      intro c hc
      rw [shown_iff, Wanted]
      refine and_congr_right fun hv => ?_
      cases hshow : lopt.showall with
      | true => exact iff_of_true (.inl rfl) (.inl rfl)
      | false =>
          exact or_congr_right (and_congr_right fun hothers => hage c hc hv hshow hothers)
    obtain ⟨fuel, n, st, hrun, hended⟩ := listing_of_answered hanswered
    refine ⟨fuel, n, st, hrun, hended.start, hended.count.1, fun c hc => ?_⟩
    rw [hended.count.2 c hc, hwanted c hc]
    exact ⟨fun hs => if_pos hs, fun hs => if_neg hs⟩

/-- One public channel in bucket 1, and a client whose queue is half full at the
third and fourth time only. -/
def loneChannel : ListEnv where
  cptr := ⟨[], false⟩
  table :=
    { bucket := [] :: [⟨1, [0x23, 0x61], 0, 1, 1, [], 0⟩] :: List.replicate (hashSize - 2) []
      size := by
        rw [List.length_cons, List.length_cons, List.length_replicate]
        rfl
      nodup := by simp }
  exceeds n := n == 2 || n == 3

/-- `/list` of all channels: the first line calls for the list again, and is not
told to stop. -/
theorem list_repeated :
    (∀ n, ∃ m, n ≤ m ∧ loneChannel.exceeds m = false) ∧
      ¬ loneChannel.Complete ⟨[], [], 0, true, 0, -1, 0, 0, 0, 0⟩ := by
  refine ⟨fun n => ⟨n + 4, Nat.le_add_right n 4, ?_⟩, fun h => ?_⟩
  · simp [loneChannel]
  · obtain ⟨⟨-, j, hsmooth, -⟩, -⟩ := h.answered
    cases hsmooth with
    | stop hyes => cases hyes
    | bucket hpass => cases (hpass 0 Nat.one_pos).2

end TrIrcd
