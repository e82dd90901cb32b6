import TrIrcd.Src.ChannelList

/-!
# A bucket in the list of channels

`starthash` is the number of a bucket, so what `send_list` goes on with is a
whole bucket, and it goes on with it at every line it sends. Once the first
channel of a bucket is out, each further call has to be told to stop, or it
sends that line again.

So the loop over a bucket either repeats a line, or stands still (`Stuck`), or
stops before the first line, or gets a no and a yes for each channel
(`Passes`). In bucket 0 it is the other way round: `starthash` is 0 there, which
means that no list is going on, so nothing is sent again, and a list that leaves
off is over.
-/

namespace TrIrcd

namespace ListEnv

variable {E : ListEnv} {lopt : LOpts} {q : ListSt → Option ListSt} {st st' : ListSt}
  {fuel hashnum s i : Nat} {out : List ListReply} {b cs : List ListChannel}
  {bs : List (List ListChannel)} {c : ListChannel} {stop : Bool}

/-! ## Which channels are sent -/

/-- The client may see the channel. -/
def Visible (E : ListEnv) (c : ListChannel) : Prop :=
  c.isSecret = true → E.cptr.isMember c = true ∨ E.cptr.seeHidden = true

/-- The channel is within the limits, but for the least age. -/
def WithinOthers (lopt : LOpts) (c : ListChannel) : Prop :=
  lopt.usermin.toNat ≤ c.users ∧ (c.users ≤ lopt.usermax ∨ lopt.usermax < 0) ∧
    c.tsval ≤ lopt.chantimemax ∧
    lopt.topictimemin ≤ c.topicTime ∧ c.topicTime ≤ lopt.topictimemax ∧
    (∀ mask ∈ lopt.nolist, ircMatch mask c.chname ≠ 0) ∧
    (lopt.yeslist ≠ [] → ∃ mask ∈ lopt.yeslist, ircMatch mask c.chname = 0)

/-- The channel is to be on the list. -/
def Wanted (E : ListEnv) (lopt : LOpts) (c : ListChannel) : Prop :=
  E.Visible c ∧
    (lopt.showall = true ∨ WithinOthers lopt c ∧ lopt.chantimemin ≤ c.tsval)

/-- `send_list` does not pass over the channel. -/
def shown (E : ListEnv) (lopt : LOpts) (c : ListChannel) : Bool := !listSkips E.cptr lopt c

theorem findStrLink_isSome {lptr : List (List UInt8)} {charptr : List UInt8} :
    (findStrLink lptr charptr).isSome = true ↔ ∃ mask ∈ lptr, ircMatch mask charptr = 0 := by
  simp [findStrLink, List.find?_isSome]

theorem findStrLink_isNone {lptr : List (List UInt8)} {charptr : List UInt8} :
    (findStrLink lptr charptr).isNone = true ↔ ∀ mask ∈ lptr, ircMatch mask charptr ≠ 0 := by
  simp [findStrLink]

theorem logicalOr_one (a : Int) : logicalOr a 1 = 1 := if_pos (.inr Int.one_ne_zero)

/-- The least age is compared with 1, whatever the age of the channel. -/
theorem shown_iff : E.shown lopt c = true ↔
    E.Visible c ∧ (lopt.showall = true ∨ WithinOthers lopt c ∧ lopt.chantimemin ≤ 1) := by
  have hno : (!lopt.nolist.isEmpty && (findStrLink lopt.nolist c.chname).isSome) = false ↔
      ∀ mask ∈ lopt.nolist, ircMatch mask c.chname ≠ 0 := by
    rw [← findStrLink_isNone, Bool.and_eq_false_iff]
    cases lopt.nolist with
    | nil => simp [findStrLink]
    | cons mask masks => simp
  have hyes : (!lopt.yeslist.isEmpty && (findStrLink lopt.yeslist c.chname).isNone) = false ↔
      (lopt.yeslist ≠ [] → ∃ mask ∈ lopt.yeslist, ircMatch mask c.chname = 0) := by
    rw [← findStrLink_isSome, Bool.and_eq_false_iff]
    cases lopt.yeslist with
    | nil => simp
    | cons mask masks => simp [Option.isSome_iff_ne_none]
  have hall : E.shown lopt c = true ↔ E.Visible c ∧ (lopt.showall = true ∨
      (lopt.usermin.toNat ≤ c.users ∧ (lopt.usermax ≥ 0 → c.users ≤ lopt.usermax) ∧
        lopt.chantimemin ≤ 1 ∧ lopt.topictimemin ≤ c.topicTime ∧ c.tsval ≤ lopt.chantimemax ∧
        c.topicTime ≤ lopt.topictimemax ∧
        (!lopt.nolist.isEmpty && (findStrLink lopt.nolist c.chname).isSome) = false ∧
        (!lopt.yeslist.isEmpty && (findStrLink lopt.yeslist c.chname).isNone) = false)) := by
    simp only [shown, listSkips, Visible, logicalOr_one, Bool.not_or, Bool.not_and, Bool.not_not,
      Bool.and_eq_true, Bool.or_eq_true, Bool.not_eq_true', decide_eq_false_iff_not]
    grind
  rw [hall, hno, hyes, WithinOthers]
  constructor
  · rintro ⟨hv, hshow | ⟨h1, h2, h3, h4, h5, h6, h7, h8⟩⟩
    · exact ⟨hv, .inl hshow⟩
    · exact ⟨hv, .inr ⟨⟨h1, by omega, h5, h4, h6, h7, h8⟩, h3⟩⟩
  · rintro ⟨hv, hshow | ⟨⟨h1, h2, h5, h4, h6, h7, h8⟩, h3⟩⟩
    · exact ⟨hv, .inl hshow⟩
    · exact ⟨hv, .inr ⟨h1, by omega, h3, h4, h5, h6, h7, h8⟩⟩

/-- The lines of the channels that are shown. -/
def sentOf (E : ListEnv) (lopt : LOpts) (cs : List ListChannel) : List ListReply :=
  (cs.filter (E.shown lopt)).map (rplList E.cptr)

theorem sentOf_nil : E.sentOf lopt [] = [] := rfl

theorem sentOf_append (cs ds : List ListChannel) :
    E.sentOf lopt (cs ++ ds) = E.sentOf lopt cs ++ E.sentOf lopt ds := by
  rw [sentOf, List.filter_append, List.map_append]
  rfl

theorem sentOf_cons_pos (h : E.shown lopt c = true) :
    E.sentOf lopt (c :: cs) = rplList E.cptr c :: E.sentOf lopt cs := by
  rw [sentOf, List.filter_cons_of_pos h, List.map_cons]
  rfl

theorem sentOf_cons_neg (h : ¬ E.shown lopt c = true) :
    E.sentOf lopt (c :: cs) = E.sentOf lopt cs := by
  rw [sentOf, List.filter_cons_of_neg h]
  rfl

theorem sentOf_eq_nil (h : ∀ c ∈ cs, ¬ E.shown lopt c = true) : E.sentOf lopt cs = [] := by
  rw [sentOf, List.filter_eq_nil_iff.mpr h, List.map_nil]

theorem mem_sentOf (hc : c ∈ cs) (h : E.shown lopt c = true) :
    rplList E.cptr c ∈ E.sentOf lopt cs :=
  List.mem_map_of_mem (List.mem_filter.mpr ⟨hc, h⟩)

theorem listEnd_notMem_sentOf : ListReply.listEnd ∉ E.sentOf lopt cs := by
  rw [sentOf, List.mem_map]
  rintro ⟨c, -, hc⟩
  cases hc

/-- A channel of the table has one line, and none if it is not shown. -/
theorem count_sentOf (hn : (cs.map ListChannel.chptr).Nodup) (hc : c ∈ cs) :
    (E.sentOf lopt cs).count (rplList E.cptr c) = if E.shown lopt c then 1 else 0 := by
  induction cs with
  | nil => cases hc
  | cons d ds ih =>
      rw [List.map_cons, List.nodup_cons] at hn
      have hother : d ∉ ds ∧ ∀ x ∈ ds, rplList E.cptr x ≠ rplList E.cptr d := by
        refine ⟨fun hd => hn.1 (List.mem_map_of_mem hd), fun x hx heq => ?_⟩
        have hptr : x.chptr = d.chptr := (ListReply.list.inj heq).1
        exact hn.1 (hptr ▸ List.mem_map_of_mem hx)
      rcases List.mem_cons.mp hc with rfl | hc
      · have hrest : (E.sentOf lopt ds).count (rplList E.cptr c) = 0 := by
          refine List.count_eq_zero_of_not_mem fun hm => ?_
          obtain ⟨x, hx, heq⟩ := List.mem_map.mp hm
          exact hother.2 x (List.mem_of_mem_filter hx) heq
        by_cases hs : E.shown lopt c = true
        · rw [sentOf_cons_pos hs, List.count_cons_self, hrest, if_pos hs]
        · rw [sentOf_cons_neg hs, hrest, if_neg hs]
      · by_cases hs : E.shown lopt d = true
        · rw [sentOf_cons_pos hs, List.count_cons_of_ne (hother.2 c hc).symm, ih hn.2 hc]
        · rw [sentOf_cons_neg hs, ih hn.2 hc]

/-! ## What is sent stays sent -/

/-- `send_queued` takes nothing back. -/
def Grows (q : ListSt → Option ListSt) : Prop :=
  ∀ {st st' : ListSt}, q st = some st' → st.out <+: st'.out

theorem prefix_put (reply : ListReply) (st : ListSt) : st.out <+: (st.put reply).out :=
  List.prefix_append ..

theorem chanLoop_grows (hq : Grows q) : ∀ {cs : List ListChannel} {st : ListSt},
    E.chanLoop q hashnum cs st = some (stop, st') → st.out <+: st'.out
  | [], st, h => by
      cases h
      exact List.prefix_refl _
  | c :: cs, st, h => by
      rw [chanLoop] at h
      split at h
      · have hle := chanLoop_grows hq h
        exact hle
      · split at h
        · cases h
          exact List.prefix_refl _
        · obtain ⟨st₁, hsend, hrest⟩ := Option.bind_eq_some_iff.mp h
          have hput := prefix_put (rplList E.cptr c) (st.setStart hashnum).ask
          exact hput.trans ((hq hsend).trans (chanLoop_grows hq hrest))

theorem bucketLoop_grows (hq : Grows q) : ∀ {bs : List (List ListChannel)} {hashnum : Nat}
    {st : ListSt}, E.bucketLoop q hashnum bs st = some (stop, st') → st.out <+: st'.out
  | [], _, st, h => by
      cases h
      exact List.prefix_refl _
  | b :: bs, hashnum, st, h => by
      rw [bucketLoop] at h
      obtain ⟨⟨stop₁, st₁⟩, hchan, hrest⟩ := Option.bind_eq_some_iff.mp h
      have hfirst := chanLoop_grows hq hchan
      dsimp only at hrest
      split at hrest
      · cases hrest
        exact hfirst
      · exact hfirst.trans (bucketLoop_grows hq hrest)

theorem listFinish_grows (hq : Grows q) (h : listFinish q (stop, st) = some st') :
    st.out <+: st'.out := by
  rw [listFinish] at h
  split at h
  · cases h
    exact List.prefix_refl _
  · obtain ⟨st₁, hsend, rfl⟩ := Option.map_eq_some_iff.mp h
    have hle := hq hsend
    exact (prefix_put .listEnd st).trans hle

/-- The buckets from one on, and what `send_list` does after them. -/
def runFrom (E : ListEnv) (q : ListSt → Option ListSt) (hashnum : Nat)
    (bs : List (List ListChannel)) (st : ListSt) : Option ListSt :=
  (E.bucketLoop q hashnum bs st).bind (listFinish q)

theorem runFrom_nil (E : ListEnv) (q : ListSt → Option ListSt) (hashnum : Nat) (st : ListSt) :
    E.runFrom q hashnum [] st = (q (st.put .listEnd)).map ListSt.clear := rfl

theorem runFrom_cons (E : ListEnv) (q : ListSt → Option ListSt) (hashnum : Nat)
    (b : List ListChannel) (bs : List (List ListChannel)) (st : ListSt) :
    E.runFrom q hashnum (b :: bs) st = (E.chanLoop q hashnum b st).bind fun r =>
      if r.1 then some r.2 else E.runFrom q (hashnum + 1) bs r.2 := by
  rw [runFrom, bucketLoop, Option.bind_assoc]
  congr 1
  funext ⟨stop, st⟩
  cases stop <;> rfl

theorem runFrom_grows (hq : Grows q) (h : E.runFrom q hashnum bs st = some st') :
    st.out <+: st'.out := by
  obtain ⟨⟨stop, st₁⟩, hloop, hfinish⟩ := Option.bind_eq_some_iff.mp h
  exact (bucketLoop_grows hq hloop).trans (listFinish_grows hq hfinish)

theorem sendQueued_grows : ∀ fuel, Grows (E.sendQueued fuel)
  | 0, _, _, h => by cases h
  | fuel + 1, st, st', h => by
      rw [sendQueued] at h
      split at h
      · exact runFrom_grows (sendQueued_grows fuel) h
      · cases h
        exact List.prefix_refl _

theorem listRounds_grows : ∀ {n : Nat} {st : ListSt},
    E.listRounds fuel n st = some st' → st.out <+: st'.out
  | 0, st, h => by
      cases h
      exact List.prefix_refl _
  | n + 1, st, h => by
      obtain ⟨st₁, hsend, hrest⟩ := Option.bind_eq_some_iff.mp h
      exact (sendQueued_grows fuel hsend).trans (listRounds_grows hrest)

/-- No channel has two lines, and the list has one end. -/
def Clean (E : ListEnv) (out : List ListReply) : Prop :=
  (∀ c ∈ E.table.bucket.flatten, out.count (rplList E.cptr c) ≤ 1) ∧ out.count .listEnd ≤ 1

theorem Clean.of_prefix {out out' : List ListReply} (h : E.Clean out') (hle : out <+: out') :
    E.Clean out :=
  ⟨fun c hc => (hle.sublist.count_le _).trans (h.1 c hc), (hle.sublist.count_le _).trans h.2⟩

theorem two_le_count {reply : ListReply} (h : reply ∈ out) : 2 ≤ (out ++ [reply]).count reply := by
  rw [List.count_append, List.count_singleton_self]
  exact Nat.succ_le_succ (List.count_pos_iff.mpr h)

theorem Clean.not_again (h : E.Clean out) (hc : c ∈ E.table.bucket.flatten)
    {sent : List ListReply} (hsent : rplList E.cptr c ∈ sent) :
    ¬ sent ++ [rplList E.cptr c] <+: out := fun hle => by
  have htwo := (two_le_count hsent).trans (hle.sublist.count_le _)
  have hone := h.1 c hc
  omega

theorem Clean.not_end_again (h : E.Clean out) {sent : List ListReply}
    (hsent : ListReply.listEnd ∈ sent) : ¬ sent ++ [ListReply.listEnd] <+: out := fun hle => by
  have htwo := (two_le_count hsent).trans (hle.sublist.count_le _)
  have hone := h.2
  omega

/-! ## The inner loop -/

/-- The options are those of the request, but for `starthash`. -/
def midway (lopt : LOpts) (starthash asked : Nat) (out : List ListReply) : ListSt :=
  ⟨{ lopt with starthash }, asked, out⟩

theorem chanLoop_neg (h : ¬ E.shown lopt c = true) :
    E.chanLoop q hashnum (c :: cs) (midway lopt s i out) =
      E.chanLoop q hashnum cs (midway lopt hashnum i out) := by
  have hskip : listSkips E.cptr lopt c = true := by simpa [shown] using h
  rw [chanLoop]
  exact if_pos hskip

theorem chanLoop_pos (h : E.shown lopt c = true) :
    E.chanLoop q hashnum (c :: cs) (midway lopt s i out) =
      if E.exceeds i then some (true, midway lopt hashnum (i + 1) out)
      else (q (midway lopt hashnum (i + 1) (out ++ [rplList E.cptr c]))).bind
        (E.chanLoop q hashnum cs) := by
  have hskip : ¬ listSkips E.cptr lopt c = true := by simpa [shown] using h
  rw [chanLoop]
  exact if_neg hskip

/-- Where a bucket is passed, `starthash` is its number if it has a channel. -/
def startAfter (s hashnum : Nat) (b : List ListChannel) : Nat := if b.isEmpty then s else hashnum

theorem startAfter_self (hashnum : Nat) (b : List ListChannel) :
    startAfter hashnum hashnum b = hashnum := ite_self _

theorem chanLoop_none : ∀ {cs : List ListChannel} {s : Nat},
    (∀ c ∈ cs, ¬ E.shown lopt c = true) →
    E.chanLoop q hashnum cs (midway lopt s i out) =
      some (false, midway lopt (startAfter s hashnum cs) i out)
  | [], _, _ => rfl
  | c :: cs, s, h => by
      rw [chanLoop_neg (h c (List.mem_cons_self ..)),
        chanLoop_none fun c hc => h c (List.mem_cons_of_mem _ hc), startAfter_self]
      rfl

/-- The first channel that is shown is where the loop comes to ask. -/
theorem chanLoop_find : ∀ {b : List ListChannel}, b.find? (E.shown lopt) = some c →
    ∃ cs, E.sentOf lopt b = rplList E.cptr c :: E.sentOf lopt cs ∧
      b.countP (E.shown lopt) = cs.countP (E.shown lopt) + 1 ∧
      ∀ {q : ListSt → Option ListSt} {s i : Nat} {out : List ListReply},
        E.chanLoop q hashnum b (midway lopt s i out) =
          if E.exceeds i then some (true, midway lopt hashnum (i + 1) out)
          else (q (midway lopt hashnum (i + 1) (out ++ [rplList E.cptr c]))).bind
            (E.chanLoop q hashnum cs)
  | [], h => by cases h
  | d :: ds, h => by
      by_cases hd : E.shown lopt d = true
      · rw [List.find?_cons_of_pos hd, Option.some_inj] at h
        rw [← h]
        exact ⟨ds, sentOf_cons_pos hd, List.countP_cons_of_pos hd, chanLoop_pos hd⟩
      · rw [List.find?_cons_of_neg hd] at h
        obtain ⟨cs, hsent, hcount, hloop⟩ := chanLoop_find h
        refine ⟨cs, ?_, ?_, ?_⟩
        · rw [sentOf_cons_neg hd, hsent]
        · rw [List.countP_cons_of_neg hd, hcount]
        · intro q s i out
          rw [chanLoop_neg hd, hloop]

/-- A bucket with a channel that is shown, and what is first there. -/
structure Bucket (E : ListEnv) (lopt : LOpts) (hashnum : Nat) (b : List ListChannel)
    (c : ListChannel) : Prop where
  ne : hashnum ≠ 0
  here : ∃ bs, E.table.bucket.drop hashnum = b :: bs
  find : b.find? (E.shown lopt) = some c

theorem Bucket.mem (h : E.Bucket lopt hashnum b c) : c ∈ E.table.bucket.flatten := by
  obtain ⟨bs, hbs⟩ := h.here
  have hb : b ∈ E.table.bucket.drop hashnum := hbs ▸ List.mem_cons_self ..
  exact List.mem_flatten_of_mem (List.mem_of_mem_drop hb) (List.mem_of_find?_eq_some h.find)

theorem sendQueued_succ (hne : hashnum ≠ 0) :
    E.sendQueued (fuel + 1) (midway lopt hashnum i out) =
      E.runFrom (E.sendQueued fuel) hashnum (E.table.bucket.drop hashnum)
        (midway lopt hashnum i out) := by
  rw [sendQueued]
  exact if_pos hne

theorem sendQueued_zero (h : E.sendQueued fuel st = some st') (hst : st.lopt.starthash = 0) :
    st' = st := by
  cases fuel with
  | zero => cases h
  | succ fuel =>
      rw [sendQueued, if_neg (not_not_intro hst)] at h
      exact (Option.some.inj h).symm

/-- A call that goes on with a bucket and is told to stop changes nothing. -/
theorem sendQueued_stop (h : E.Bucket lopt hashnum b c) (hi : E.exceeds i = true) :
    E.sendQueued (fuel + 1) (midway lopt hashnum i out) =
      some (midway lopt hashnum (i + 1) out) := by
  obtain ⟨bs, hbs⟩ := h.here
  obtain ⟨cs, -, -, hloop⟩ := chanLoop_find h.find
  rw [sendQueued_succ h.ne, hbs, runFrom_cons, hloop, if_pos hi]
  rfl

/-- One that is not told to stop sends the first channel. -/
theorem sendQueued_again (h : E.Bucket lopt hashnum b c) (hi : ¬ E.exceeds i = true)
    (hrun : E.sendQueued fuel (midway lopt hashnum i out) = some st') :
    out ++ [rplList E.cptr c] <+: st'.out := by
  cases fuel with
  | zero => cases hrun
  | succ fuel =>
      obtain ⟨bs, hbs⟩ := h.here
      obtain ⟨cs, -, -, hloop⟩ := chanLoop_find h.find
      rw [sendQueued_succ h.ne, hbs, runFrom_cons, hloop, if_neg hi] at hrun
      obtain ⟨⟨stop, st₁⟩, hchan, hrest⟩ := Option.bind_eq_some_iff.mp hrun
      obtain ⟨st₂, hsend, hcs⟩ := Option.bind_eq_some_iff.mp hchan
      have hle : out ++ [rplList E.cptr c] <+: st₁.out :=
        (sendQueued_grows fuel hsend).trans (chanLoop_grows (sendQueued_grows fuel) hcs)
      dsimp only at hrest
      split at hrest
      · cases hrest
        exact hle
      · exact hle.trans (runFrom_grows (sendQueued_grows fuel) hrest)

/-- So where the first channel is out already, it has to be told to stop. -/
theorem sendQueued_sent (h : E.Bucket lopt hashnum b c) (hsent : rplList E.cptr c ∈ out)
    (hrun : E.sendQueued fuel (midway lopt hashnum i out) = some st') (hclean : E.Clean st'.out) :
    E.exceeds i = true ∧ st' = midway lopt hashnum (i + 1) out := by
  by_cases hi : E.exceeds i = true
  · cases fuel with
    | zero => cases hrun
    | succ fuel =>
        rw [sendQueued_stop h hi] at hrun
        exact ⟨hi, (Option.some.inj hrun).symm⟩
  · exact absurd (sendQueued_again h hi hrun) (hclean.not_again h.mem hsent)

/-- From the answer `i` on, `k` times no and then yes. -/
def Passes (E : ListEnv) (i k : Nat) : Prop :=
  ∀ m < k, E.exceeds (i + 2 * m) = false ∧ E.exceeds (i + 2 * m + 1) = true

theorem passes_succ {k : Nat} : E.Passes i (k + 1) ↔
    E.exceeds i = false ∧ E.exceeds (i + 1) = true ∧ E.Passes (i + 2) k := by
  constructor
  · intro h
    refine ⟨(h 0 (Nat.succ_pos k)).1, (h 0 (Nat.succ_pos k)).2, fun m hm => ?_⟩
    have heq : i + 2 + 2 * m = i + 2 * (m + 1) := by omega
    rw [heq]
    exact h (m + 1) (Nat.succ_lt_succ hm)
  · rintro ⟨hno, hyes, hrest⟩ m hm
    cases m with
    | zero => exact ⟨hno, hyes⟩
    | succ m =>
        have heq : i + 2 * (m + 1) = i + 2 + 2 * m := by omega
        rw [heq]
        exact hrest m (Nat.lt_of_succ_lt_succ hm)

/-- The rest of a bucket, with answers that pass it. -/
theorem chanLoop_passes (h : E.Bucket lopt hashnum b c) :
    ∀ {cs : List ListChannel} {s i : Nat} {out : List ListReply},
      E.Passes i (cs.countP (E.shown lopt)) →
      E.chanLoop (E.sendQueued (fuel + 1)) hashnum cs (midway lopt s i out) =
        some (false, midway lopt (startAfter s hashnum cs) (i + 2 * cs.countP (E.shown lopt))
          (out ++ E.sentOf lopt cs))
  | [], s, i, out, _ => by
      rw [sentOf_nil, List.append_nil]
      rfl
  | d :: ds, s, i, out, hpass => by
      have hstart : startAfter s hashnum (d :: ds) = startAfter hashnum hashnum ds :=
        (startAfter_self ..).symm
      rw [hstart]
      by_cases hd : E.shown lopt d = true
      · rw [List.countP_cons_of_pos hd] at hpass ⊢
        obtain ⟨hno, hyes, hrest⟩ := passes_succ.mp hpass
        rw [chanLoop_pos hd, if_neg (Bool.eq_false_iff.mp hno), sendQueued_stop h hyes]
        have hnext := @chanLoop_passes h ds hashnum (i + 2) (out ++ [rplList E.cptr d]) hrest
        have hasked : i + 2 + 2 * ds.countP (E.shown lopt) =
            i + 2 * (ds.countP (E.shown lopt) + 1) := by omega
        rw [hasked, List.append_assoc, List.singleton_append, ← sentOf_cons_pos hd] at hnext
        exact hnext
      · rw [List.countP_cons_of_neg hd] at hpass ⊢
        rw [chanLoop_neg hd, sentOf_cons_neg hd, chanLoop_passes h hpass]

/-- The rest of a bucket whose first channel is out: the answers pass it, or the
loop stops in it. -/
theorem chanLoop_sent (h : E.Bucket lopt hashnum b c) :
    ∀ {cs : List ListChannel} {i : Nat} {out : List ListReply}, rplList E.cptr c ∈ out →
      E.chanLoop (E.sendQueued fuel) hashnum cs (midway lopt hashnum i out) = some (stop, st') →
      E.Clean st'.out →
      (stop = true ∧ ∃ i' out', st' = midway lopt hashnum i' out' ∧ rplList E.cptr c ∈ out') ∨
      (stop = false ∧ E.Passes i (cs.countP (E.shown lopt)) ∧
        st' = midway lopt hashnum (i + 2 * cs.countP (E.shown lopt)) (out ++ E.sentOf lopt cs))
  | [], i, out, _, hrun, _ => by
      cases hrun
      rw [sentOf_nil, List.append_nil]
      exact .inr ⟨rfl, fun _ hm => absurd hm (Nat.not_lt_zero _), rfl⟩
  | d :: ds, i, out, hsent, hrun, hclean => by
      by_cases hd : E.shown lopt d = true
      · rw [chanLoop_pos hd] at hrun
        split at hrun
        · cases hrun
          exact .inl ⟨rfl, _, _, rfl, hsent⟩
        · next hno =>
            obtain ⟨st₁, hsend, hrest⟩ := Option.bind_eq_some_iff.mp hrun
            have hsent' := List.mem_append_left [rplList E.cptr d] hsent
            have hle := chanLoop_grows (sendQueued_grows fuel) hrest
            obtain ⟨hyes, rfl⟩ := sendQueued_sent h hsent' hsend (hclean.of_prefix hle)
            rcases chanLoop_sent h hsent' hrest hclean with hstop | ⟨hstop, hpass, heq⟩
            · exact .inl hstop
            · refine .inr ⟨hstop, ?_, ?_⟩
              · rw [List.countP_cons_of_pos hd]
                exact passes_succ.mpr ⟨Bool.eq_false_iff.mpr hno, hyes, hpass⟩
              · rw [heq, List.countP_cons_of_pos hd, sentOf_cons_pos hd, List.append_assoc,
                  List.singleton_append]
                congr 1
                omega
      · rw [chanLoop_neg hd] at hrun
        rw [List.countP_cons_of_neg hd, sentOf_cons_neg hd]
        exact chanLoop_sent h hsent hrun hclean

/-- A list that stands still: the first channel of its bucket is out. -/
def Stuck (E : ListEnv) (lopt : LOpts) (st : ListSt) : Prop :=
  ∃ hashnum i out b c, E.Bucket lopt hashnum b c ∧ rplList E.cptr c ∈ out ∧
    st = midway lopt hashnum i out

/-- A whole bucket: the loop stops before the first line, or stops later and
stands still, or the answers pass the bucket. -/
theorem chanLoop_bucket (hne : hashnum ≠ 0) (hbs : E.table.bucket.drop hashnum = b :: bs)
    (hrun : E.chanLoop (E.sendQueued fuel) hashnum b (midway lopt s i out) = some (stop, st'))
    (hclean : E.Clean st'.out) :
    (stop = true ∧ b.countP (E.shown lopt) ≠ 0 ∧ E.exceeds i = true ∧
        st' = midway lopt hashnum (i + 1) out) ∨
      (stop = true ∧ E.Stuck lopt st') ∨
      (stop = false ∧ E.Passes i (b.countP (E.shown lopt)) ∧
        st' = midway lopt (startAfter s hashnum b) (i + 2 * b.countP (E.shown lopt))
          (out ++ E.sentOf lopt b)) := by
  cases hfind : b.find? (E.shown lopt) with
  | none =>
      rw [List.find?_eq_none] at hfind
      rw [chanLoop_none hfind] at hrun
      cases hrun
      rw [List.countP_eq_zero.mpr hfind, sentOf_eq_nil hfind, List.append_nil]
      exact .inr (.inr ⟨rfl, fun _ hm => absurd hm (Nat.not_lt_zero _), rfl⟩)
  | some c =>
      have h : E.Bucket lopt hashnum b c := ⟨hne, ⟨bs, hbs⟩, hfind⟩
      obtain ⟨cs, hout, hcount, hloop⟩ := chanLoop_find hfind
      have hstart : startAfter s hashnum b = hashnum := by
        rw [startAfter, if_neg]
        rintro hnil
        rw [List.isEmpty_iff.mp hnil] at hfind
        cases hfind
      rw [hloop] at hrun
      rw [hcount, hout, hstart]
      split at hrun
      · next hyes =>
          cases hrun
          exact .inl ⟨rfl, Nat.succ_ne_zero _, hyes, rfl⟩
      · next hno =>
          obtain ⟨st₁, hsend, hrest⟩ := Option.bind_eq_some_iff.mp hrun
          have hsent : rplList E.cptr c ∈ out ++ [rplList E.cptr c] :=
            List.mem_append_right _ (List.mem_singleton_self _)
          have hle := chanLoop_grows (sendQueued_grows fuel) hrest
          obtain ⟨hyes, rfl⟩ := sendQueued_sent h hsent hsend (hclean.of_prefix hle)
          rcases chanLoop_sent h hsent hrest hclean with
            ⟨hstop, i', out', heq, hin⟩ | ⟨hstop, hpass, heq⟩
          · exact .inr (.inl ⟨hstop, _, _, _, _, _, h, hin, heq⟩)
          · refine .inr (.inr ⟨hstop, ?_, ?_⟩)
            · exact passes_succ.mpr ⟨Bool.eq_false_iff.mpr hno, hyes, hpass⟩
            · rw [heq, List.append_assoc, List.singleton_append]
              congr 1
              omega

/-- The first bucket: nothing is sent again while `starthash` is 0. -/
theorem chanLoop_first : ∀ {cs : List ListChannel} {i : Nat} {out : List ListReply},
    E.chanLoop (E.sendQueued fuel) 0 cs (midway lopt 0 i out) = some (stop, st') →
    (stop = true ∧ st'.lopt.starthash = 0 ∧ (ListReply.listEnd ∉ out → .listEnd ∉ st'.out)) ∨
    (stop = false ∧ (∀ m < cs.countP (E.shown lopt), E.exceeds (i + m) = false) ∧
      st' = midway lopt 0 (i + cs.countP (E.shown lopt)) (out ++ E.sentOf lopt cs))
  | [], i, out, hrun => by
      cases hrun
      rw [sentOf_nil, List.append_nil]
      exact .inr ⟨rfl, fun _ hm => absurd hm (Nat.not_lt_zero _), rfl⟩
  | d :: ds, i, out, hrun => by
      by_cases hd : E.shown lopt d = true
      · rw [chanLoop_pos hd] at hrun
        split at hrun
        · cases hrun
          exact .inl ⟨rfl, rfl, id⟩
        · next hno =>
            obtain ⟨st₁, hsend, hrest⟩ := Option.bind_eq_some_iff.mp hrun
            rw [sendQueued_zero hsend rfl] at hrest
            rcases chanLoop_first hrest with ⟨hstop, hzero, hend⟩ | ⟨hstop, hpass, heq⟩
            · refine .inl ⟨hstop, hzero, fun hout => hend fun hm => ?_⟩
              rcases List.mem_append.mp hm with hm | hm
              · exact hout hm
              · cases List.mem_singleton.mp hm
            · rw [List.countP_cons_of_pos hd, sentOf_cons_pos hd]
              refine .inr ⟨hstop, fun m hm => ?_, ?_⟩
              · cases m with
                | zero => exact Bool.eq_false_iff.mpr hno
                | succ m =>
                    have hm := hpass m (Nat.lt_of_succ_lt_succ hm)
                    rw [Nat.add_assoc, Nat.add_comm 1] at hm
                    exact hm
              · rw [heq, List.append_assoc, List.singleton_append]
                congr 1
                omega
      · rw [chanLoop_neg hd] at hrun
        rw [List.countP_cons_of_neg hd, sentOf_cons_neg hd]
        exact chanLoop_first hrun

theorem chanLoop_first_passes : ∀ {cs : List ListChannel} {i : Nat} {out : List ListReply},
    (∀ m < cs.countP (E.shown lopt), E.exceeds (i + m) = false) →
    E.chanLoop (E.sendQueued (fuel + 1)) 0 cs (midway lopt 0 i out) =
      some (false, midway lopt 0 (i + cs.countP (E.shown lopt)) (out ++ E.sentOf lopt cs))
  | [], i, out, _ => by
      rw [sentOf_nil, List.append_nil]
      rfl
  | d :: ds, i, out, hpass => by
      by_cases hd : E.shown lopt d = true
      · rw [List.countP_cons_of_pos hd] at hpass ⊢
        have hrest : ∀ m < ds.countP (E.shown lopt), E.exceeds (i + 1 + m) = false := by
          intro m hm
          rw [Nat.add_assoc, Nat.add_comm 1]
          exact hpass (m + 1) (Nat.succ_lt_succ hm)
        have hnext := @chanLoop_first_passes ds (i + 1) (out ++ [rplList E.cptr d]) hrest
        rw [List.append_assoc, List.singleton_append, ← sentOf_cons_pos hd, Nat.add_assoc,
          Nat.add_comm 1] at hnext
        have hno : E.exceeds i = false := hpass 0 (Nat.succ_pos _)
        rw [chanLoop_pos hd, if_neg (Bool.eq_false_iff.mp hno)]
        exact hnext
      · rw [List.countP_cons_of_neg hd] at hpass ⊢
        rw [chanLoop_neg hd, sentOf_cons_neg hd, chanLoop_first_passes hpass]

end ListEnv

end TrIrcd
