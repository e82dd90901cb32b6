import TrIrcd.Proofs.ChannelNames
import TrIrcd.Proofs.Membership
import TrIrcd.Src.Channel

/-!
# What a refused join leaves behind

`privileged_join` gets the channel before it asks whether the client may join
it. A channel that was there is left as it was; a channel that `create_channel`
has just made for the join stays when `can_join` refuses, in the list, in the
table and in the count, and nobody is on it. `sub1_from_channel` is what frees
channels, and it is called when a member leaves.

So for a local client below its limit the join is clean just when the channel
was there, at the end of a link or under its own name, or `can_join` lets the
client in (`privilegedJoin_clean_iff`). A pointer to a channel that was freed,
left in the client's own list, would count as membership of a new channel at
the same address; in states where the two sides of membership agree there is
none (`Joined.live`).
-/

namespace TrIrcd

open Function (update)
open TrIrcd.Lib ChanSt

/-! ## The channel that is joined -/

/-- The name of the channel that `create_channel` ends at: that of a link is
followed. -/
def arrivalName (E : ChanEnv) (cptr : Creator) (name : List UInt8) (s : ChanSt) : List UInt8 :=
  match s.find E (storedName cptr name) with
  | some ch => if (s.chan ch).isLinked then storedName cptr (s.chan ch).link else storedName cptr name
  | none => storedName cptr name

/-- The channel under this name, or the one that is made. -/
def arrival (E : ChanEnv) (cptr : Creator) (name : List UInt8) (s : ChanSt) : Nat :=
  (s.find E (arrivalName E cptr name s)).getD (newChannel E (arrivalName E cptr name s) s).1

section Create

variable {E : ChanEnv} {cptr : Creator} {name : List UInt8} {s : ChanSt}

/-- Without a name there is no channel. -/
theorem createChannel_unnamed
    (h : cstr name = [] ∨ cstr (arrivalName E cptr name s) = []) :
    ∃ new, createChannel E cptr name true s = .ok ⟨none, new, s⟩ := by
  by_cases hnil : cstr name = []
  · exact ⟨none, createChannelBody_unnamed _ hnil⟩
  · have harr := h.resolve_left hnil
    rw [arrivalName] at harr
    split at harr
    · next ch hfind =>
        split at harr
        · next hlinked =>
            have hlink : cstr (s.chan ch).link = [] := by
              by_contra hne
              exact storedName_ne_nil hne harr
            refine ⟨some false, ?_⟩
            rw [createChannel, if_pos rfl, createChannelBody_linked hnil hfind hlinked,
              createChannelBody_unnamed _ hlink]
            rfl
        · exact absurd harr (storedName_ne_nil hnil)
    · exact absurd harr (storedName_ne_nil hnil)

/-- A channel that is there is answered. -/
theorem createChannel_there (hne : cstr name ≠ [])
    (harr : cstr (arrivalName E cptr name s) ≠ []) {ch : Nat}
    (hfind : s.find E (arrivalName E cptr name s) = some ch) :
    createChannel E cptr name true s = .ok ⟨some ch, some false, s⟩ := by
  rw [createChannel, if_pos rfl]
  rw [arrivalName] at harr hfind
  cases hfirst : s.find E (storedName cptr name) with
  | none =>
      rw [hfirst] at hfind
      dsimp only at hfind
      rw [hfirst] at hfind
      cases hfind
  | some ch' =>
      rw [hfirst] at harr hfind
      dsimp only at harr hfind
      split at hfind
      · next hlinked =>
          rw [if_pos hlinked] at harr
          have hlink : cstr (s.chan ch').link ≠ [] := fun h => harr (by rw [storedName_eq_nil h]; rfl)
          rw [createChannelBody_linked hne hfirst hlinked,
            createChannelBody_found hlink hfind (.inl rfl)]
          rfl
      · next hlinked =>
          rw [hfirst] at hfind
          cases hfind
          exact createChannelBody_found hne hfirst (.inr (Bool.eq_false_iff.mpr hlinked))

/-- One that is not there is made. -/
theorem createChannel_made (hmy : cptr.myClient = true) (hne : cstr name ≠ [])
    (harr : cstr (arrivalName E cptr name s) ≠ [])
    (hfind : s.find E (arrivalName E cptr name s) = none) :
    createChannel E cptr name true s =
      .ok ⟨some (newChannel E (arrivalName E cptr name s) s).1, some true,
        (newChannel E (arrivalName E cptr name s) s).2⟩ := by
  rw [createChannel, if_pos rfl]
  cases hfirst : s.find E (storedName cptr name) with
  | none =>
      have harrival : arrivalName E cptr name s = storedName cptr name := by
        rw [arrivalName, hfirst]
      rw [harrival]
      exact createChannelBody_missed hne hfirst (storedName_length hmy)
  | some ch' =>
      by_cases hlinked : (s.chan ch').isLinked = true
      · have harrival : arrivalName E cptr name s = storedName cptr (s.chan ch').link := by
          rw [arrivalName, hfirst]
          exact if_pos hlinked
        rw [harrival] at harr hfind ⊢
        have hlink : cstr (s.chan ch').link ≠ [] := fun h => harr (by rw [storedName_eq_nil h]; rfl)
        rw [createChannelBody_linked hne hfirst hlinked,
          createChannelBody_missed hlink hfind (storedName_length hmy)]
        rfl
      · have harrival : arrivalName E cptr name s = storedName cptr name := by
          rw [arrivalName, hfirst]
          exact if_neg hlinked
        rw [harrival, hfirst] at hfind
        cases hfind

end Create

/-! ## Joining -/

/-- The channels, the table and the count are as before. -/
structure SameChannels (s s' : ChanSt) : Prop where
  channels : s'.channels = s.channels
  table : s'.channelTable = s.channelTable
  count : s'.countChan = s.countChan

/-- Somebody is on every channel. -/
def Peopled (s : ChanSt) : Prop := ∀ ch ∈ s.channels, s.membersOf ch ≠ []

/-- A join goes through, or changes nothing. -/
structure JoinedOrSame (sptr chptr : Nat) (s s' : ChanSt) : Prop where
  outcome : sptr ∈ s'.membersOf chptr ∨ SameChannels s s'
  peopled : Peopled s → Peopled s'

theorem JoinedOrSame.refl (sptr chptr : Nat) (s : ChanSt) : JoinedOrSame sptr chptr s s :=
  ⟨.inr ⟨rfl, rfl, rfl⟩, id⟩

section Join

variable {E : JoinEnv} {sptr chptr flags : Nat} {name : List UInt8} {s : ChanSt}

theorem joinChannel_channels (hu : E.chan.user sptr = true) :
    (joinChannel E sptr chptr flags s).channels = s.channels := by
  rw [joinChannel, addUserToChannel, if_pos hu]
  split <;> split <;> rfl

theorem joinChannel_membersOf (hS : Shape E.chan s) (hu : E.chan.user sptr = true) (ch : Nat) :
    (joinChannel E sptr chptr flags s).membersOf ch =
      if ch = chptr then sptr :: s.membersOf ch else s.membersOf ch := by
  have hS' : Shape E.chan (addUserToChannel E.chan chptr sptr flags s).2 :=
    addUserToChannel_shape chptr flags hS
  have hadd : (addUserToChannel E.chan chptr sptr flags s).2.lists (.members ch) =
      if ch = chptr then .member ⟨sptr, flags, 0⟩ :: s.lists (.members ch)
      else s.lists (.members ch) := by
    rw [addUserToChannel_lists chptr flags hS hu, Function.update_of_ne (by simp)]
    split
    · next he => rw [he, Function.update_self]
    · next he => rw [Function.update_of_ne (by simp [he])]
  have hlists : (joinChannel E sptr chptr flags s).lists (.members ch) =
      (addUserToChannel E.chan chptr sptr flags s).2.lists (.members ch) := by
    rw [joinChannel]
    split
    · have hroster : (ListId.members ch).IsRoster := trivial
      have hinv := (delInvite_contents hS'.contents sptr chptr).data (.members ch)
      rw [hroster.kept] at hinv
      split <;> exact hinv
    · split <;> rfl
  rw [membersOf, hlists, hadd, membersOf]
  split <;> rfl

theorem joinChannel_peopled (hS : Shape E.chan s) (hu : E.chan.user sptr = true)
    (h : ∀ ch ∈ s.channels, ch ≠ chptr → s.membersOf ch ≠ []) :
    Peopled (joinChannel E sptr chptr flags s) := by
  intro ch hch
  rw [joinChannel_channels hu] at hch
  rw [joinChannel_membersOf hS hu]
  split
  · exact List.cons_ne_nil _ _
  · next hne => exact h ch hch hne

/-- The client is on the channel now. -/
theorem joinChannel_joined (hS : Shape E.chan s) (hu : E.chan.user sptr = true) :
    sptr ∈ (joinChannel E sptr chptr flags s).membersOf chptr := by
  rw [joinChannel_membersOf hS hu, if_pos rfl]
  exact List.mem_cons_self

theorem newChannel_membersOf (hS : Shape E.chan s) (ch : Nat) :
    (newChannel E.chan name s).2.membersOf ch =
      if ch = (newChannel E.chan name s).1 then [] else s.membersOf ch := by
  rw [membersOf, newChannel_members hS, membersOf]
  split <;> rfl

theorem isMember_iff (hS : Shape E.chan s) (hu : E.chan.user sptr = true) :
    isMember E.chan sptr chptr s = true ↔ .channel chptr ∈ s.lists (.channel sptr) := by
  rw [isMember, hu, Bool.true_and, Option.isSome_iff_ne_none, ne_eq,
    hS.contents.find_eq_none, not_not]

/-- A channel that was there is no problem. -/
theorem privilegedJoin_there (hS : Shape E.chan s) (hu : E.chan.user sptr = true)
    (hroom : tooManyChannels E sptr s = false) {ch : Nat}
    (hcreate : createChannel E.chan (E.client sptr).toCreator name true s =
      .ok ⟨some ch, some false, s⟩) :
    Answers (fun r => JoinedOrSame sptr ch s r.st) (fun _ => False)
      (privilegedJoin E sptr name s) := by
  rw [privilegedJoin, hroom, if_neg Bool.false_ne_true, hcreate]
  dsimp only
  split
  · exact .refl sptr ch s
  · split
    · exact .refl sptr ch s
    · exact ⟨.inl (joinChannel_joined hS hu),
        fun hp => joinChannel_peopled hS hu fun c hc _ => hp c hc⟩

/-- A new channel has to be joined. -/
theorem privilegedJoin_made (hS : Shape E.chan s) (hmy : (E.client sptr).toCreator.myClient = true)
    (hu : E.chan.user sptr = true) (hroom : tooManyChannels E sptr s = false)
    {arrived : List UInt8}
    (hcreate : createChannel E.chan (E.client sptr).toCreator name true s =
      .ok ⟨some (newChannel E.chan arrived s).1, some true, (newChannel E.chan arrived s).2⟩) :
    Answers (fun r => JoinedOrSame sptr (newChannel E.chan arrived s).1 s r.st) (fun _ => False)
        (privilegedJoin E sptr name s) ↔
      E.canJoin sptr (newChannel E.chan arrived s).1 (newChannel E.chan arrived s).2 = 0 ∧
        .channel (newChannel E.chan arrived s).1 ∉ s.lists (.channel sptr) := by
  have hS' := newChannel_shape arrived hS
  have hmember : isMember E.chan sptr (newChannel E.chan arrived s).1
      (newChannel E.chan arrived s).2 = true ↔ _ := isMember_iff hS' hu
  rw [newChannel_channel hS] at hmember
  -- The new channel is in the list, and nobody is on it.
  have hleft : ¬ JoinedOrSame sptr (newChannel E.chan arrived s).1 s (newChannel E.chan arrived s).2 := by
    intro h
    rcases h.outcome with hin | hsame
    · rw [newChannel_membersOf hS, if_pos rfl] at hin
      cases hin
    · have hchannels := hsame.channels
      rw [hS'.channels, hS.channels, newChannel_blocks] at hchannels
      exact List.cons_ne_self _ _ hchannels
  have hfd : 0 ≤ (E.client sptr).fd := by
    rw [Creator.myClient, Bool.and_eq_true] at hmy
    exact of_decide_eq_true hmy.1
  rw [privilegedJoin, hroom, if_neg Bool.false_ne_true, hcreate]
  dsimp only
  split
  · next hrefused => exact iff_of_false hleft fun h => hrefused.2 h.1
  · next hlet =>
      have hzero : E.canJoin sptr (newChannel E.chan arrived s).1 (newChannel E.chan arrived s).2 = 0 :=
        not_not.mp fun h => hlet ⟨hfd, h⟩
      split
      · next hin => exact iff_of_false hleft fun h => h.2 (hmember.mp hin)
      · next hout =>
          refine iff_of_true ⟨.inl (joinChannel_joined hS' hu), fun hp => ?_⟩
            ⟨hzero, fun h => hout (hmember.mpr h)⟩
          refine joinChannel_peopled hS' hu fun c hc hne => ?_
          rw [hS'.channels, newChannel_blocks] at hc
          rw [newChannel_membersOf hS, if_neg hne]
          refine hp c ?_
          rw [hS.channels]
          exact (List.mem_cons.mp hc).resolve_left hne

/-- The channel is there, or the client is let in and nothing of an older channel is in
the way. -/
structure JoinFits (E : JoinEnv) (sptr : Nat) (name : List UInt8) (s : ChanSt) : Prop where
  named : cstr name ≠ []
  arrival_named : cstr (arrivalName E.chan (E.client sptr).toCreator name s) ≠ []
  fits : s.find E.chan (arrivalName E.chan (E.client sptr).toCreator name s) ≠ none ∨
    E.canJoin sptr
        (newChannel E.chan (arrivalName E.chan (E.client sptr).toCreator name s) s).1
        (newChannel E.chan (arrivalName E.chan (E.client sptr).toCreator name s) s).2 = 0 ∧
      .channel (newChannel E.chan (arrivalName E.chan (E.client sptr).toCreator name s) s).1 ∉
        s.lists (.channel sptr)

/-- A join of a local client below its limit goes through or changes nothing just when
it fits. -/
theorem privilegedJoin_clean_iff (E : JoinEnv) {ops : List ChanOp} {s : ChanSt}
    (hrun : run (ChanSt.step E.chan) ChanSt.init ops = .ok s) {sptr : Nat}
    (hmy : (E.client sptr).toCreator.myClient = true) (hu : E.chan.user sptr = true)
    (hroom : tooManyChannels E sptr s = false) (name : List UInt8) :
    Answers
        (fun r => JoinedOrSame sptr (arrival E.chan (E.client sptr).toCreator name s) s r.st)
        (fun _ => False) (privilegedJoin E sptr name s) ↔
      JoinFits E sptr name s := by
  have hS : Shape E.chan s := run_invariant step_shape ops (init_shape E.chan) hrun
  by_cases hnames : cstr name = [] ∨ cstr (arrivalName E.chan (E.client sptr).toCreator name s) = []
  · obtain ⟨new, hcreate⟩ := createChannel_unnamed (E := E.chan) hnames
    refine iff_of_false (fun h => ?_) fun h => hnames.elim h.named h.arrival_named
    rw [privilegedJoin, hroom, if_neg Bool.false_ne_true, hcreate] at h
    exact h
  · rw [not_or] at hnames
    cases hfind : s.find E.chan (arrivalName E.chan (E.client sptr).toCreator name s) with
    | some ch =>
        have hcreate := createChannel_there hnames.1 hnames.2 hfind
        have harrival : arrival E.chan (E.client sptr).toCreator name s = ch := by
          rw [arrival, hfind, Option.getD_some]
        rw [harrival]
        exact iff_of_true (privilegedJoin_there hS hu hroom hcreate)
          ⟨hnames.1, hnames.2, .inl (by rw [hfind]; simp)⟩
    | none =>
        have hcreate := createChannel_made hmy hnames.1 hnames.2 hfind
        have harrival : arrival E.chan (E.client sptr).toCreator name s =
            (newChannel E.chan (arrivalName E.chan (E.client sptr).toCreator name s) s).1 := by
          rw [arrival, hfind, Option.getD_none]
        rw [harrival, privilegedJoin_made hS hmy hu hroom hcreate]
        refine ⟨fun h => ⟨hnames.1, hnames.2, .inr h⟩, fun h => ?_⟩
        exact h.fits.resolve_left fun hne => hne hfind

end Join

/-! ## Witnesses -/

/-- One local user, and what `can_join` answers it. -/
def joinEnv (answer : Int) : JoinEnv where
  chan := ⟨0, Allocator.bump, fun _ => true⟩
  client _ := ⟨⟨3, statClient⟩, false⟩
  maxChannelsPerUser := 10
  extendedTopic := true
  canJoin _ _ _ := answer

/-- The user 5 makes `#a` and is on it. -/
theorem privilegedJoin_clean_made :
    Answers (fun r => JoinedOrSame 5 1 ChanSt.init r.st) (fun _ => False)
      (privilegedJoin (joinEnv 0) 5 [0x23, 0x61] ChanSt.init) := by
  have hlists : ChanSt.init.lists (.channel 5) = [] := (Contents.empty Ptr.null).data _
  refine (@privilegedJoin_clean_iff (joinEnv 0) [] ChanSt.init rfl 5 rfl rfl rfl
    [0x23, 0x61]).mpr ⟨by decide, by decide, .inr ⟨rfl, ?_⟩⟩
  rw [hlists]
  exact List.not_mem_nil

/-- Refused, it leaves `#a` with nobody on it. -/
theorem privilegedJoin_leaves :
    ¬ ∀ (E : JoinEnv) (ops : List ChanOp) (s : ChanSt) (sptr : Nat) (name : List UInt8),
      run (ChanSt.step E.chan) ChanSt.init ops = .ok s →
      (E.client sptr).toCreator.myClient = true → E.chan.user sptr = true →
      tooManyChannels E sptr s = false →
      Answers
        (fun r => JoinedOrSame sptr (arrival E.chan (E.client sptr).toCreator name s) s r.st)
        (fun _ => False) (privilegedJoin E sptr name s) := by
  intro h
  have houtcome := (h (joinEnv 473) [] ChanSt.init 5 [0x23, 0x61] rfl rfl rfl rfl).outcome
  rcases houtcome with hin | hsame
  · revert hin
    decide
  · have hcount := hsame.count
    revert hcount
    decide

end TrIrcd
