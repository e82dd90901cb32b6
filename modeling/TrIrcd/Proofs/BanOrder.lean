import TrIrcd.Src.Bans

/-!
# What a new ban does

A longer ban list bans more clients. But a banned client that an exception
covers is let through at once by `can_join` and `can_send`, and what comes
behind the ban list is skipped: the channels it must not be on, the channel
modes and, for a client outside, the list of those that may not speak. So a
ban that meets such a client for the first time (`NewlyExempt`) can only help
it, and it does exactly when something behind the ban list refuses the client.
-/

namespace TrIrcd

open TrIrcd.Lib

variable {cptr : BanClient} {chptr : BanChannel} {bans list list' : NuhList} {E : BanEnv}

/-! ## Looking up -/

theorem checkString_cutSpace (s : List UInt8) : checkString (cutSpace s) = checkString s := by
  rw [checkString, checkString, cutSpace, cutSpace, List.takeWhile_takeWhile]
  simp only [and_self, Bool.decide_eq_true]

theorem makeNickUserHost_cutSpace (nick name host : List UInt8) :
    makeNickUserHost (cutSpace nick) (cutSpace name) (cutSpace host) =
      makeNickUserHost nick name host := by
  simp only [makeNickUserHost, checkString_cutSpace]

/-- The texts of a client do not change when its strings are cut. -/
theorem isNuhed_cut (cptr : BanClient) (list : NuhList) :
    isNuhed cptr.cut list = isNuhed cptr list := by
  rw [BanClient.cut]
  cases huser : cptr.user with
  | none => rfl
  | some user =>
      by_cases hp : cptr.isPerson
      · have hp' : ∀ (name hostip : List UInt8) (user : BanUser),
            ({ cptr with name := name, hostip := hostip, user := some user } :
              BanClient).isPerson = true := by
          intro name hostip user'
          rw [BanClient.isPerson, huser] at hp
          exact hp
        simp only [hp, hp', isNuhed, huser, not_true_eq_false, if_false,
          makeNickUserHost_cutSpace]
      · show isNuhed (if ¬ cptr.isPerson then cptr else _) list = _
        rw [if_pos hp]

theorem nuhedLoop_isSome {s s2 fakeuhost : List UInt8} :
    (nuhedLoop s s2 fakeuhost list).isSome ↔
      ∃ tmp, some tmp ∈ list ∧ ∃ nuhstr, tmp.nuhstr = some nuhstr ∧
        (ircMatch nuhstr s = 0 ∨ ircMatch nuhstr s2 = 0 ∨ ircMatch nuhstr fakeuhost = 0) := by
  induction list with
  | nil => simp [nuhedLoop]
  | cons tmp list ih =>
      cases tmp with
      | none => simp [nuhedLoop, ih]
      | some tmp =>
          cases hn : tmp.nuhstr with
          | none => simp [nuhedLoop, hn, ih]
          | some nuhstr =>
              simp only [nuhedLoop, hn]
              split
              · next hhit =>
                  simp only [Option.isSome_some, true_iff]
                  exact ⟨tmp, List.mem_cons_self .., nuhstr, hn, hhit⟩
              · next hmiss =>
                  rw [ih]
                  constructor
                  · rintro ⟨t, ht, hit⟩
                    exact ⟨t, List.mem_cons_of_mem _ ht, hit⟩
                  · rintro ⟨t, ht, w, hw, hit⟩
                    rcases List.mem_cons.mp ht with heq | ht
                    · cases heq
                      rw [hn] at hw
                      cases hw
                      exact absurd hit hmiss
                    · exact ⟨t, ht, w, hw, hit⟩

/-- Whom a list holds, a longer one holds. -/
theorem isNuhed_mono (hsub : list ⊆ list') (h : (isNuhed cptr list).isSome) :
    (isNuhed cptr list').isSome := by
  rw [isNuhed] at h ⊢
  cases huser : cptr.user with
  | none =>
      rw [huser] at h
      cases h
  | some user =>
      simp only [huser] at h ⊢
      split
      · next hp =>
          rw [if_pos hp] at h
          cases h
      · next hp =>
          rw [if_neg hp, nuhedLoop_isSome] at h
          obtain ⟨tmp, hmem, hit⟩ := h
          exact nuhedLoop_isSome.mpr ⟨tmp, hsub hmem, hit⟩

/-! ## The order of the checks -/

/-- The hooks do not read the ban list. -/
structure BanEnv.Blind (E : BanEnv) : Prop where
  canJoin : ∀ c ch bans key, E.canJoin c { ch with banlist := bans } key = E.canJoin c ch key
  canSend : ∀ c ch bans msg m,
    E.canSend c { ch with banlist := bans } msg m = E.canSend c ch msg m
  canSendMore : ∀ c ch bans msg,
    E.canSendMore c { ch with banlist := bans } msg = E.canSendMore c ch msg

/-- The client becomes banned, and is an exception. -/
structure NewlyExempt (cptr : BanClient) (chptr : BanChannel) (bans : NuhList) : Prop where
  unbanned : isNuhed cptr chptr.banlist = none
  banned : (isNuhed cptr bans).isSome
  excepted : (isNuhed cptr chptr.banexlist).isSome

/-- The client is let in before the ban list is looked at, or nothing behind
it refuses the client. -/
def BanEnv.JoinFree (E : BanEnv) (sptr : BanClient) (chptr : BanChannel)
    (key : Option (List UInt8)) : Prop :=
  (∃ user, sptr.user = some user ∧ chptr.addr ∈ user.invited) ∨ sptr.uLine ∨ sptr.anOper ∨
    (isNuhed sptr chptr.invitelist).isSome ∨
    (inBadChan E sptr.cut chptr.chanbanlist = false ∧ E.canJoin sptr.cut chptr key = 0)

/-- `can_send` does not get to the lists. -/
def SendDecided (cptr : BanClient) (chptr : BanChannel) : Prop :=
  cptr.isServer ∨ cptr.uLine ∨ chptr.anon ∨ cptr.anOper ∨ cptr.myClient = false

/-- `can_send` decides before the ban list, or nothing behind it refuses the
client. -/
def BanEnv.SendFree (E : BanEnv) (cptr : BanClient) (chptr : BanChannel)
    (msg : Option (List UInt8)) : Prop :=
  SendDecided cptr chptr ∨
    (chptr.findUserMember cptr = false ∧
      (E.canSend cptr chptr msg false ≠ 0 ∨ isNuhed cptr chptr.stoplist = none)) ∨
    (chptr.findUserMember cptr = true ∧
      (chptr.getFlags cptr ≠ 0 ∨ E.canSend cptr chptr msg true ≠ 0 ∨ chptr.getBans cptr ≠ 0 ∨
        (isNuhed cptr chptr.stoplist).isSome ∨ chptr.hidePartQuit ∨
        ∀ text, msg = some text → E.canSendMore cptr.cut chptr text = 0))

/-- A ban list with exceptions, and what comes behind it: a refusal is lost
when a ban comes in, and an exception with it, if it came from behind. -/
theorem cascade_iff {b b' e : Bool} {err rest : Int} (herr : err ≠ 0) (hb : b = true → b' = true) :
    ((if b then if e then 0 else err else rest) ≠ 0 →
        (if b' then if e then 0 else err else rest) ≠ 0) ↔
      (b = false ∧ b' = true ∧ e = true → rest = 0) := by
  cases b with
  | true =>
      rw [hb rfl]
      simp
  | false =>
      cases b' with
      | false => simp
      | true =>
          cases e with
          | true =>
              simp
          | false => simp [herr]

theorem newlyExempt_iff : NewlyExempt cptr chptr bans ↔
    (isNuhed cptr chptr.banlist).isSome = false ∧ (isNuhed cptr bans).isSome = true ∧
      (isNuhed cptr chptr.banexlist).isSome = true := by
  constructor
  · rintro ⟨hu, hb, he⟩
    exact ⟨by rw [hu]; rfl, hb, he⟩
  · rintro ⟨hu, hb, he⟩
    exact ⟨Option.isSome_eq_false_iff.mp hu |> Option.isNone_iff_eq_none.mp, hb, he⟩

theorem canJoin_keeps_iff (hblind : E.Blind) (hsub : chptr.banlist ⊆ bans)
    (key : Option (List UInt8)) :
    (canJoin E cptr chptr key ≠ 0 → canJoin E cptr { chptr with banlist := bans } key ≠ 0) ↔
      (NewlyExempt cptr chptr bans → E.JoinFree cptr chptr key) := by
  cases huser : cptr.user with
  | none =>
      simp only [canJoin, huser]
      refine iff_of_true (fun h => h) fun h => ?_
      have hb := h.banned
      rw [isNuhed, huser] at hb
      cases hb
  | some user =>
      simp only [canJoin, huser, isNuhed_cut, hblind.canJoin]
      by_cases hfirst : chptr.addr ∈ user.invited ∨ cptr.uLine ∨ cptr.anOper ∨
          (isNuhed cptr chptr.invitelist).isSome
      · rw [if_pos hfirst, if_pos hfirst]
        refine iff_of_true (fun h => h) fun _ => ?_
        rcases hfirst with h | h | h | h
        · exact .inl ⟨user, huser, h⟩
        · exact .inr (.inl h)
        · exact .inr (.inr (.inl h))
        · exact .inr (.inr (.inr (.inl h)))
      · rw [if_neg hfirst, if_neg hfirst,
          cascade_iff (by decide) fun h => isNuhed_mono hsub h, newlyExempt_iff]
        refine imp_congr_right fun _ => ?_
        simp only [not_or] at hfirst
        obtain ⟨hinvited, hu, ho, hi⟩ := hfirst
        have hnone : ¬ ∃ u, cptr.user = some u ∧ chptr.addr ∈ u.invited := by
          rintro ⟨u, hu', hmem⟩
          rw [huser] at hu'
          cases hu'
          exact hinvited hmem
        simp only [BanEnv.JoinFree, hnone, hu, ho, hi, false_or]
        cases inBadChan E cptr.cut chptr.chanbanlist with
        | true => simp [errIsInBadChan]
        | false => simp

theorem canSend_decided (h : SendDecided cptr chptr) (msg : Option (List UInt8)) :
    canSend E cptr { chptr with banlist := bans } msg = canSend E cptr chptr msg := by
  unfold canSend
  rcases h with h | h | h | h | h
  · simp only [h, Bool.true_or, if_true]
  · simp only [h, Bool.or_true, if_true]
  · simp only [h, if_true]
  · simp only [h, if_true]
  · simp only [h, Bool.false_eq_true, not_false_eq_true, if_true]

/-- The way of a client outside the channel. -/
theorem canSend_outside (h : ¬ SendDecided cptr chptr)
    (hm : chptr.findUserMember cptr = false) (msg : Option (List UInt8)) :
    canSend E cptr chptr msg =
      if E.canSend cptr chptr msg false ≠ 0 then E.canSend cptr chptr msg false
      else if (isNuhed cptr chptr.banlist).isSome then
        if (isNuhed cptr chptr.banexlist).isSome then 0 else errBannedInChan
      else if (isNuhed cptr chptr.stoplist).isSome then errCannotSendToChan
      else 0 := by
  simp only [SendDecided, not_or, Bool.not_eq_true, Bool.not_eq_false] at h
  obtain ⟨hs, hu, ha, ho, hmy⟩ := h
  simp only [canSend, hs, hu, ha, ho, hmy, hm, isNuhed_cut, Bool.or_self, Bool.false_eq_true,
    not_true_eq_false, not_false_eq_true, if_true, if_false]

/-- The way of a member. -/
theorem canSend_inside (h : ¬ SendDecided cptr chptr) (hm : chptr.findUserMember cptr)
    (msg : Option (List UInt8)) :
    canSend E cptr chptr msg =
      if chptr.getFlags cptr ≠ 0 then 0
      else if E.canSend cptr chptr msg true ≠ 0 then E.canSend cptr chptr msg true
      else if chptr.getBans cptr ≠ 0 ∨ (isNuhed cptr chptr.banlist).isSome then
        if (isNuhed cptr chptr.banexlist).isSome then 0 else errBannedInChan
      else if (isNuhed cptr chptr.stoplist).isSome then
        if (isNuhed cptr chptr.banexlist).isSome then 0 else errHostModerated
      else if ¬ chptr.hidePartQuit ∧
          msg.any (fun text => decide (E.canSendMore cptr.cut chptr text ≠ 0)) then
        errCannotSendToChan
      else 0 := by
  simp only [SendDecided, not_or, Bool.not_eq_true, Bool.not_eq_false] at h
  obtain ⟨hs, hu, ha, ho, hmy⟩ := h
  by_cases hf : chptr.getFlags cptr = 0
  · have hone : 1 &&& chflSpeakable ≠ 0 := by decide
    cases msg with
    | none =>
        simp only [canSend, hs, hu, ha, ho, hmy, hm, hf, isNuhed_cut, Bool.or_self,
          Bool.false_eq_true, not_true_eq_false, if_true, if_false, hone, ne_eq,
          not_false_eq_true, Option.any_none, and_false]
    | some text =>
        simp only [canSend, hs, hu, ha, ho, hmy, hm, hf, isNuhed_cut, Bool.or_self,
          Bool.false_eq_true, not_true_eq_false, if_true, if_false, hone, ne_eq,
          not_false_eq_true, Option.any_some, decide_eq_true_eq]
  · simp only [canSend, hs, hu, ha, ho, hmy, hm, hf, Bool.or_self, Bool.false_eq_true,
      not_true_eq_false, if_true, if_false, Nat.zero_and, ne_eq, not_false_eq_true]

theorem canSend_keeps_iff (hblind : E.Blind) (hsub : chptr.banlist ⊆ bans)
    (msg : Option (List UInt8)) :
    (canSend E cptr chptr msg ≠ 0 → canSend E cptr { chptr with banlist := bans } msg ≠ 0) ↔
      (NewlyExempt cptr chptr bans → E.SendFree cptr chptr msg) := by
  by_cases hdec : SendDecided cptr chptr
  · rw [@canSend_decided cptr chptr bans E hdec msg]
    exact iff_of_true (fun h => h) fun _ => .inl hdec
  have hdec' : ¬ SendDecided cptr { chptr with banlist := bans } := hdec
  have hmono : (isNuhed cptr chptr.banlist).isSome = true → (isNuhed cptr bans).isSome = true :=
    isNuhed_mono hsub
  rw [BanEnv.SendFree, or_iff_right hdec]
  cases hm : chptr.findUserMember cptr with
  | false =>
      rw [canSend_outside hdec hm, canSend_outside hdec' hm, hblind.canSend _ chptr bans]
      by_cases hh : E.canSend cptr chptr msg false = 0
      · rw [if_neg (not_not.mpr hh), if_neg (not_not.mpr hh), cascade_iff (by decide) hmono,
          newlyExempt_iff]
        refine imp_congr_right fun _ => ?_
        cases isNuhed cptr chptr.stoplist <;> simp [hh, errCannotSendToChan]
      · rw [if_pos hh, if_pos hh]
        exact iff_of_true (fun h => h) fun _ => .inl ⟨rfl, .inl hh⟩
  | true =>
      have hflags : ({ chptr with banlist := bans } : BanChannel).getFlags cptr =
        chptr.getFlags cptr := rfl
      have hbans : ({ chptr with banlist := bans } : BanChannel).getBans cptr =
        chptr.getBans cptr := rfl
      rw [canSend_inside hdec hm, canSend_inside hdec' hm, hblind.canSend _ chptr bans, hflags,
        hbans]
      simp only [hblind.canSendMore _ chptr bans]
      by_cases hf : chptr.getFlags cptr = 0
      · by_cases hh : E.canSend cptr chptr msg true = 0
        · by_cases hb : chptr.getBans cptr = 0
          · simp only [hf, hh, hb, ne_eq, not_true_eq_false, if_false, false_or]
            rw [cascade_iff (by decide) hmono, newlyExempt_iff]
            refine imp_congr_right fun hex => ?_
            -- A member that is an exception is one from the stop list as well.
            rw [hex.2.2]
            cases isNuhed cptr chptr.stoplist with
            | some tmp => simp
            | none =>
                cases msg with
                | none => simp
                | some text => cases chptr.hidePartQuit <;> simp [errCannotSendToChan]
          · simp only [if_pos (Or.inl hb : chptr.getBans cptr ≠ 0 ∨ _)]
            exact iff_of_true (fun h => h) fun _ => .inr ⟨trivial, .inr (.inr (.inl hb))⟩
        · rw [if_neg (not_not.mpr hf), if_neg (not_not.mpr hf), if_pos hh, if_pos hh]
          exact iff_of_true (fun h => h) fun _ => .inr ⟨trivial, .inr (.inl hh)⟩
      · rw [if_pos hf, if_pos hf]
        exact iff_of_true (fun h => h) fun _ => .inr ⟨trivial, .inl hf⟩

/-- A client that is refused is refused with more bans as well, except where
the new bans meet an exception for the first time: then it is exactly when
nothing behind the ban list refuses the client that nothing changes. -/
theorem bans_refuse_iff (hblind : E.Blind) (hsub : chptr.banlist ⊆ bans)
    (key msg : Option (List UInt8)) :
    ((canJoin E cptr chptr key ≠ 0 → canJoin E cptr { chptr with banlist := bans } key ≠ 0) ↔
        (NewlyExempt cptr chptr bans → E.JoinFree cptr chptr key)) ∧
      ((canSend E cptr chptr msg ≠ 0 → canSend E cptr { chptr with banlist := bans } msg ≠ 0) ↔
        (NewlyExempt cptr chptr bans → E.SendFree cptr chptr msg)) :=
  ⟨canJoin_keeps_iff hblind hsub key, canSend_keeps_iff hblind hsub msg⟩

/-- No channel is known, every channel is for the invited only, and anyone may
send. -/
def inviteOnlyEnv : BanEnv where
  findChannel _ := none
  canJoin _ _ _ := 473
  canSend _ _ _ _ := 0
  canSendMore _ _ _ := 0

theorem inviteOnlyEnv_blind : inviteOnlyEnv.Blind where
  canJoin _ _ _ _ := rfl
  canSend _ _ _ _ _ := rfl
  canSendMore _ _ _ _ := rfl

/-- `a!b@c` -/
def guestClient : BanClient where
  addr := 1
  name := [0x61]
  hostip := [0x31]
  status := statClient
  fd := 4
  uLine := false
  anOper := false
  user := some ⟨[0x62], [0x63], [0x63], [], []⟩

/-- A channel with exceptions, on which nobody from outside may speak. -/
def guestChannel (banexlist : NuhList) : BanChannel where
  addr := 2
  anon := false
  hidePartQuit := false
  chname := [0x23, 0x78]
  members := []
  banlist := []
  invitelist := []
  banexlist := banexlist
  stoplist := [some ⟨some [0x2a, 0x21, 0x2a]⟩]
  chanbanlist := []

/-- Without exceptions the ban `a!*` lets nobody in. -/
theorem bans_refuse_guest :
    canJoin inviteOnlyEnv guestClient
        { guestChannel [] with banlist := [some ⟨some [0x61, 0x21, 0x2a]⟩] } none ≠ 0 ∧
      canSend inviteOnlyEnv guestClient
        { guestChannel [] with banlist := [some ⟨some [0x61, 0x21, 0x2a]⟩] } none ≠ 0 := by
  have hnot : ¬ NewlyExempt guestClient (guestChannel [])
      [some ⟨some [0x61, 0x21, 0x2a]⟩] := fun h => by
    have he := h.excepted
    revert he
    decide
  have hiff := @bans_refuse_iff guestClient (guestChannel []) [some ⟨some [0x61, 0x21, 0x2a]⟩]
    inviteOnlyEnv inviteOnlyEnv_blind (List.nil_subset _) none none
  exact ⟨hiff.1.mpr (fun h => absurd h hnot) (by decide),
    hiff.2.mpr (fun h => absurd h hnot) (by decide)⟩

/-- With the exception `*@c` it lets `a!b@c` in, and lets it speak. -/
theorem ban_lets_in :
    canJoin inviteOnlyEnv guestClient (guestChannel [some ⟨some [0x2a, 0x40, 0x63]⟩]) none = 473 ∧
      canJoin inviteOnlyEnv guestClient
        { guestChannel [some ⟨some [0x2a, 0x40, 0x63]⟩] with
          banlist := [some ⟨some [0x61, 0x21, 0x2a]⟩] } none = 0 ∧
      canSend inviteOnlyEnv guestClient (guestChannel [some ⟨some [0x2a, 0x40, 0x63]⟩]) none =
        errCannotSendToChan ∧
      canSend inviteOnlyEnv guestClient
        { guestChannel [some ⟨some [0x2a, 0x40, 0x63]⟩] with
          banlist := [some ⟨some [0x61, 0x21, 0x2a]⟩] } none = 0 := by
  decide

end TrIrcd
