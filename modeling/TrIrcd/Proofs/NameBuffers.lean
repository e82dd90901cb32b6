import TrIrcd.Proofs.ChannelNames
import TrIrcd.Proofs.FormatBounds

/-!
# The buffer of a channel name

`create_channel` copies the name of a new channel with `strlcpy_irc`, which
takes a length. The length is that of the name itself, so the whole name is
copied (`strlcpyIrc_self`), and it fits `chname` if the name does. A local
client's name is cut first and always fits. A server's is not: a longer name
runs over the array. No channel has such a name, so it is never found, and the
length of the name alone decides (`createChannel_name_iff`); the name of a link
is in an array of the same size.

What is stored is what the channel is hashed under. Nothing writes a name but
the making of a channel, so as long as it lives that is also what it is taken
out of the table under.
-/

namespace TrIrcd

open TrIrcd.Lib ChanSt

/-! ## Names that are kept -/

variable {E : ChanEnv}

/-- Every name and every link is in its array. -/
structure Fitted (s : ChanSt) : Prop where
  chname : ∀ ch, (s.chan ch).chname.length ≤ channelLen
  link : ∀ ch, (s.chan ch).link.length ≤ channelLen

theorem Fitted.update {s s' : ChanSt} (h : Fitted s) {chptr : Nat} {c : Channel}
    (hchan : s'.chan = Function.update s.chan chptr c)
    (hc : c.chname.length ≤ channelLen ∧ c.link.length ≤ channelLen) : Fitted s' := by
  constructor <;> intro ch <;> rw [hchan, Function.update_apply] <;> split
  · exact hc.1
  · exact h.chname ch
  · exact hc.2
  · exact h.link ch

theorem init_fitted : Fitted ChanSt.init :=
  ⟨fun _ => Nat.zero_le _, fun _ => Nat.zero_le _⟩

theorem step_fitted (s : ChanSt) (op : ChanOp) (s' : ChanSt) (h : Fitted s)
    (hs : s.step E op = .ok s') : Fitted s' := by
  cases op with
  | createChannel cptr chname recurse =>
      obtain ⟨r, hr, rfl⟩ := map_ok_iff.mp hs
      rcases createChannel_cases hr with ⟨hst, -⟩ | ⟨name, -, -, hlen, -, -, hst, -⟩
      · rw [hst]
        exact h
      · rw [hst]
        exact h.update (newChannel_chan E name s) ⟨hlen, Nat.zero_le _⟩
  | setMode chptr mode link =>
      simp only [step] at hs
      split at hs
      · cases hs
      · split at hs
        · cases hs
        · next hlen =>
            cases hs
            exact h.update rfl ⟨h.chname chptr, Nat.not_lt.mp hlen⟩
  | addUser chptr who flags =>
      cases stepped hs
      by_cases hu : E.user who = true
      · exact h.update (addUserToChannel_chan s chptr flags hu) ⟨h.chname chptr, h.link chptr⟩
      · rw [addUserToChannel, if_neg hu]
        exact h
  | removeUser who chptr =>
      cases stepped hs
      by_cases hu : E.user who = true
      · exact h.update (removeUserFromChannel_chan s chptr hu) ⟨h.chname chptr, h.link chptr⟩
      · rw [removeUserFromChannel, if_neg hu]
        exact ⟨h.chname, h.link⟩
  | addInvite cptr chptr =>
      cases stepped hs
      exact ⟨h.chname, h.link⟩
  | delInvite cptr chptr =>
      cases stepped hs
      exact ⟨h.chname, h.link⟩

/-- What lives keeps its name. -/
theorem step_chname {s s' : ChanSt} {op : ChanOp} {ch : Nat} (hs : s.step E op = .ok s')
    (hlive : ch ∈ s.blocks) : (s'.chan ch).chname = (s.chan ch).chname := by
  cases stepped hs with
  | found => rfl
  | created => exact newChannel_chname hlive
  | setMode =>
      refine update_chname ?_ ch
      rfl
  | addUser chptr who flags => exact (addUserToChannel_sublist chptr who flags).2 ch
  | removeUser who chptr => exact (removeUserFromChannel_sublist who chptr).2 ch
  | addInvite => rfl
  | delInvite => rfl

/-- The channel lives in every state of the run but the last. -/
def LivesThrough (E : ChanEnv) (ch : Nat) (s : ChanSt) (ops : List ChanOp) : Prop :=
  Meets (ChanSt.step E) (fun s _ => ch ∈ s.blocks) s ops

theorem run_chname {s s' : ChanSt} {ops : List ChanOp} {ch : Nat}
    (hlive : LivesThrough E ch s ops) (hrun : run (ChanSt.step E) s ops = .ok s') :
    (s'.chan ch).chname = (s.chan ch).chname :=
  run_invariant_of_meets
    (fun _ _ _ hname hlive hs => (step_chname hs hlive).trans hname) ops rfl hlive hrun

/-! ## The name that is made -/

/-- The call makes a channel of this name. -/
structure Makes (E : ChanEnv) (s : ChanSt) (cptr : Creator) (name : List UInt8) (recurse : Bool)
    (made : List UInt8) : Prop where
  given : cstr name ≠ []
  asked : Asked E s cptr name recurse made
  named : cstr made ≠ []
  missed : s.find E made = none

/-- The name is in its array, and it is the one that the channel is hashed and
unhashed under. -/
structure NameFits (E : ChanEnv) (s : ChanSt) (cptr : Creator) (name : List UInt8) (recurse : Bool)
    (made : List UInt8) : Prop where
  inside : ∀ p ∈ strlcpyIrc made made.length, p.1 ≤ channelLen
  stored : strlcpyIrc made made.length = writeFrom 0 (made ++ [0])
  created : createChannel E cptr name recurse s =
    .ok ⟨some (newChannel E made s).1, some true, (newChannel E made s).2⟩
  hashed : (newChannel E made s).2.channelTable =
    addToChannelHashTable E.ircdRandomKey made (newChannel E made s).1 s.channelTable
  kept : ∀ ops s', LivesThrough E (newChannel E made s).1 (newChannel E made s).2 ops →
    run (ChanSt.step E) (newChannel E made s).2 ops = .ok s' →
    (s'.chan (newChannel E made s).1).chname = made
  unhashed : ∀ ops s', LivesThrough E (newChannel E made s).1 (newChannel E made s).2 ops →
    run (ChanSt.step E) (newChannel E made s).2 ops = .ok s' →
    ∀ who, E.user who = true → (s'.chan (newChannel E made s).1).users ≤ 1 →
      (removeUserFromChannel E who (newChannel E made s).1 s').channelTable =
        (delFromChannelHashTable E.ircdRandomKey made (newChannel E made s).1 s'.channelTable).2

section Make

variable {s : ChanSt} {cptr : Creator} {name made : List UInt8} {recurse : Bool}

/-- A name that fits is made. -/
theorem Makes.createChannel (h : Makes E s cptr name recurse made)
    (hlen : made.length ≤ channelLen) :
    createChannel E cptr name recurse s =
      .ok ⟨some (newChannel E made s).1, some true, (newChannel E made s).2⟩ := by
  rcases h.asked with rfl | ⟨rfl, ch, hch, hl, rfl⟩
  · exact createChannelBody_missed h.given h.missed hlen
  · have hlink : cstr (s.chan ch).link ≠ [] := by
      intro hnil
      refine h.named ?_
      rw [storedName_eq_nil hnil, cstr_nil]
    rw [TrIrcd.createChannel, if_pos rfl, createChannelBody_linked h.given hch hl,
      createChannelBody_missed hlink h.missed hlen]
    rfl

theorem Makes.cstr_made (h : Makes E s cptr name recurse made) : cstr made = made := by
  rcases h.asked with rfl | ⟨-, ch, -, -, rfl⟩
  · exact cstr_storedName
  · exact cstr_storedName

theorem newChannel_channelTable :
    (newChannel E made s).2.channelTable =
      addToChannelHashTable E.ircdRandomKey made (newChannel E made s).1 s.channelTable := by
  simp only [newChannel]
  split <;> rfl

/-- The last member takes the channel out of the table, under its name. -/
theorem removeUserFromChannel_unhashed {who ch : Nat} (hu : E.user who = true)
    (hlast : (s.chan ch).users ≤ 1) :
    (removeUserFromChannel E who ch s).channelTable =
      (delFromChannelHashTable E.ircdRandomKey (s.chan ch).chname ch s.channelTable).2 := by
  have hone : ((partUser who ch s).chan ch).users ≤ 1 := hlast
  have hname : ((sub1Users ch (partUser who ch s)).chan ch).chname = (s.chan ch).chname := by
    refine update_chname ?_ ch
    rfl
  rw [removeUserFromChannel_eq s ch hu, sub1FromChannel_eq, if_pos hone, ← hname]
  simp only [destroyChannel]
  split <;> split <;> rfl

theorem Makes.fits (h : Makes E s cptr name recurse made) (hlen : made.length ≤ channelLen) :
    NameFits E s cptr name recurse made where
  inside := by
    rw [strlcpyIrc_self h.cstr_made]
    exact writeFrom_terminated_le.mpr hlen
  stored := strlcpyIrc_self h.cstr_made
  created := h.createChannel hlen
  hashed := newChannel_channelTable
  kept ops s' hlive hrun := (run_chname hlive hrun).trans newChannel_chname_self
  unhashed ops s' hlive hrun who hu hlast := by
    rw [removeUserFromChannel_unhashed hu hlast, run_chname hlive hrun, newChannel_chname_self]

theorem storedName_length_le (n : Nat) (h : (cstr name).length ≤ n) :
    (storedName cptr name).length ≤ n := by
  rw [storedName]
  split
  · rw [List.length_take]
    exact (Nat.min_le_right _ _).trans h
  · exact h

/-- Nobody has a name that does not fit. -/
theorem find_long (hS : Shape E s) (hF : Fitted s) (hlong : channelLen < (cstr name).length) :
    s.find E name = none := by
  cases hfind : s.find E name with
  | none => rfl
  | some ch =>
      have heq := ircStrcmp_eq_zero.mp (find_eq_some hS.indexed hfind).2
      have hlen := congrArg List.length heq
      rw [List.length_map, List.length_map] at hlen
      have hle := (cstr_length_le (s.chan ch).chname).trans (hF.chname ch)
      omega

/-- A call makes no name but one that fits, just when it is a local client's or fits as it
is given. -/
theorem createChannel_name_iff (E : ChanEnv) {ops : List ChanOp} {s : ChanSt}
    (hrun : run (ChanSt.step E) ChanSt.init ops = .ok s) (cptr : Creator) (name : List UInt8)
    (recurse : Bool) :
    (∀ made, Makes E s cptr name recurse made → NameFits E s cptr name recurse made) ↔
      cptr.myClient = true ∨ (cstr name).length ≤ channelLen := by
  have hS : Shape E s := run_invariant step_shape ops (init_shape E) hrun
  have hF : Fitted s := run_invariant step_fitted ops init_fitted hrun
  constructor
  · intro h
    by_contra hno
    simp only [not_or, Bool.not_eq_true, Nat.not_le] at hno
    obtain ⟨hremote, hlong⟩ := hno
    have hne : cstr name ≠ [] := List.ne_nil_of_length_pos (by omega)
    have hstored : storedName cptr name = cstr name := by
      rw [storedName, if_neg (by simp [hremote])]
    have hmakes : Makes E s cptr name recurse (cstr name) :=
      ⟨hne, .inl hstored.symm, by rwa [cstr_cstr],
        find_long hS hF (by rwa [cstr_cstr])⟩
    have hinside := (h _ hmakes).inside
    rw [strlcpyIrc_self (cstr_cstr name)] at hinside
    exact absurd (writeFrom_terminated_le.mp hinside) (Nat.not_le.mpr hlong)
  · intro h made hmakes
    refine hmakes.fits ?_
    rcases hmakes.asked with rfl | ⟨-, ch, -, -, rfl⟩
    · rcases h with hmy | hlen
      · exact storedName_length hmy
      · exact storedName_length_le channelLen hlen
    · exact storedName_length_le channelLen ((cstr_length_le _).trans (hF.link ch))

/-- A server's `#a` fits. -/
theorem createChannel_name_short :
    (cstr [0x23, 0x61]).length ≤ channelLen ∧
      ∀ made, Makes keyZero ChanSt.init remote [0x23, 0x61] true made →
        NameFits keyZero ChanSt.init remote [0x23, 0x61] true made :=
  ⟨by decide, (@createChannel_name_iff keyZero [] ChanSt.init rfl remote [0x23, 0x61] true).mpr
    (.inr (by decide))⟩

/-- A server's name of 33 characters does not. -/
theorem createChannel_name_overruns :
    ¬ ∀ (E : ChanEnv) (ops : List ChanOp) (s : ChanSt),
      run (ChanSt.step E) ChanSt.init ops = .ok s →
      ∀ cptr name recurse made, Makes E s cptr name recurse made →
        NameFits E s cptr name recurse made := by
  intro h
  have hmakes : Makes keyZero ChanSt.init remote (0x23 :: List.replicate 32 0x61) false
      (0x23 :: List.replicate 32 0x61) :=
    ⟨by decide, .inl (by decide), by decide,
      find_long (init_shape keyZero) init_fitted (by decide)⟩
  have hinside := (h keyZero [] ChanSt.init rfl remote _ false _ hmakes).inside
  rw [strlcpyIrc_self (by decide)] at hinside
  exact absurd (writeFrom_terminated_le.mp hinside) (by decide)

end Make

end TrIrcd
