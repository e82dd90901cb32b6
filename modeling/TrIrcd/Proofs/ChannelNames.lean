import TrIrcd.Proofs.ChannelShape

/-!
# Channel names are unique, as far as they are searched

`create_channel` makes a channel when `find_channel` answers none, so names
stay unique exactly as long as that answer can be trusted. The one name it
cannot be trusted for is a name in bucket 0 that a channel already has:
`Searched` excludes it, for every name a call looks up. In a run that keeps
to it the names are distinct, and the next call keeps them so if and only if
it keeps to it too (`createChannel_unique`).

The list and the table agree without the condition: `Shape` has them hold the
same blocks.
-/

namespace TrIrcd

open TrIrcd.Lib

namespace ChanSt

/-- No channel of the list hides from a lookup of the name. -/
def Searched (E : ChanEnv) (s : ChanSt) (name : List UInt8) : Prop :=
  strhash E.ircdRandomKey name ≠ 0 ∨
    ∀ d ∈ s.channels, ircStrcmp name (s.chan d).chname ≠ 0

/-- Every name a call of `create_channel` may look up is searched. -/
def LooksUp (E : ChanEnv) (s : ChanSt) : ChanOp → Prop
  | .createChannel cptr chname recurse =>
      ∀ name, Asked E s cptr chname recurse name → s.Searched E name
  | _ => True

/-- The list is whole and counted, its names differ, and the table holds
what it holds. -/
structure NamesUnique (s : ChanSt) : Prop where
  chain : IsChain s.nextch s.channel s.channels
  distinct : s.channels.Pairwise fun a b =>
    ircStrcmp (s.chan a).chname (s.chan b).chname ≠ 0
  count : s.countChan = s.channels.length
  table : ∀ ch, ch ∈ s.channels ↔ s.Hashed ch

/-- `*new` was set only for a channel whose name no channel had. -/
def HonestNew (s : ChanSt) (r : Created) : Prop :=
  r.new = some true → ∃ ch, r.chptr = some ch ∧
    ∀ d ∈ s.channels, ircStrcmp (r.st.chan ch).chname (s.chan d).chname ≠ 0

end ChanSt

open ChanSt

variable {E : ChanEnv} {s : ChanSt}

/-- What the run keeps beside its shape. -/
structure Distinct (s : ChanSt) : Prop where
  pairwise : s.blocks.Pairwise fun a b =>
    ircStrcmp (s.chan a).chname (s.chan b).chname ≠ 0
  named : ∀ d ∈ s.blocks, cstr (s.chan d).chname ≠ []

/-- A name that is searched and not found is nobody's. -/
theorem Shape.find_none (h : Shape E s) {name : List UInt8}
    (hs : s.Searched E name) (hf : s.find E name = none) :
    ∀ d ∈ s.blocks, ircStrcmp name (s.chan d).chname ≠ 0 := by
  rw [Searched, h.channels] at hs
  rcases hs with h0 | hno
  · intro d hd hn
    obtain ⟨c, hc⟩ := find_isSome h.indexed h0 hd hn
    rw [ChanSt.find, findChannel, hc] at hf
    cases hf
  · exact hno

theorem newChannel_chname {name : List UInt8} {d : Nat} (hd : d ∈ s.blocks) :
    ((newChannel E name s).2.chan d).chname = (s.chan d).chname := by
  rw [newChannel_chan, Function.update_of_ne]
  intro heq
  subst heq
  exact newChannel_fresh E name s hd

theorem newChannel_chname_self {name : List UInt8} :
    ((newChannel E name s).2.chan (newChannel E name s).1).chname = name := by
  rw [newChannel_chan, Function.update_self]

theorem newChannel_distinct {name : List UInt8} (hD : Distinct s)
    (hne : cstr name ≠ [])
    (hno : ∀ d ∈ s.blocks, ircStrcmp name (s.chan d).chname ≠ 0) :
    Distinct (newChannel E name s).2 := by
  constructor
  · rw [newChannel_blocks, List.pairwise_cons]
    constructor
    · intro d hd
      rw [newChannel_chname_self, newChannel_chname hd]
      exact hno d hd
    · refine hD.pairwise.imp_of_mem fun ha hb hne => ?_
      rw [newChannel_chname ha, newChannel_chname hb]
      exact hne
  · intro d hd
    rw [newChannel_blocks] at hd
    rcases List.mem_cons.mp hd with rfl | hd
    · rw [newChannel_chname_self]
      exact hne
    · rw [newChannel_chname hd]
      exact hD.named d hd

/-- A second channel of a name is one too many. -/
theorem newChannel_not_unique {name : List UInt8} {d : Nat} (hS : Shape E s)
    (hd : d ∈ s.blocks) (hn : ircStrcmp name (s.chan d).chname = 0) :
    ¬ (newChannel E name s).2.NamesUnique := by
  intro h
  have hp := h.distinct
  rw [(newChannel_shape name hS).channels, newChannel_blocks, List.pairwise_cons] at hp
  have hne := hp.1 d hd
  rw [newChannel_chname_self, newChannel_chname hd] at hne
  exact hne hn

/-- Fewer blocks under the same names. -/
theorem Distinct.sublist {s' : ChanSt} (hD : Distinct s)
    (hsub : s'.blocks.Sublist s.blocks)
    (hname : ∀ ch, (s'.chan ch).chname = (s.chan ch).chname) : Distinct s' := by
  constructor
  · simp only [hname]
    exact List.Pairwise.sublist hsub hD.pairwise
  · intro d hd
    rw [hname]
    exact hD.named d (hsub.subset hd)

theorem removeUserFromChannel_sublist (who chptr : Nat) :
    (removeUserFromChannel E who chptr s).blocks.Sublist s.blocks ∧
      ∀ ch, ((removeUserFromChannel E who chptr s).chan ch).chname =
        (s.chan ch).chname := by
  by_cases hu : E.user who = true
  · rw [removeUserFromChannel_blocks s chptr hu, removeUserFromChannel_chan s chptr hu]
    constructor
    · split
      · exact List.erase_sublist
      · exact List.Sublist.refl _
    · intro ch
      refine update_chname ?_ ch
      rfl
  · rw [removeUserFromChannel, if_neg hu]
    exact ⟨List.Sublist.refl _, fun _ => rfl⟩

theorem addUserToChannel_sublist (chptr who flags : Nat) :
    (addUserToChannel E chptr who flags s).2.blocks.Sublist s.blocks ∧
      ∀ ch, ((addUserToChannel E chptr who flags s).2.chan ch).chname =
        (s.chan ch).chname := by
  by_cases hu : E.user who = true
  · rw [addUserToChannel_chan s chptr flags hu, addUserToChannel, if_pos hu]
    refine ⟨List.Sublist.refl _, fun ch => ?_⟩
    refine update_chname ?_ ch
    rfl
  · rw [addUserToChannel, if_neg hu]
    exact ⟨List.Sublist.refl _, fun _ => rfl⟩

theorem step_distinct (s : ChanSt) (op : ChanOp) (s' : ChanSt)
    (hI : Shape E s ∧ Distinct s) (hG : s.LooksUp E op)
    (hs : s.step E op = .ok s') : Shape E s' ∧ Distinct s' := by
  refine ⟨step_shape s op s' hI.1 hs, ?_⟩
  obtain ⟨hS, hD⟩ := hI
  cases stepped hs with
  | found => exact hD
  | created _ _ _ name hask hne hf =>
      exact newChannel_distinct hD hne (hS.find_none (hG name hask) hf)
  | setMode =>
      refine hD.sublist (List.Sublist.refl _) fun ch => ?_
      refine update_chname ?_ ch
      rfl
  | addUser chptr who flags =>
      obtain ⟨hsub, hname⟩ := addUserToChannel_sublist (E := E) (s := s) chptr who flags
      exact hD.sublist hsub hname
  | removeUser who chptr =>
      obtain ⟨hsub, hname⟩ := removeUserFromChannel_sublist (E := E) (s := s) who chptr
      exact hD.sublist hsub hname
  | addInvite => exact hD.sublist (List.Sublist.refl _) fun _ => rfl
  | delInvite => exact hD.sublist (List.Sublist.refl _) fun _ => rfl

theorem Shape.namesUnique (hS : Shape E s) (hD : Distinct s) : s.NamesUnique where
  chain := by
    rw [hS.channels]
    exact hS.dlist.1
  distinct := by
    rw [hS.channels]
    exact hD.pairwise
  count := by
    rw [hS.channels]
    exact hS.count
  table ch := by
    rw [hS.channels]
    exact hS.hashed ch

/-! ## The calls of `create_channel` -/

section Calls

variable {cptr : Creator} {name : List UInt8}

theorem storedName_eq_nil (h : cstr name = []) : storedName cptr name = [] := by
  rw [storedName, h]
  simp

theorem storedName_length (hmy : cptr.myClient = true) :
    (storedName cptr name).length ≤ channelLen := by
  rw [storedName]
  split
  · rw [List.length_take]
    exact Nat.min_le_left _ _
  · next h =>
      rw [hmy] at h
      simpa using h

theorem cstr_storedName : cstr (storedName cptr name) = storedName cptr name := by
  rw [storedName]
  split
  · exact cstr_take _ _
  · exact cstr_cstr _

theorem createChannelBody_missed
    {onLinked : Option (List UInt8 → ChanSt → Except ChanStop Created)} (hne : cstr name ≠ [])
    (hf : s.find E (storedName cptr name) = none)
    (hlen : (storedName cptr name).length ≤ channelLen) :
    createChannelBody E cptr onLinked name s =
      .ok ⟨some (newChannel E (storedName cptr name) s).1, some true,
        (newChannel E (storedName cptr name) s).2⟩ := by
  have hname : (if cptr.myClient = true ∧ channelLen < (cstr name).length then
      (cstr name).take channelLen else cstr name) = storedName cptr name := rfl
  simp only [createChannelBody, if_neg hne, hname, hf]
  rw [if_neg (Nat.not_lt.mpr hlen)]

theorem createChannelBody_linked {f : List UInt8 → ChanSt → Except ChanStop Created}
    (hne : cstr name ≠ []) {ch : Nat} (hf : s.find E (storedName cptr name) = some ch)
    (hl : (s.chan ch).isLinked = true) :
    createChannelBody E cptr (some f) name s =
      (f (s.chan ch).link s).map fun r => { r with new := some (r.new.getD false) } := by
  have hname : (if cptr.myClient = true ∧ channelLen < (cstr name).length then
      (cstr name).take channelLen else cstr name) = storedName cptr name := rfl
  simp only [createChannelBody, if_neg hne, hname, hf]
  rw [if_pos hl]

theorem createChannelBody_unnamed
    (onLinked : Option (List UInt8 → ChanSt → Except ChanStop Created)) (hnil : cstr name = []) :
    createChannelBody E cptr onLinked name s = .ok ⟨none, none, s⟩ := by
  simp only [createChannelBody, if_pos hnil]

/-- A channel that is found is answered, if no link is followed. -/
theorem createChannelBody_found
    {onLinked : Option (List UInt8 → ChanSt → Except ChanStop Created)} (hne : cstr name ≠ [])
    {ch : Nat} (hf : s.find E (storedName cptr name) = some ch)
    (hl : onLinked = none ∨ (s.chan ch).isLinked = false) :
    createChannelBody E cptr onLinked name s = .ok ⟨some ch, some false, s⟩ := by
  have hname : (if cptr.myClient = true ∧ channelLen < (cstr name).length then
      (cstr name).take channelLen else cstr name) = storedName cptr name := rfl
  simp only [createChannelBody, if_neg hne, hname, hf]
  rcases hl with rfl | hl
  · rfl
  · cases onLinked with
    | none => rfl
    | some f => exact if_neg (by rw [hl]; exact Bool.false_ne_true)

end Calls

/-! ## A name that is not searched -/

/-- A name that is not found is created. -/
theorem createChannelBody_of_none {cptr : Creator}
    {onLinked : Option (List UInt8 → ChanSt → Except ChanStop Created)}
    {chname : List UInt8} {r : Created} (hne : cstr (storedName cptr chname) ≠ [])
    (hf : s.find E (storedName cptr chname) = none)
    (h : createChannelBody E cptr onLinked chname s = .ok r) :
    r.st = (newChannel E (storedName cptr chname) s).2 := by
  have hne' : cstr chname ≠ [] := by
    intro he
    refine hne ?_
    rw [storedName, he]
    simp
  have hname : (if cptr.myClient = true ∧ channelLen < (cstr chname).length then
      (cstr chname).take channelLen else cstr chname) = storedName cptr chname := rfl
  simp only [createChannelBody, if_neg hne', hname, hf] at h
  split at h
  · cases h
  · cases h
    rfl

/-- A call that asks for a name in bucket 0 that a channel has makes a second
channel of it. -/
theorem createChannel_not_searched {cptr : Creator} {chname name : List UInt8}
    {recurse : Bool} {r : Created} (hS : Shape E s) (hD : Distinct s)
    (hask : Asked E s cptr chname recurse name) (hns : ¬ s.Searched E name)
    (h : createChannel E cptr chname recurse s = .ok r) : ¬ r.st.NamesUnique := by
  rw [Searched, hS.channels] at hns
  simp only [not_or, not_not, not_forall] at hns
  obtain ⟨h0, d, hd, hn⟩ := hns
  have hne : cstr name ≠ [] := by
    intro he
    have hmap := ircStrcmp_eq_zero.mp hn
    rw [he, List.map_nil] at hmap
    exact hD.named d hd (List.map_eq_nil_iff.mp hmap.symm)
  have hf : s.find E name = none := find_zero h0
  rcases hask with rfl | ⟨rfl, ch, hch, hl, rfl⟩
  · rw [createChannelBody_of_none hne hf h]
    exact newChannel_not_unique hS hd hn
  · -- The call for the link is the one that finds nothing.
    have hne' : cstr chname ≠ [] := by
      intro he
      obtain ⟨hm, hn'⟩ := find_eq_some hS.indexed hch
      have hmap := ircStrcmp_eq_zero.mp hn'
      have hnil : cstr (storedName cptr chname) = [] := by
        rw [storedName, he]
        simp
      rw [hnil, List.map_nil] at hmap
      exact hD.named ch hm (List.map_eq_nil_iff.mp hmap.symm)
    have hname : (if cptr.myClient = true ∧ channelLen < (cstr chname).length then
        (cstr chname).take channelLen else cstr chname) = storedName cptr chname := rfl
    simp only [createChannel, if_true] at h
    rw [createChannelBody] at h
    simp only [if_neg hne', hname, hch, hl, if_true] at h
    obtain ⟨r', hr', rfl⟩ := map_ok_iff.mp h
    rw [createChannelBody_of_none hne hf hr']
    exact newChannel_not_unique hS hd hn

/-- In every run that looks up only names it searches, channel names are
unique, the list is counted and agrees with the table, and `*new` tells the
truth; and a step keeps it so if and only if it looks up only such names. -/
theorem createChannel_unique (E : ChanEnv) (ops : List ChanOp) (s : ChanSt)
    (hr : run (ChanSt.step E) ChanSt.init ops = .ok s)
    (hG : Meets (ChanSt.step E) (LooksUp E) ChanSt.init ops) :
    s.NamesUnique ∧
      (∀ op s', s.step E op = .ok s' → (s'.NamesUnique ↔ s.LooksUp E op)) ∧
      ∀ cptr chname recurse r, createChannel E cptr chname recurse s = .ok r →
        s.LooksUp E (.createChannel cptr chname recurse) → s.HonestNew r := by
  obtain ⟨hS, hD⟩ : Shape E s ∧ Distinct s :=
    run_invariant_of_meets step_distinct ops
      ⟨init_shape E, List.Pairwise.nil, fun _ h => by cases h⟩ hG hr
  refine ⟨hS.namesUnique hD, fun op s' hs => ⟨fun hu => ?_, fun hl => ?_⟩,
    fun cptr chname recurse r hc hl hnew => ?_⟩
  · cases op with
    | createChannel cptr chname recurse =>
        obtain ⟨r, hc, rfl⟩ := map_ok_iff.mp hs
        intro name hask
        by_contra hns
        exact createChannel_not_searched hS hD hask hns hc hu
    | _ => exact trivial
  · have h' := step_distinct s op s' ⟨hS, hD⟩ hl hs
    exact h'.1.namesUnique h'.2
  rcases createChannel_cases hc with hu | ⟨name, hask, -, -, hf, hptr, hst, -⟩
  · exact absurd hnew hu.2
  · refine ⟨_, hptr, fun d hd => ?_⟩
    rw [hS.channels] at hd
    rw [hst, newChannel_chname_self]
    exact hS.find_none (hl name hask) hf d hd

/-- A server, as the creator of a channel. -/
def remote : Creator := ⟨-1, 0⟩

/-- Everybody is a user, and the hash key is 0. -/
def keyZero : ChanEnv := ⟨0, Allocator.bump, fun _ => true⟩

/-- The name `#agtp`, which hashes to bucket 0 under key 0. -/
def agtp : List UInt8 := [0x23, 0x61, 0x67, 0x74, 0x70]

/-- Created twice, it stands twice in the list, and `*new` was set both
times. -/
theorem createChannel_duplicates :
    ∃ s r, run (ChanSt.step keyZero) ChanSt.init
        [.createChannel remote agtp false] = .ok s ∧
      createChannel keyZero remote agtp false s = .ok r ∧
      ¬ s.HonestNew r ∧ ¬ r.st.NamesUnique := by
  refine ⟨_, _, rfl, rfl, fun h => ?_, fun h => ?_⟩
  · obtain ⟨ch, hch, hne⟩ := h rfl
    cases hch
    exact hne 1 (by decide) (by decide)
  · exact absurd h.distinct (by decide)

/-- The theorem at a run that creates `#a` and a call that creates `#b`. -/
theorem createChannel_unique_two :
    ∃ s r, run (ChanSt.step keyZero) ChanSt.init
        [.createChannel remote [0x23, 0x61] false] = .ok s ∧
      createChannel keyZero remote [0x23, 0x62] false s = .ok r ∧
      s.NamesUnique ∧ s.HonestNew r := by
  have hlook : ∀ s name, strhash 0 (storedName remote name) ≠ 0 →
      LooksUp keyZero s (.createChannel remote name false) := by
    rintro s name h0 _ (rfl | ⟨hf, -⟩)
    · exact Or.inl h0
    · cases hf
  have h := createChannel_unique keyZero [.createChannel remote [0x23, 0x61] false] _
    rfl ⟨hlook _ [0x23, 0x61] (by decide), fun _ _ => trivial⟩
  exact ⟨_, _, rfl, rfl, h.1, h.2.2 remote [0x23, 0x62] false _ rfl
    (hlook _ [0x23, 0x62] (by decide))⟩

end TrIrcd
