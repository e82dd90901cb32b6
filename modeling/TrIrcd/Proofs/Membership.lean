import TrIrcd.Lib.Toggle
import TrIrcd.Proofs.ChannelShape

/-!
# Who is on a channel

A membership is written down four times: as a node of the channel's list, as
a node of the user's list, in `users` and in `joined`. `Rostered` says that
the four agree. It survives every sequence of calls in which only clients
join that are not on the channel and only clients leave that are
(`Disciplined`), and then a channel goes exactly when its last member does:
the count that `sub1_from_channel` tests is the length of the list.
-/

namespace TrIrcd

open Function (update)
open TrIrcd.Lib

/-- The client a node of `members` stands for. -/
def Ptr.member? : Ptr → Option Nat
  | .member cm => some cm.client
  | _ => none

theorem Ptr.isMember_iff {acptr : Nat} {p : Ptr} :
    p.isMember acptr = true ↔ p.member? = some acptr := by
  cases p with
  | member cm =>
      simp only [Ptr.isMember, Ptr.member?, decide_eq_true_eq, Option.some.injEq]
      exact eq_comm
  | _ => simp [Ptr.isMember, Ptr.member?]

/-- Taking out the first node of a client takes the client out. -/
theorem filterMap_eraseP_isMember (acptr : Nat) (ps : List Ptr) :
    (ps.eraseP (Ptr.isMember acptr)).filterMap Ptr.member? =
      (ps.filterMap Ptr.member?).erase acptr := by
  induction ps with
  | nil => rfl
  | cons p ps ih =>
      by_cases hp : p.isMember acptr = true
      · rw [List.eraseP_cons_of_pos hp,
          List.filterMap_cons_some (Ptr.isMember_iff.mp hp), List.erase_cons_head]
      · rw [List.eraseP_cons_of_neg hp]
        cases hm : p.member? with
        | none =>
            rw [List.filterMap_cons_none hm, List.filterMap_cons_none hm, ih]
        | some c =>
            have hne : c ≠ acptr := by
              intro heq
              subst heq
              exact hp (Ptr.isMember_iff.mpr hm)
            rw [List.filterMap_cons_some hm, List.filterMap_cons_some hm, ih,
              List.erase_cons_tail (by simpa using hne)]

namespace ChanSt

/-- The clients on a channel, by its own list. -/
def membersOf (s : ChanSt) (ch : Nat) : List Nat :=
  (s.lists (.members ch)).filterMap Ptr.member?

/-- Only clients that are not on the channel join it, only clients that are
leave it. -/
def Disciplined (s : ChanSt) : ChanOp → Prop
  | .addUser ch who _ => who ∉ s.membersOf ch
  | .removeUser who ch => who ∈ s.membersOf ch
  | _ => True

instance (s : ChanSt) : ∀ op, Decidable (s.Disciplined op)
  | .addUser ch who _ => inferInstanceAs (Decidable (who ∉ s.membersOf ch))
  | .removeUser who ch => inferInstanceAs (Decidable (who ∈ s.membersOf ch))
  | .createChannel .. => .isTrue trivial
  | .setMode .. => .isTrue trivial
  | .addInvite .. => .isTrue trivial
  | .delInvite .. => .isTrue trivial

/-- The four records of who is on the channels `chs` agree. -/
structure Rostered (s : ChanSt) (chs : List Nat) : Prop where
  users : ∀ ch ∈ chs, (s.chan ch).users = (s.lists (.members ch)).length
  once : ∀ ch ∈ chs, (s.membersOf ch).Nodup
  mem : ∀ ch ∈ chs, ∀ c, c ∈ s.membersOf ch ↔ .channel ch ∈ s.lists (.channel c)
  joined : ∀ c, s.joined c = (s.lists (.channel c)).length

end ChanSt

open ChanSt

/-- The records, and what keeps them in step: members have a user structure,
and the lists of users name live channels, each once. -/
structure Joined (E : ChanEnv) (s : ChanSt) : Prop extends s.Rostered s.blocks where
  user : ∀ ch ∈ s.blocks, ∀ c ∈ s.membersOf ch, E.user c = true
  nodup : ∀ c, (s.lists (.channel c)).Nodup
  live : ∀ c ch, .channel ch ∈ s.lists (.channel c) → ch ∈ s.blocks

variable {E : ChanEnv} {s : ChanSt}

theorem Shape.length_membersOf (h : Shape E s) (ch : Nat) :
    (s.membersOf ch).length = (s.lists (.members ch)).length := by
  rw [membersOf, List.length_filterMap_eq_countP, List.countP_eq_length]
  intro p hp
  obtain ⟨cm, rfl⟩ := h.members ch p hp
  rfl

/-- A step that touches none of the records. -/
theorem Joined.congr {s' : ChanSt} (h : Joined E s)
    (hl : ∀ l, l.IsRoster → s'.lists l = s.lists l)
    (hu : ∀ ch, (s'.chan ch).users = (s.chan ch).users)
    (hb : s'.blocks = s.blocks) (hj : s'.joined = s.joined) : Joined E s' := by
  have hm : ∀ ch, s'.lists (.members ch) = s.lists (.members ch) :=
    fun ch => hl _ trivial
  have hc : ∀ c, s'.lists (.channel c) = s.lists (.channel c) :=
    fun c => hl _ trivial
  have hmem : ∀ ch, s'.membersOf ch = s.membersOf ch := fun ch => by
    rw [membersOf, hm, membersOf]
  refine ⟨⟨?_, ?_, ?_, ?_⟩, ?_, ?_, ?_⟩
  · intro ch hch
    rw [hu, hm]
    exact h.users ch (hb ▸ hch)
  · intro ch hch
    rw [hmem]
    exact h.once ch (hb ▸ hch)
  · intro ch hch c
    rw [hmem, hc]
    exact h.mem ch (hb ▸ hch) c
  · intro c
    rw [hj, hc]
    exact h.joined c
  · intro ch hch c
    rw [hmem]
    exact h.user ch (hb ▸ hch) c
  · intro c
    rw [hc]
    exact h.nodup c
  · intro c ch
    rw [hc, hb]
    exact h.live c ch

/-! ## Creating -/

theorem newChannel_channel {name : List UInt8} (hS : Shape E s) (c : Nat) :
    (newChannel E name s).2.lists (.channel c) = s.lists (.channel c) := by
  rw [newChannel_lists name hS, Function.update_of_ne (by simp),
    Function.update_of_ne (by simp)]

theorem newChannel_members {name : List UInt8} (hS : Shape E s) (ch : Nat) :
    (newChannel E name s).2.lists (.members ch) =
      if ch = (newChannel E name s).1 then [] else s.lists (.members ch) := by
  rw [newChannel_lists name hS, Function.update_of_ne (by simp)]
  split
  · next he => rw [he, Function.update_self]
  · next he => rw [Function.update_of_ne (by simp [he])]

theorem newChannel_joined_inv {name : List UInt8} (hS : Shape E s)
    (h : Joined E s) : Joined E (newChannel E name s).2 := by
  have hfresh := newChannel_fresh E name s
  have hc : ∀ c, (newChannel E name s).2.lists (.channel c) = s.lists (.channel c) :=
    newChannel_channel hS
  have hnew : (newChannel E name s).2.lists (.members (newChannel E name s).1) = [] := by
    rw [newChannel_members hS, if_pos rfl]
  have hold : ∀ ch, ch ≠ (newChannel E name s).1 →
      (newChannel E name s).2.lists (.members ch) = s.lists (.members ch) :=
    fun ch hne => by rw [newChannel_members hS, if_neg hne]
  refine ⟨⟨?_, ?_, ?_, ?_⟩, ?_, ?_, ?_⟩
  · intro ch hch
    rw [newChannel_chan]
    rcases newChannel_live E name s hch with rfl | ⟨hne, hch⟩
    · rw [hnew, Function.update_self]
      rfl
    · rw [hold ch hne, Function.update_of_ne hne]
      exact h.users ch hch
  · intro ch hch
    rw [membersOf]
    rcases newChannel_live E name s hch with rfl | ⟨hne, hch⟩
    · rw [hnew]
      exact List.nodup_nil
    · rw [hold ch hne]
      exact h.once ch hch
  · intro ch hch c
    rw [hc, membersOf]
    rcases newChannel_live E name s hch with rfl | ⟨hne, hch⟩
    · rw [hnew]
      exact iff_of_false (by simp) fun hin => hfresh (h.live c _ hin)
    · rw [hold ch hne]
      exact h.mem ch hch c
  · intro c
    rw [hc, newChannel_joined]
    exact h.joined c
  · intro ch hch c hcm
    rw [membersOf] at hcm
    rcases newChannel_live E name s hch with rfl | ⟨hne, hch⟩
    · rw [hnew] at hcm
      cases hcm
    · rw [hold ch hne] at hcm
      exact h.user ch hch c hcm
  · intro c
    rw [hc]
    exact h.nodup c
  · intro c ch hin
    rw [hc] at hin
    rw [newChannel_blocks]
    exact List.mem_cons_of_mem _ (h.live c ch hin)

/-! ## Joining and leaving -/

/-- A step that puts one membership into all four records, or takes one out,
and takes away no channel but one it emptied. -/
theorem Joined.toggled {s' : ChanSt} {chptr who : Nat} (on : Bool) (hS : Shape E s)
    (hS' : Shape E s') (h : Joined E s) (hch : chptr ∈ s.blocks) (hu : E.user who = true)
    (hwas : who ∈ s.membersOf chptr ↔ on = false) (hb : s'.blocks ⊆ s.blocks)
    (hkept : ∀ ch ∈ s.blocks, s'.membersOf ch ≠ [] → ch ∈ s'.blocks)
    (hm : ∀ ch, s'.membersOf ch =
      if ch = chptr then toggle on who (s.membersOf ch) else s.membersOf ch)
    (hc : ∀ c, s'.lists (.channel c) =
      if c = who then toggle on (.channel chptr) (s.lists (.channel c))
      else s.lists (.channel c))
    (hn : ∀ ch, (s'.chan ch).users =
      if ch = chptr then (s.chan ch).users + tally on else (s.chan ch).users)
    (hj : ∀ c, s'.joined c = if c = who then s.joined c + tally on else s.joined c) :
    Joined E s' := by
  have hmem : ∀ ch ∈ s.blocks, ∀ c, c ∈ s'.membersOf ch ↔
      if ch = chptr ∧ c = who then on = true else c ∈ s.membersOf ch := by
    intro ch hin c
    rw [hm, mem_ite_toggle (h.once ch hin)]
  have hon : ∀ c ch, .channel ch ∈ s'.lists (.channel c) ↔
      if ch = chptr ∧ c = who then on = true else .channel ch ∈ s.lists (.channel c) := by
    intro c ch
    rw [hc, mem_ite_toggle (h.nodup c)]
    simp only [Ptr.channel.injEq, and_comm]
  have hboth : ∀ ch ∈ s.blocks, ∀ c,
      c ∈ s'.membersOf ch ↔ .channel ch ∈ s'.lists (.channel c) := by
    intro ch hin c
    rw [hmem ch hin, hon, h.mem ch hin c]
  refine ⟨⟨?_, ?_, ?_, ?_⟩, ?_, ?_, ?_⟩
  · intro ch hin
    have hold := h.users ch (hb hin)
    rw [← hS.length_membersOf] at hold
    rw [← hS'.length_membersOf, hn, hm]
    split
    · next he =>
        rw [length_toggle, hold]
        rw [he]
        exact hwas
    · exact hold
  · intro ch hin
    rw [hm]
    exact nodup_ite_toggle (h.once ch (hb hin))
  · exact fun ch hin => hboth ch (hb hin)
  · intro c
    rw [hj, hc]
    split
    · next hw =>
        rw [length_toggle, h.joined c]
        rw [hw, ← h.mem chptr hch who]
        exact hwas
    · exact h.joined c
  · intro ch hin c hcm
    rw [hmem ch (hb hin)] at hcm
    split at hcm
    · next hand => rw [hand.2, hu]
    · exact h.user ch (hb hin) c hcm
  · intro c
    rw [hc]
    exact nodup_ite_toggle (h.nodup c)
  · intro c ch hin
    have hlive : ch ∈ s.blocks := by
      have hin' := (hon c ch).mp hin
      split at hin'
      · next hand => rw [hand.1]; exact hch
      · exact h.live c ch hin'
    exact hkept ch hlive (List.ne_nil_of_mem ((hboth ch hlive c).mpr hin))

theorem addUserToChannel_joined {chptr who flags : Nat} (hS : Shape E s)
    (h : Joined E s) (hch : chptr ∈ s.blocks) (hnew : who ∉ s.membersOf chptr) :
    Joined E (addUserToChannel E chptr who flags s).2 := by
  by_cases hu : E.user who = true
  · have hl := addUserToChannel_lists chptr flags hS hu
    have hchan := addUserToChannel_chan s chptr flags hu
    have hb : (addUserToChannel E chptr who flags s).2.blocks = s.blocks := by
      rw [addUserToChannel, if_pos hu]
    have hj : (addUserToChannel E chptr who flags s).2.joined =
        update s.joined who (s.joined who + 1) := by
      rw [addUserToChannel, if_pos hu]
    have hout : .channel chptr ∉ s.lists (.channel who) := fun hin =>
      hnew ((h.mem chptr hch who).mpr hin)
    refine h.toggled true hS (addUserToChannel_shape chptr flags hS) hch hu
      (by simp [hnew]) (by rw [hb]; exact List.Subset.refl _)
      (fun ch hin _ => by rw [hb]; exact hin) (fun ch => ?_) (fun c => ?_)
      (fun ch => ?_) fun c => ?_
    · rw [membersOf, hl, Function.update_of_ne (by simp)]
      split
      · next he =>
          rw [he, Function.update_self, toggle_true hnew]
          rfl
      · next he =>
          rw [Function.update_of_ne (by simp [he]), membersOf]
    · rw [hl]
      split
      · next hw => rw [hw, Function.update_self, toggle_true hout]
      · next hw =>
          rw [Function.update_of_ne (by simp [hw]), Function.update_of_ne (by simp)]
    · rw [hchan]
      split
      · next he =>
          rw [he, Function.update_self]
          rfl
      · next he => rw [Function.update_of_ne he]
    · rw [hj, Function.update_apply]
      split
      · next hw =>
          rw [hw]
          rfl
      · rfl
  · rw [addUserToChannel, if_neg hu]
    exact h

/-- The lists of a state that a member left, by what they were. -/
theorem partLists_members {who chptr : Nat} {C : ListId → List Ptr} (ch : Nat) :
    partLists who chptr C (.members ch) =
      if ch = chptr then (C (.members chptr)).eraseP (Ptr.isMember who)
      else C (.members ch) := by
  rw [partLists, Function.update_of_ne (by simp)]
  split
  · next he => rw [he, Function.update_self]
  · next he => rw [Function.update_of_ne (by simp [he])]

theorem partLists_channel {who chptr : Nat} {C : ListId → List Ptr} (c : Nat) :
    partLists who chptr C (.channel c) =
      if c = who then (C (.channel who)).erase (.channel chptr)
      else C (.channel c) := by
  rw [partLists, eraseP_eq_erase]
  split
  · next he => rw [he, Function.update_self]
  · next he => rw [Function.update_of_ne (by simp [he]), Function.update_of_ne (by simp)]

/-- The last member is the one whose leaving finds a count of at most 1. -/
theorem Joined.users_le_one (hS : Shape E s) (h : Joined E s) {ch who : Nat}
    (hch : ch ∈ s.blocks) (hwho : who ∈ s.membersOf ch) :
    (s.chan ch).users ≤ 1 ↔ s.membersOf ch = [who] := by
  rw [h.users ch hch, ← hS.length_membersOf]
  constructor
  · intro hle
    exact eq_singleton_of_mem hwho (by omega)
  · intro he
    simp [he]

theorem removeUserFromChannel_joined_inv {who chptr : Nat} (hS : Shape E s)
    (h : Joined E s) (hch : chptr ∈ s.blocks) (hwho : who ∈ s.membersOf chptr) :
    Joined E (removeUserFromChannel E who chptr s) := by
  have hu := h.user chptr hch who hwho
  have hb := removeUserFromChannel_blocks s chptr hu
  have hchan := removeUserFromChannel_chan s chptr hu
  have hj := removeUserFromChannel_joined s chptr hu
  have hroster : ∀ l : ListId, l.IsRoster →
      (removeUserFromChannel E who chptr s).lists l = partLists who chptr s.lists l :=
    fun l => removeUserFromChannel_roster chptr hS hu
  have hmem : ∀ ch, (removeUserFromChannel E who chptr s).membersOf ch =
      if ch = chptr then toggle false who (s.membersOf ch) else s.membersOf ch := by
    intro ch
    rw [membersOf, hroster (.members ch) trivial, partLists_members]
    split
    · next he =>
        rw [he, filterMap_eraseP_isMember]
        rfl
    · rfl
  refine h.toggled false hS (removeUserFromChannel_shape who hS hch) hch hu
    (by simp [hwho]) ?_ (fun ch hin hne => ?_) hmem (fun c => ?_) (fun ch => ?_)
    fun c => ?_
  · rw [hb]
    split
    · exact List.erase_subset
    · exact List.Subset.refl _
  · -- The channel that is destroyed has lost its last member.
    rw [hb]
    split
    · next hle =>
        refine (List.mem_erase_of_ne ?_).mpr hin
        intro he
        rw [hmem, if_pos he, he, (h.users_le_one hS hch hwho).mp hle] at hne
        exact hne (List.erase_cons_head ..)
    · exact hin
  · rw [hroster (.channel c) trivial, partLists_channel]
    split
    · next hw =>
        rw [hw]
        rfl
    · rfl
  · rw [hchan]
    split
    · next he =>
        rw [he, Function.update_self]
        rfl
    · next he => rw [Function.update_of_ne he]
  · rw [hj, Function.update_apply]
    split
    · next hw =>
        rw [hw]
        rfl
    · rfl

/-! ## Runs -/

theorem ChanSt.init_joined (E : ChanEnv) : Joined E ChanSt.init := by
  have hl : ∀ l, ChanSt.init.lists l = [] := (Contents.empty Ptr.null).data
  refine ⟨⟨?_, ?_, ?_, ?_⟩, ?_, ?_, ?_⟩
  · intro ch hch
    cases hch
  · intro ch hch
    cases hch
  · intro ch hch
    cases hch
  · intro c
    rw [hl]
    rfl
  · intro ch hch
    cases hch
  · intro c
    rw [hl]
    exact List.nodup_nil
  · intro c ch hin
    rw [hl] at hin
    cases hin

theorem step_joined (s : ChanSt) (op : ChanOp) (s' : ChanSt)
    (hI : Shape E s ∧ Joined E s) (hG : s.Disciplined op)
    (hs : s.step E op = .ok s') : Shape E s' ∧ Joined E s' := by
  refine ⟨step_shape s op s' hI.1 hs, ?_⟩
  obtain ⟨hS, hJ⟩ := hI
  cases stepped hs with
  | found => exact hJ
  | created => exact newChannel_joined_inv hS hJ
  | setMode chptr =>
      refine hJ.congr (fun _ _ => rfl) (fun ch => ?_) rfl rfl
      by_cases he : ch = chptr
      · rw [he]
        simp
      · simp [Function.update_of_ne he]
  | addUser _ _ _ hch => exact addUserToChannel_joined hS hJ hch hG
  | removeUser _ _ hch => exact removeUserFromChannel_joined_inv hS hJ hch hG
  | addInvite cptr chptr =>
      refine hJ.congr (fun l hl => ?_) (fun _ => rfl) rfl rfl
      rw [ChanSt.lists, (addInvite_contents E hS.contents cptr chptr).data, hl.kept]
  | delInvite cptr chptr =>
      refine hJ.congr (fun l hl => ?_) (fun _ => rfl) rfl rfl
      rw [ChanSt.lists, (delInvite_contents hS.contents cptr chptr).data, hl.kept]

/-- The lists of users hold channels, and nothing else. -/
def ChannelLists (s : ChanSt) : Prop :=
  ∀ c, ∀ p ∈ s.lists (.channel c), ∃ ch, p = .channel ch

theorem removeUserFromChannel_channelLists {who chptr : Nat} (hS : Shape E s)
    (hu : E.user who = true) (h : ChannelLists s) :
    ChannelLists (removeUserFromChannel E who chptr s) := by
  intro c p hp
  rw [removeUserFromChannel_roster chptr hS hu (l := .channel c) trivial] at hp
  exact h c p (mem_partLists hp)

theorem step_channelLists (op : ChanOp) (s' : ChanSt) (hS : Shape E s) (hJ : Joined E s)
    (hG : s.Disciplined op) (hs : s.step E op = .ok s') (h : ChannelLists s) :
    ChannelLists s' := by
  cases stepped hs with
  | found => exact h
  | created =>
      intro c p hp
      rw [newChannel_channel hS] at hp
      exact h c p hp
  | setMode => exact h
  | addUser chptr who flags =>
      by_cases hu : E.user who = true
      · intro c p hp
        rw [addUserToChannel_lists chptr flags hS hu] at hp
        by_cases hc : c = who
        · rw [hc, Function.update_self] at hp
          rcases List.mem_cons.mp hp with rfl | hp
          · exact ⟨chptr, rfl⟩
          · exact h who p hp
        · rw [Function.update_of_ne (by simp [hc]), Function.update_of_ne (by simp)] at hp
          exact h c p hp
      · rw [addUserToChannel, if_neg hu]
        exact h
  | removeUser who chptr hch =>
      exact removeUserFromChannel_channelLists hS (hJ.user chptr hch who hG) h
  | addInvite cptr chptr =>
      intro c p hp
      rw [ChanSt.lists, (addInvite_contents E hS.contents cptr chptr).data,
        ListId.IsRoster.kept (l := .channel c) trivial] at hp
      exact h c p hp
  | delInvite cptr chptr =>
      intro c p hp
      rw [ChanSt.lists, (delInvite_contents hS.contents cptr chptr).data,
        ListId.IsRoster.kept (l := .channel c) trivial] at hp
      exact h c p hp

/-- A membership state: what every disciplined run reaches. -/
structure Seated (E : ChanEnv) (s : ChanSt) : Prop where
  shape : Shape E s
  joined : Joined E s
  channels : ChannelLists s

theorem step_seated (s : ChanSt) (op : ChanOp) (s' : ChanSt) (h : Seated E s)
    (hG : s.Disciplined op) (hs : s.step E op = .ok s') : Seated E s' := by
  obtain ⟨hS', hJ'⟩ := step_joined s op s' ⟨h.shape, h.joined⟩ hG hs
  exact ⟨hS', hJ', step_channelLists op s' h.shape h.joined hG hs h.channels⟩

theorem run_seated (E : ChanEnv) (ops : List ChanOp) (s : ChanSt)
    (hr : run (ChanSt.step E) ChanSt.init ops = .ok s)
    (hG : Meets (ChanSt.step E) Disciplined ChanSt.init ops) : Seated E s := by
  refine run_invariant_of_meets step_seated ops ⟨init_shape E, init_joined E, ?_⟩ hG hr
  intro c p hp
  rw [show ChanSt.init.lists (.channel c) = [] from (Contents.empty Ptr.null).data _] at hp
  cases hp

/-- A step takes a channel away exactly when its last member leaves by it. -/
theorem step_removes {op : ChanOp} {s' : ChanSt} (hS : Shape E s) (hJ : Joined E s)
    (hG : s.Disciplined op) (hs : s.step E op = .ok s') {ch : Nat}
    (hch : ch ∈ s.blocks) :
    ch ∉ s'.blocks ↔ ∃ who, op = .removeUser who ch ∧ s.membersOf ch = [who] := by
  have hkeep : s.blocks ⊆ s'.blocks → (∀ who, op ≠ .removeUser who ch) →
      (ch ∉ s'.blocks ↔ ∃ who, op = .removeUser who ch ∧ s.membersOf ch = [who]) :=
    fun hsub hne => iff_of_false (fun h => h (hsub hch))
      fun ⟨who, he, _⟩ => hne who he
  cases stepped hs with
  | found => exact hkeep (List.Subset.refl _) (by simp)
  | created =>
      refine hkeep ?_ (by simp)
      rw [newChannel_blocks]
      exact List.subset_cons_self ..
  | setMode => exact hkeep (List.Subset.refl _) (by simp)
  | addUser chptr who flags =>
      refine hkeep ?_ (by simp)
      simp only [addUserToChannel]
      split
      · exact List.Subset.refl _
      · exact List.Subset.refl _
  | removeUser who chptr hlive =>
      have hu := hJ.user chptr hlive who hG
      have hlast := hJ.users_le_one hS hlive hG
      rw [removeUserFromChannel_blocks s chptr hu]
      by_cases he : ch = chptr
      · subst he
        split
        · next hle =>
            exact iff_of_true hS.nodup.not_mem_erase ⟨who, rfl, hlast.mp hle⟩
        · next hle =>
            refine iff_of_false (fun h => h hch) ?_
            rintro ⟨w, hw, hone⟩
            cases hw
            exact hle (hlast.mpr hone)
      · refine iff_of_false (fun h => h ?_) ?_
        · split
          · exact (List.mem_erase_of_ne he).mpr hch
          · exact hch
        · rintro ⟨w, hw, -⟩
          cases hw
          exact he rfl
  | addInvite => exact hkeep (List.Subset.refl _) (by simp)
  | delInvite => exact hkeep (List.Subset.refl _) (by simp)

/-- In every disciplined run the four records agree for every live channel,
and the next step takes a channel out of the list and out of the table
exactly when its last member leaves by it. -/
theorem membership_exact (E : ChanEnv) (ops : List ChanOp) (s : ChanSt)
    (hr : run (ChanSt.step E) ChanSt.init ops = .ok s)
    (hG : Meets (ChanSt.step E) Disciplined ChanSt.init ops) :
    s.Rostered s.channels ∧
      ∀ op s', s.Disciplined op → s.step E op = .ok s' → ∀ ch ∈ s.channels,
        (ch ∉ s'.channels ↔
          ∃ who, op = .removeUser who ch ∧ s.membersOf ch = [who]) ∧
        (ch ∉ s'.channels ↔ ¬ s'.Hashed ch) := by
  obtain ⟨hS, hJ⟩ : Shape E s ∧ Joined E s :=
    run_invariant_of_meets step_joined ops ⟨init_shape E, init_joined E⟩ hG hr
  rw [hS.channels]
  refine ⟨hJ.toRostered, fun op s' hop hs ch hch => ?_⟩
  have hS' := step_shape s op s' hS hs
  rw [hS'.channels]
  exact ⟨step_removes hS hJ hop hs hch, not_congr (hS'.hashed ch)⟩

/-- The theorem at a run in which two clients join `#a` and one leaves, and at
the step by which the other one leaves. -/
theorem membership_exact_two :
    ∃ s s', run (ChanSt.step ⟨0, Allocator.bump, fun _ => true⟩) ChanSt.init
        [.createChannel ⟨-1, 0⟩ [0x23, 0x61] false, .addUser 1 5 0,
          .addUser 1 6 0, .removeUser 5 1] = .ok s ∧
      s.step ⟨0, Allocator.bump, fun _ => true⟩ (.removeUser 6 1) = .ok s' ∧
      s.Rostered s.channels ∧ 1 ∉ s'.channels := by
  have h := membership_exact ⟨0, Allocator.bump, fun _ => true⟩
    [.createChannel ⟨-1, 0⟩ [0x23, 0x61] false, .addUser 1 5 0,
      .addUser 1 6 0, .removeUser 5 1] _ rfl (by decide)
  exact ⟨_, _, rfl, rfl, h.1, (h.2 (.removeUser 6 1) _ (by decide) rfl 1
    (by decide)).1.mpr ⟨6, rfl, by decide⟩⟩

end TrIrcd
