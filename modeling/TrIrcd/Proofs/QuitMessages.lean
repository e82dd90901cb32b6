import TrIrcd.Proofs.Fanout

/-!
# Who learns of a quit

`send_quit_to_common_channels` takes the channels of a client in turn, tells
their members, and takes the client off. Whoever listens is told on the first
open channel it shares (`Told`), with a QUIT if the client may speak there and
with a PART of that channel if not. The mark it gets is never taken back, so a
PART of the first channel is the last a member hears, also about the others
(`quit_informed`).
-/

namespace TrIrcd

open Function (update)
open TrIrcd.Lib ChanSt Fan

/-! ## The list that is consumed -/

section

variable {E : ChanEnv} {s : ChanSt} {chptr who ptr : Nat}

/-- The loop over the invitations does not touch the list of a user. -/
theorem sub1InviteLoop_head (who : Nat) :
    ∀ (fuel : Nat) (tmp : Option Nat) (D : Dlinks ListId Ptr),
      (sub1InviteLoop chptr fuel tmp D).head (.channel who) = D.head (.channel who) := by
  have hdel : ∀ (l : ListId) (p : Ptr → Bool) (D : Dlinks ListId Ptr), l ≠ .channel who →
      (dlinkDeleteFirst l p D).head (.channel who) = D.head (.channel who) := by
    intro l p D hne
    rw [dlinkDeleteFirst]
    split
    · exact (dlinkDelete_head _ l D (.channel who)).trans (if_neg (Ne.symm hne))
    · rfl
  intro fuel
  induction fuel with
  | zero => exact fun _ _ => rfl
  | succ fuel ih =>
      intro tmp D
      cases tmp with
      | none => rfl
      | some tmp =>
          rw [sub1InviteLoop]
          split
          · rfl
          · split
            · rw [ih, delInvite, hdel _ _ _ (by simp), hdel _ _ _ (by simp)]
            · exact ih _ _

/-- Taking a client off its first channel leaves the list at what was next. -/
theorem removeUserFromChannel_head (hS : Shape E s) (hu : E.user who = true)
    (hh : s.dl.head (.channel who) = some ptr) (hd : s.dl.data ptr = .channel chptr) :
    (removeUserFromChannel E who chptr s).dl.head (.channel who) = s.dl.next ptr := by
  have hpart : (partUser who chptr s).dl.head (.channel who) = s.dl.next ptr := by
    obtain ⟨hh₁, hnext, hdata⟩ := hS.contents.deleteFirst_off (l := .channel who)
      (k := .members chptr) (by simp) (Ptr.isMember who) hh
    have hc := hS.contents.deleteFirst (.members chptr) (Ptr.isMember who)
    rw [partUser, removeChanmember_eq hS]
    dsimp only
    rw [← hnext]
    obtain ⟨as, hC, -, hhead⟩ := hc.deleteHead hh₁
    obtain ⟨V, hV, hCV⟩ := hc
    have hfind : dlinkFind (.channel who) (· = .channel chptr)
        (dlinkDeleteFirst (.members chptr) (Ptr.isMember who) s.dl) = some ptr := by
      rw [hV.find]
      rw [(hV.dlist (.channel who)).1.head_eq] at hh₁
      cases hv : V (.channel who) with
      | nil => rw [hv] at hh₁; cases hh₁
      | cons x xs =>
          rw [hv] at hh₁
          cases hh₁
          rw [List.find?_cons_of_pos]
          rw [hdata, hd]
          exact decide_eq_true rfl
    rw [dlinkDeleteFirst, hfind]
    exact hhead
  rw [removeUserFromChannel_eq s chptr hu, sub1FromChannel_eq]
  split
  · rw [destroyChannel_dl, sub1InviteLoop_head]
    exact hpart
  · exact hpart

end

/-! ## One channel after the other -/

section

variable {F : FanEnv} {cs : Nat → Prop} {source : Nat} {s : ChanSt}

/-- What the members of a channel are sent. -/
def FanEnv.quitMsg (F : FanEnv) (source chptr : Nat) : FanMsg :=
  if F.canSend source chptr = 0 then .quit else .part chptr

/-- Taking a client off a channel. -/
theorem Seated.remove {E : ChanEnv} (h : Seated E s) {ch : Nat} (hch : ch ∈ s.blocks)
    (hin : source ∈ s.membersOf ch) : Seated E (removeUserFromChannel E source ch s) where
  shape := removeUserFromChannel_shape source h.shape hch
  joined := removeUserFromChannel_joined_inv h.shape h.joined hch hin
  channels := removeUserFromChannel_channelLists h.shape (h.joined.user ch hch source hin)
    h.channels

/-- The other channels keep their members and modes. -/
theorem removeUserFromChannel_other {E : ChanEnv} (hS : Shape E s) (hu : E.user source = true)
    {ch k : Nat} (hne : k ≠ ch) :
    (removeUserFromChannel E source ch s).membersOf k = s.membersOf k ∧
      ((removeUserFromChannel E source ch s).chan k).isAnon = (s.chan k).isAnon := by
  constructor
  · rw [membersOf, removeUserFromChannel_roster ch hS hu (l := .members k) trivial,
      partLists_members, if_neg hne, membersOf]
  · rw [removeUserFromChannel_chan s ch hu, Function.update_of_ne hne]

/-- The inner loop for one channel of the source, or its being passed over. -/
theorem quitChannel_told (hw : Wired F cs) (hsource : cs source)
    (hopen : ∀ c, cs c → F.Listens source c → (F.peer c).closing = false) {done : List Nat}
    {ch : Nat} {f : Fan} (hs : Seated F.toChanEnv f.st) (hch : ch ∈ f.st.blocks)
    (hcs : ∀ c ∈ s.membersOf ch, cs c) (hmem : f.st.membersOf ch = s.membersOf ch)
    (hanon : (f.st.chan ch).isAnon = (s.chan ch).isAnon)
    (hf : Told F cs source s (F.quitMsg source) done f) :
    ∃ f', (if (f.st.chan ch).isAnon then .ok (false, f)
        else tellLoop F source (F.quitMsg source ch) true f.st.dl.used.length
          (f.st.dl.head (.members ch)) f) = .ok (false, f') ∧ f'.st = f.st ∧
      Told F cs source s (F.quitMsg source) (done ++ [ch]) f' := by
  split
  · next h => exact ⟨f, rfl, rfl, hf.skip (hanon.symm.trans h)⟩
  · next h =>
      rw [← hmem] at hcs
      obtain ⟨f', hrun, hf'⟩ := tellLoop_members (F.quitMsg source ch) hw hsource
        (fun _ => hopen) hs.shape hs.joined hch hcs
      rw [hmem] at hcs hf'
      exact ⟨f', hrun, hf'.st, hf.spread (hanon ▸ Bool.not_eq_true _ ▸ h) hcs hf'⟩

/-- The outer loop: it ends, the source is off every channel, and the members of
all of them were told. The turns left cover the channels left. -/
theorem quitLoop_told (hw : Wired F cs) (hsource : cs source)
    (hopen : ∀ c, cs c → F.Listens source c → (F.peer c).closing = false) (rest : List Nat) :
    ∀ {fuel : Nat} {done : List Nat} {f : Fan}, rest.length < fuel → Seated F.toChanEnv f.st →
      f.st.lists (.channel source) = rest.map Ptr.channel →
      (∀ ch ∈ rest, (∀ c ∈ s.membersOf ch, cs c) ∧ f.st.membersOf ch = s.membersOf ch ∧
        (f.st.chan ch).isAnon = (s.chan ch).isAnon) →
      Told F cs source s (F.quitMsg source) done f →
      ∃ f', quitLoop F source fuel (f.st.dl.head (.channel source)) f = .ok f' ∧
        Seated F.toChanEnv f'.st ∧ f'.st.lists (.channel source) = [] ∧
        Told F cs source s (F.quitMsg source) (done ++ rest) f' := by
  induction rest with
  | nil =>
      intro fuel done f hfuel hs hl _ hf
      cases fuel with
      | zero => cases hfuel
      | succ fuel =>
          have hnone : f.st.dl.head (.channel source) = none :=
            hs.shape.contents.head_eq_none.mpr hl
          rw [hnone, List.append_nil]
          exact ⟨f, rfl, hs, hl, hf⟩
  | cons ch rest ih =>
      intro fuel done f hfuel hs hl hrest hf
      cases fuel with
      | zero => cases hfuel
      | succ fuel =>
          obtain ⟨⟨hcs, hmem, hanon⟩, hrest⟩ := List.forall_mem_cons.mp hrest
          have hin : .channel ch ∈ f.st.lists (.channel source) := by
            rw [hl]
            exact List.mem_cons_self ..
          have hch := hs.joined.live source ch hin
          have hon := (hs.joined.mem ch hch source).mpr hin
          have hu := hs.joined.user ch hch source hon
          obtain ⟨ptr, hh, hd⟩ : ∃ ptr, f.st.dl.head (.channel source) = some ptr ∧
              f.st.dl.data ptr = .channel ch := by
            cases hh : f.st.dl.head (.channel source) with
            | none =>
                rw [hs.shape.contents.head_eq_none.mp hh] at hl
                cases hl
            | some ptr =>
                obtain ⟨as, hC, -⟩ := hs.shape.contents.deleteHead hh
                rw [hl] at hC
                exact ⟨ptr, rfl, (List.cons.inj hC).1.symm⟩
          obtain ⟨f₁, hrun, hst, hf₁⟩ :=
            quitChannel_told hw hsource hopen hs hch hcs hmem hanon hf
          have hnodup := hs.joined.nodup source
          rw [hl] at hnodup
          obtain ⟨hnew, -⟩ := List.nodup_cons.mp hnodup
          have hother : ∀ k ∈ rest, k ≠ ch := by
            intro k hk he
            rw [he] at hk
            exact hnew (List.mem_map_of_mem hk)
          have hl' : (removeUserFromChannel F.toChanEnv source ch f.st).lists (.channel source) =
              rest.map Ptr.channel := by
            rw [removeUserFromChannel_roster ch hs.shape hu (l := .channel source) trivial,
              partLists_channel, if_pos rfl, hl, List.map_cons, List.erase_cons_head]
          have hhead := removeUserFromChannel_head hs.shape hu hh hd
          have hgo := @ih fuel (done ++ [ch])
            { f₁ with st := removeUserFromChannel F.toChanEnv source ch f.st }
            (Nat.lt_of_succ_lt_succ hfuel) (hs.remove hch hon) hl'
            (fun k hk => by
              obtain ⟨hm, ha⟩ := removeUserFromChannel_other hs.shape hu (hother k hk)
              obtain ⟨hcsk, hmemk, hanonk⟩ := hrest k hk
              exact ⟨hcsk, hm.trans hmemk, ha.trans hanonk⟩)
            (hf₁.congr rfl rfl)
          rw [hhead, ← List.append_cons] at hgo
          rw [hh, quitLoop, hd]
          simp only [FanEnv.quitMsg] at hrun
          simp only [hrun, Except.bind, Bool.false_eq_true, if_false, hst]
          exact hgo

/-! ## Everybody who shares a channel -/

/-- The channel a node of a user's list stands for. -/
def Ptr.channel? : Ptr → Option Nat
  | .channel ch => some ch
  | _ => none

/-- The open channels two clients share, in the order of the first one's list. -/
def ChanSt.openChannels (s : ChanSt) (c d : Nat) : List Nat :=
  s.shared ((s.lists (.channel c)).filterMap Ptr.channel?) d

theorem openChannels_eq {chs : List Nat} (hl : s.lists (.channel source) = chs.map Ptr.channel)
    (d : Nat) : s.openChannels source d = s.shared chs d := by
  have hid : Ptr.channel? ∘ Ptr.channel = some := rfl
  rw [openChannels, hl, List.filterMap_map, hid, List.filterMap_some]

/-- One QUIT, or a PART of each channel. -/
def Informed (chs : List Nat) (msgs : List FanMsg) : Prop :=
  msgs = [.quit] ∨ msgs.Perm (chs.map .part)

/-- A single message informs if it is a QUIT, or if there is one channel. -/
theorem informed_quitMsg {ch : Nat} {chs : List Nat} :
    Informed (ch :: chs) [F.quitMsg source ch] ↔ F.canSend source ch = 0 ∨ chs.length + 1 = 1 := by
  by_cases h0 : F.canSend source ch = 0
  · refine iff_of_true (Or.inl ?_) (Or.inl h0)
    rw [FanEnv.quitMsg, if_pos h0]
  · rw [FanEnv.quitMsg, if_neg h0, or_iff_right h0]
    constructor
    · intro hi
      rcases hi with hq | hp
      · cases hq
      · have hlen := hp.length_eq
        rw [List.length_map, List.length_cons] at hlen
        exact hlen.symm
    · intro hlen
      have hnil : chs = [] := List.length_eq_zero_iff.mp (Nat.succ.inj hlen)
      rw [hnil]
      exact Or.inr (List.Perm.refl _)

/-- The quit ends, and the source is on no channel. Who listens and shares an
open channel is informed if and only if the source may speak on the first of
those they share, or they share no other. -/
theorem quit_informed (hw : Wired F cs) (hs : Seated F.toChanEnv s)
    (hcs : ∀ ch ∈ s.blocks, ∀ c ∈ s.membersOf ch, cs c) (hsource : cs source)
    (hopen : ∀ c, cs c → F.Listens source c → (F.peer c).closing = false) :
    ∃ f, sendQuitToCommonChannels F source s = .ok f ∧
      (f.st.lists (.channel source) = [] ∧ ∀ ch ∈ f.st.blocks, source ∉ f.st.membersOf ch) ∧
      ∀ d, F.Listens source d → s.SharesOpen source d →
        (Informed (s.openChannels source d) (f.msgsTo d) ↔
          (∀ ch ∈ (s.openChannels source d).head?, F.canSend source ch = 0) ∨
            (s.openChannels source d).length = 1) := by
  obtain ⟨chs, hl, _, hchs⟩ := hs.chans source
  obtain ⟨f₀, hmark, rfl, hf₀⟩ := @markSource_told F cs source s (F.quitMsg source) hw hsource
  have hfuel : chs.length < f₀.st.dl.used.length + maxConnections + 1 := by
    have hle := hs.shape.contents.length_le (.channel source)
    rw [hl, List.length_map] at hle
    omega
  obtain ⟨f, hrun, hs', hl', hf⟩ := quitLoop_told hw hsource hopen chs hfuel hs hl
    (fun ch hch => ⟨hcs ch ((hchs ch).mp hch).1, rfl, rfl⟩) hf₀
  refine ⟨f, ?_, ⟨hl', fun ch hch hin => ?_⟩, fun d hd hshare => ?_⟩
  · rw [sendQuitToCommonChannels, hmark]
    exact hrun
  · have hon := (hs'.joined.mem ch hch source).mp hin
    rw [hl'] at hon
    cases hon
  · have hne := (shared_ne_nil hchs).mpr hshare
    rw [openChannels_eq hl, hf.sent d hd, List.nil_append]
    cases hsh : f₀.st.shared chs d with
    | nil => exact absurd hsh hne
    | cons ch rest =>
        rw [List.head?_cons, Option.map_some, Option.toList_some, informed_quitMsg]
        refine or_congr_left ⟨fun h ch' hch' => ?_, fun h => h ch rfl⟩
        cases hch'
        exact h

end

/-- The client 5 leaves two channels it shares with 8, and may not speak on the
first. All 8 gets is a PART of that one. -/
theorem muted_not_informed :
    ∃ s f, run (ChanSt.step (trioEnv [2]).toChanEnv) ChanSt.init trioOps = .ok s ∧
      sendQuitToCommonChannels (trioEnv [2]) 5 s = .ok f ∧ s.SharesOpen 5 8 ∧
      s.openChannels 5 8 = [2, 1] ∧ f.msgsTo 8 = [.part 2] ∧
      ¬ Informed (s.openChannels 5 8) (f.msgsTo 8) := by
  refine ⟨_, _, rfl, rfl, ⟨1, by decide, by decide, by decide, by decide⟩, by decide, by decide, ?_⟩
  intro hi
  rcases hi with hq | hp
  · exact absurd hq (by decide)
  · exact absurd hp.length_eq (by decide)

/-- The theorem where it may speak on both. -/
theorem quit_informed_trio :
    ∃ s f, run (ChanSt.step (trioEnv []).toChanEnv) ChanSt.init trioOps = .ok s ∧
      sendQuitToCommonChannels (trioEnv []) 5 s = .ok f ∧
      Informed (s.openChannels 5 8) (f.msgsTo 8) := by
  have hs := run_seated (trioEnv []).toChanEnv trioOps _ rfl (by decide)
  obtain ⟨f, hrun, -, hf⟩ := quit_informed (trioEnv_wired []) hs (by decide)
    (by decide : 5 ∈ [5, 6, 7, 8]) (by decide)
  refine ⟨_, f, rfl, hrun, (hf 8 (by decide) ⟨1, by decide, by decide, by decide, by decide⟩).mpr ?_⟩
  exact Or.inl fun ch _ => rfl

end TrIrcd
