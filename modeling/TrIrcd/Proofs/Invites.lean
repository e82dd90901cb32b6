import TrIrcd.Lib.Toggle
import TrIrcd.Proofs.ChannelShape

/-!
# Invitations, until their channel goes

An invitation is a node on the channel's list and one on the client's.
`add_invite` and `del_invite` keep the two in step. The loop by which
`sub1_from_channel` withdraws the invitations of a channel it destroys does
not: it never looks at the first one, and the node it has just deleted, whose
link is cleared, is where it looks for the next. Whoever was invited first
stays invited to a block that is free.

So the lists stay exact in every run that destroys no channel with
invitations, and a step that does destroy one breaks them
(`invites_exact`).
-/

namespace TrIrcd

open Function (update)
open TrIrcd.Lib

namespace ChanSt

/-- The invitations to the channels `chs` are on both lists, once, and nobody
is invited anywhere else. -/
structure Invited (s : ChanSt) (chs : List Nat) : Prop where
  symm : ∀ ch ∈ chs, ∀ c,
    .channel ch ∈ s.lists (.invited c) ↔ .client c ∈ s.lists (.invites ch)
  onceInvited : ∀ c, (s.lists (.invited c)).Nodup
  onceInvites : ∀ ch ∈ chs, (s.lists (.invites ch)).Nodup
  live : ∀ c ch, .channel ch ∈ s.lists (.invited c) → ch ∈ chs

/-- The call does not destroy a channel that somebody is invited to. -/
def Uninvited (E : ChanEnv) (s : ChanSt) : ChanOp → Prop
  | .removeUser who ch => E.user who = true → (s.chan ch).users ≤ 1 →
      s.lists (.invites ch) = []
  | _ => True

instance (E : ChanEnv) (s : ChanSt) : ∀ op, Decidable (s.Uninvited E op)
  | .removeUser who ch => inferInstanceAs (Decidable (E.user who = true →
      (s.chan ch).users ≤ 1 → s.lists (.invites ch) = []))
  | .createChannel .. => .isTrue trivial
  | .setMode .. => .isTrue trivial
  | .addUser .. => .isTrue trivial
  | .addInvite .. => .isTrue trivial
  | .delInvite .. => .isTrue trivial

end ChanSt

open ChanSt

/-- The invitations, and that a channel's list names clients. -/
structure Invitations (s : ChanSt) : Prop extends s.Invited s.blocks where
  clients : ∀ ch ∈ s.blocks, ∀ p ∈ s.lists (.invites ch), ∃ c, p = .client c

variable {E : ChanEnv} {s : ChanSt}

/-- Fewer blocks, and the invitations of those that stay as they were. -/
theorem Invitations.congr {s' : ChanSt} (h : Invitations s)
    (hb : s'.blocks ⊆ s.blocks)
    (hin : ∀ ch ∈ s'.blocks, s'.lists (.invites ch) = s.lists (.invites ch))
    (hc : ∀ c, s'.lists (.invited c) = s.lists (.invited c))
    (hlive : ∀ c ch, .channel ch ∈ s.lists (.invited c) → ch ∈ s'.blocks) :
    Invitations s' := by
  refine ⟨⟨?_, ?_, ?_, ?_⟩, ?_⟩
  · intro ch hch c
    rw [hin ch hch, hc]
    exact h.symm ch (hb hch) c
  · intro c
    rw [hc]
    exact h.onceInvited c
  · intro ch hch
    rw [hin ch hch]
    exact h.onceInvites ch (hb hch)
  · intro c ch hmem
    rw [hc] at hmem
    exact hlive c ch hmem
  · intro ch hch p hp
    rw [hin ch hch] at hp
    exact h.clients ch (hb hch) p hp

theorem newChannel_invitations {name : List UInt8} (hS : Shape E s)
    (h : Invitations s) : Invitations (newChannel E name s).2 := by
  have hfresh := newChannel_fresh E name s
  have hl := newChannel_lists name hS
  have hc : ∀ c, (newChannel E name s).2.lists (.invited c) =
      s.lists (.invited c) := fun c => by
    rw [hl, Function.update_of_ne (by simp), Function.update_of_ne (by simp)]
  have hin : ∀ ch, ch ≠ (newChannel E name s).1 →
      (newChannel E name s).2.lists (.invites ch) = s.lists (.invites ch) :=
    fun ch hne => by
      rw [hl, Function.update_of_ne (by simp [hne]), Function.update_of_ne (by simp)]
  have hnew : (newChannel E name s).2.lists (.invites (newChannel E name s).1) = [] := by
    rw [hl, Function.update_self]
  refine ⟨⟨?_, ?_, ?_, ?_⟩, ?_⟩
  · intro ch hch c
    rw [hc]
    rcases newChannel_live E name s hch with rfl | ⟨hne, hch⟩
    · rw [hnew]
      exact iff_of_false (fun hm => hfresh (h.live c _ hm)) (by simp)
    · rw [hin ch hne]
      exact h.symm ch hch c
  · intro c
    rw [hc]
    exact h.onceInvited c
  · intro ch hch
    rcases newChannel_live E name s hch with rfl | ⟨hne, hch⟩
    · rw [hnew]
      exact List.nodup_nil
    · rw [hin ch hne]
      exact h.onceInvites ch hch
  · intro c ch hm
    rw [hc] at hm
    rw [newChannel_blocks]
    exact List.mem_cons_of_mem _ (h.live c ch hm)
  · intro ch hch p hp
    rcases newChannel_live E name s hch with rfl | ⟨hne, hch⟩
    · rw [hnew] at hp
      cases hp
    · rw [hin ch hne] at hp
      exact h.clients ch hch p hp

/-! ## Inviting -/

/-- Both lists get the invitation at their head, or lose it. -/
theorem Invitations.toggled {s' : ChanSt} {cptr chptr : Nat} (on : Bool)
    (h : Invitations s) (hch : chptr ∈ s.blocks) (hb : s'.blocks = s.blocks)
    (hl : s'.lists =
      update (update s.lists (.invites chptr)
          (toggle on (.client cptr) (s.lists (.invites chptr))))
        (.invited cptr) (toggle on (.channel chptr) (s.lists (.invited cptr)))) :
    Invitations s' := by
  have hin : ∀ ch, s'.lists (.invites ch) =
      if ch = chptr then toggle on (.client cptr) (s.lists (.invites ch))
      else s.lists (.invites ch) := by
    intro ch
    rw [hl, Function.update_of_ne (by simp)]
    split
    · next he => rw [he, Function.update_self]
    · next he => rw [Function.update_of_ne (by simp [he])]
  have hc : ∀ c, s'.lists (.invited c) =
      if c = cptr then toggle on (.channel chptr) (s.lists (.invited c))
      else s.lists (.invited c) := by
    intro c
    rw [hl]
    split
    · next hw => rw [hw, Function.update_self]
    · next hw =>
        rw [Function.update_of_ne (by simp [hw]), Function.update_of_ne (by simp)]
  have hmemi : ∀ ch ∈ s.blocks, ∀ p, p ∈ s'.lists (.invites ch) ↔
      if ch = chptr ∧ p = .client cptr then on = true
      else p ∈ s.lists (.invites ch) := by
    intro ch hmem p
    rw [hin, mem_ite_toggle (h.onceInvites ch hmem)]
  have hmemc : ∀ c ch, .channel ch ∈ s'.lists (.invited c) ↔
      if ch = chptr ∧ c = cptr then on = true
      else .channel ch ∈ s.lists (.invited c) := by
    intro c ch
    rw [hc, mem_ite_toggle (h.onceInvited c)]
    simp only [Ptr.channel.injEq, and_comm]
  refine ⟨⟨?_, ?_, ?_, ?_⟩, ?_⟩
  · intro ch hmem c
    rw [hb] at hmem
    rw [hmemc, hmemi ch hmem, h.symm ch hmem c]
    simp only [Ptr.client.injEq]
  · intro c
    rw [hc]
    exact nodup_ite_toggle (h.onceInvited c)
  · intro ch hmem
    rw [hb] at hmem
    rw [hin]
    exact nodup_ite_toggle (h.onceInvites ch hmem)
  · intro c ch hm
    rw [hb]
    rw [hmemc] at hm
    split at hm
    · next hand => rw [hand.1]; exact hch
    · exact h.live c ch hm
  · intro ch hmem p hp
    rw [hb] at hmem
    rw [hmemi ch hmem] at hp
    split at hp
    · next hand => exact ⟨cptr, hand.2⟩
    · exact h.clients ch hmem p hp

/-! ## Withdrawing the invitations of a channel that goes -/

/-- `del_invite` clears the link of the node it takes off the channel's
list, and what it then does to the client's list does not put it back. -/
theorem delInvite_next {D : Dlinks ListId Ptr} {V : ListId → List Nat}
    (hV : Represents D V) {cptr chptr m : Nat} {as bs : List Nat}
    (hv : V (.invites chptr) = as ++ m :: bs) (hm : D.data m = .client cptr)
    (has : ∀ x ∈ as, D.data x ≠ .client cptr) :
    (delInvite cptr chptr D).next m = none := by
  have hfind : dlinkFind (.invites chptr) (· = .client cptr) D = some m := by
    rw [hV.find, hv, List.find?_append, List.find?_eq_none.mpr (by simpa using has)]
    simp [hm]
  have hV' := hV.deleteNode hv
  have hfirst : dlinkDeleteFirst (.invites chptr) (· = .client cptr) D =
      dlinkDeleteNode m (.invites chptr) D := by
    rw [dlinkDeleteFirst, hfind]
  have hoff : ∀ l, m ∉ update V (.invites chptr) (as ++ bs) l := by
    obtain ⟨-, -, hma, hmb⟩ := hV.threaded.links hv
    intro l hl
    by_cases he : l = .invites chptr
    · rw [he, Function.update_self] at hl
      exact (List.mem_append.mp hl).elim hma hmb
    · rw [Function.update_of_ne he] at hl
      exact he (hV.apart hl (by rw [hv]; simp))
  have hnone : (dlinkDeleteNode m (.invites chptr) D).next m = none :=
    dlinkDelete_next_self m _ D
  rw [delInvite, hfirst, dlinkDeleteFirst, hV'.find]
  split
  · next y hy =>
      -- `y` is a node of the client's list, and so is the node before it.
      have hin := List.mem_of_find?_eq_some hy
      obtain ⟨as', bs', hsplit⟩ := List.append_of_mem hin
      have hy' : m ≠ y := by
        intro heq
        subst heq
        exact hoff _ hin
      show (dlinkDelete y _ (dlinkDeleteNode m (.invites chptr) D)).next m = none
      rw [dlinkDelete_next, Function.update_of_ne hy']
      cases hp : (dlinkDeleteNode m (.invites chptr) D).prev y with
      | none => exact hnone
      | some p =>
          have hmp : m ≠ p := by
            intro heq
            subst heq
            rw [(hV'.threaded.links hsplit).2.1] at hp
            refine hoff (.invited cptr) ?_
            rw [hsplit]
            exact List.mem_append_left _ (List.mem_of_getLast? hp)
          simp only [Function.update_of_ne hmp]
          exact hnone
  · exact hnone

/-- Whoever is first on the channel's list keeps the invitation. -/
theorem sub1InviteLoop_keeps {D : Dlinks ListId Ptr} {C : ListId → List Ptr}
    (hc : Contents D C) {chptr c : Nat} {ps : List Ptr}
    (hl : C (.invites chptr) = .client c :: ps) (hnd : (C (.invites chptr)).Nodup)
    (hcl : ∀ p ∈ ps, ∃ d, p = .client d) (fuel : Nat) :
    dlinkData (.invited c)
        (sub1InviteLoop chptr fuel (D.head (.invites chptr)) D) = C (.invited c) := by
  obtain ⟨V, hV, hC⟩ := id hc
  rw [hC] at hl
  obtain ⟨m, ms, hv, hm, hms⟩ := List.map_eq_cons_iff.mp hl
  have hd := hV.dlist (.invites chptr)
  rw [hv] at hd
  rw [hd.1.1]
  cases fuel with
  | zero => exact hc.data _
  | succ fuel =>
      have hnext : D.next m = ms.head? :=
        (hV.threaded.links (show V (.invites chptr) = [] ++ m :: ms from hv)).1
      rw [sub1InviteLoop, hnext]
      cases ms with
      | nil => exact hc.data _
      | cons m' ms =>
          obtain ⟨d, hd'⟩ := hcl (D.data m') (by rw [← hms]; simp)
          have hne : c ≠ d := by
            intro heq
            subst heq
            rw [hC, hv] at hnd
            simp [hm, hd'] at hnd
          have hstop : (delInvite d chptr D).next m' = none :=
            delInvite_next hV (show V (.invites chptr) = [m] ++ m' :: ms from hv)
              hd' (by simp [hm, hne])
          have hdone : sub1InviteLoop chptr fuel (some m') (delInvite d chptr D) =
              delInvite d chptr D := by
            cases fuel with
            | zero => rfl
            | succ fuel => rw [sub1InviteLoop, hstop]
          simp only [List.head?_cons, hd', hdone]
          rw [(delInvite_contents hc d chptr).data, Function.update_of_ne (by simp [hne]),
            Function.update_of_ne (by simp)]

theorem partLists_invites {who chptr : Nat} {C : ListId → List Ptr} (ch : Nat) :
    partLists who chptr C (.invites ch) = C (.invites ch) := by
  rw [partLists, Function.update_of_ne (by simp), Function.update_of_ne (by simp)]

theorem partLists_invited {who chptr : Nat} {C : ListId → List Ptr} (c : Nat) :
    partLists who chptr C (.invited c) = C (.invited c) := by
  rw [partLists, Function.update_of_ne (by simp), Function.update_of_ne (by simp)]

theorem removeUserFromChannel_invitations {who chptr : Nat} (hS : Shape E s)
    (h : Invitations s) (hch : chptr ∈ s.blocks)
    (hG : s.Uninvited E (.removeUser who chptr)) :
    Invitations (removeUserFromChannel E who chptr s) := by
  by_cases hu : E.user who = true
  · have hl := removeUserFromChannel_lists chptr hS hu (hG hu)
    have hb := removeUserFromChannel_blocks s chptr hu
    refine h.congr ?_ (fun ch _ => ?_) (fun c => ?_) fun c ch hin => ?_
    · rw [hb]
      split
      · exact List.erase_subset
      · exact List.Subset.refl _
    · rw [hl, partLists_invites]
    · rw [hl, partLists_invited]
    · have hlive := h.live c ch hin
      rw [hb]
      split
      · next hle =>
          refine (List.mem_erase_of_ne ?_).mpr hlive
          intro heq
          subst heq
          have hinv := (h.symm ch hlive c).mp hin
          rw [hG hu hle] at hinv
          cases hinv
      · exact hlive
  · have hc := hS.contents.deleteFirst (.members chptr) (Ptr.isMember who)
    rw [← removeChanmember_eq hS] at hc
    rw [removeUserFromChannel, if_neg hu]
    refine h.congr (List.Subset.refl _) (fun ch _ => ?_) (fun c => ?_) h.live
    · rw [ChanSt.lists, hc.data, Function.update_of_ne (by simp)]
    · rw [ChanSt.lists, hc.data, Function.update_of_ne (by simp)]

/-- A channel with invitations that is destroyed leaves somebody invited to
it. -/
theorem removeUserFromChannel_dangles {who chptr : Nat} (hS : Shape E s)
    (h : Invitations s) (hch : chptr ∈ s.blocks)
    (hG : ¬ s.Uninvited E (.removeUser who chptr)) :
    ∃ c, .channel chptr ∈ (removeUserFromChannel E who chptr s).lists (.invited c) ∧
      chptr ∉ (removeUserFromChannel E who chptr s).blocks := by
  simp only [Uninvited, not_forall] at hG
  obtain ⟨hu, hle, hne⟩ := hG
  obtain ⟨p, ps, hps⟩ := List.exists_cons_of_ne_nil hne
  have hcl : ∀ q ∈ s.lists (.invites chptr), ∃ c, q = .client c := h.clients chptr hch
  rw [hps] at hcl
  obtain ⟨c, rfl⟩ := hcl p (List.mem_cons_self ..)
  refine ⟨c, ?_, ?_⟩
  · have hc := partUser_contents who chptr hS
    have hfirst : partLists who chptr s.lists (.invites chptr) = .client c :: ps := by
      rw [partLists_invites, hps]
    have hkeep := sub1InviteLoop_keeps hc hfirst
      (by rw [partLists_invites]; exact h.onceInvites chptr hch)
      (fun q hq => hcl q (List.mem_cons_of_mem _ hq))
      (partUser who chptr s).dl.used.length
    rw [partLists_invited] at hkeep
    have hle' : ((partUser who chptr s).chan chptr).users ≤ 1 := hle
    rw [removeUserFromChannel_eq s chptr hu, sub1FromChannel_eq, if_pos hle', ChanSt.lists,
      destroyChannel_dl]
    refine (show _ = s.lists (.invited c) from hkeep) ▸ ?_
    refine (h.symm chptr hch c).mpr ?_
    rw [hps]
    exact List.mem_cons_self ..
  · rw [removeUserFromChannel_blocks s chptr hu, if_pos hle]
    exact hS.nodup.not_mem_erase

/-! ## Runs -/

theorem ChanSt.init_invitations : Invitations ChanSt.init := by
  have hl : ∀ l, ChanSt.init.lists l = [] := (Contents.empty Ptr.null).data
  refine ⟨⟨?_, ?_, ?_, ?_⟩, ?_⟩
  · intro ch hch
    cases hch
  · intro c
    rw [hl]
    exact List.nodup_nil
  · intro ch hch
    cases hch
  · intro c ch hin
    rw [hl] at hin
    cases hin
  · intro ch hch
    cases hch

theorem step_invitations (s : ChanSt) (op : ChanOp) (s' : ChanSt)
    (hI : Shape E s ∧ Invitations s) (hG : s.Uninvited E op)
    (hs : s.step E op = .ok s') : Shape E s' ∧ Invitations s' := by
  refine ⟨step_shape s op s' hI.1 hs, ?_⟩
  obtain ⟨hS, h⟩ := hI
  cases stepped hs with
  | found => exact h
  | created => exact newChannel_invitations hS h
  | setMode => exact h.congr (List.Subset.refl _) (fun _ _ => rfl) (fun _ => rfl) h.live
  | addUser chptr who flags =>
      by_cases hu : E.user who = true
      · have hl := addUserToChannel_lists chptr flags hS hu
        have hb : (addUserToChannel E chptr who flags s).2.blocks = s.blocks := by
          rw [addUserToChannel, if_pos hu]
        refine h.congr (by rw [hb]; exact List.Subset.refl _) (fun ch _ => ?_)
          (fun c => ?_) fun c ch hin => by rw [hb]; exact h.live c ch hin
        · rw [hl, Function.update_of_ne (by simp), Function.update_of_ne (by simp)]
        · rw [hl, Function.update_of_ne (by simp), Function.update_of_ne (by simp)]
      · rw [addUserToChannel, if_neg hu]
        exact h
  | removeUser _ _ hch => exact removeUserFromChannel_invitations hS h hch hG
  | addInvite cptr chptr hch =>
      have hc := addInvite_contents E hS.contents cptr chptr
      rw [eraseP_eq_erase, eraseP_eq_erase] at hc
      exact h.toggled true hch rfl hc.lists_eq
  | delInvite cptr chptr hch =>
      have hc := delInvite_contents hS.contents cptr chptr
      rw [eraseP_eq_erase, eraseP_eq_erase] at hc
      exact h.toggled false hch rfl hc.lists_eq

/-- In every run that destroys no channel with invitations the lists are
exact, and the next step keeps them so if and only if it destroys none
either. -/
theorem invites_exact (E : ChanEnv) (ops : List ChanOp) (s : ChanSt)
    (hr : run (ChanSt.step E) ChanSt.init ops = .ok s)
    (hG : Meets (ChanSt.step E) (Uninvited E) ChanSt.init ops) :
    s.Invited s.channels ∧ ∀ op s', s.step E op = .ok s' →
      (s'.Invited s'.channels ↔ s.Uninvited E op) := by
  obtain ⟨hS, h⟩ : Shape E s ∧ Invitations s :=
    run_invariant_of_meets step_invitations ops
      ⟨init_shape E, init_invitations⟩ hG hr
  rw [hS.channels]
  refine ⟨h.toInvited, fun op s' hs => ?_⟩
  have hS' := step_shape s op s' hS hs
  rw [hS'.channels]
  constructor
  · intro h'
    by_contra hG'
    cases stepped hs with
    | removeUser who chptr hch =>
        obtain ⟨c, hin, hdead⟩ := removeUserFromChannel_dangles hS h hch hG'
        exact hdead (h'.live c chptr hin)
    | _ => exact hG' trivial
  · intro hG'
    exact (step_invitations s op s' ⟨hS, h⟩ hG' hs).2.toInvited

/-- Client 1 creates `#a`, invites client 2 and leaves: client 2 is still
invited to the channel that is gone. -/
theorem invites_dangle :
    ∃ s, run (ChanSt.step ⟨0, Allocator.bump, fun _ => true⟩) ChanSt.init
        [.createChannel ⟨-1, 0⟩ [0x23, 0x61] false, .addUser 1 1 0,
          .addInvite 2 1, .removeUser 1 1] = .ok s ∧
      .channel 1 ∈ s.lists (.invited 2) ∧ 1 ∉ s.channels ∧
      ¬ s.Invited s.channels := by
  refine ⟨_, rfl, by decide, by decide, fun h => ?_⟩
  exact absurd (h.live 2 1 (by decide)) (by decide)

/-- The theorem at a run in which the client joins on its invitation before
the other one leaves. -/
theorem invites_exact_joined :
    ∃ s, run (ChanSt.step ⟨0, Allocator.bump, fun _ => true⟩) ChanSt.init
        [.createChannel ⟨-1, 0⟩ [0x23, 0x61] false, .addUser 1 1 0,
          .addInvite 2 1, .addUser 1 2 0, .removeUser 1 1] = .ok s ∧
      s.Invited s.channels ∧ .client 2 ∈ s.lists (.invites 1) :=
  ⟨_, rfl, (invites_exact ⟨0, Allocator.bump, fun _ => true⟩
    [.createChannel ⟨-1, 0⟩ [0x23, 0x61] false, .addUser 1 1 0,
      .addInvite 2 1, .addUser 1 2 0, .removeUser 1 1] _ rfl (by decide)).1,
    by decide⟩

end TrIrcd
