import TrIrcd.Lib.Run
import TrIrcd.Proofs.Dlinks
import TrIrcd.Proofs.NameTable
import TrIrcd.Src.Channel

/-!
# What every call of `channel.c` keeps

`Shape` is the part of the state's order that no caller can break: the dlink
lists are lists, the global channel list links the blocks in use, the channel
table holds them under their names, and `Count.chan` counts them. Every step
keeps it, whatever clients it names.

Beside it stand the spec lemmas the other proofs about channels rest on. Each
says what one function does to the lists of data (`ChanSt.lists`) and to the
blocks, so that nothing after this module looks at a node again.
-/

namespace TrIrcd

open Function (update)
open TrIrcd.Lib

namespace ChanSt

/-- What the dlink lists hold. -/
def lists (s : ChanSt) (l : ListId) : List Ptr := dlinkData l s.dl

/-- The bucket of a channel's name. -/
def nameHash (E : ChanEnv) (s : ChanSt) (chptr : Nat) : Nat :=
  (strhash E.ircdRandomKey (s.chan chptr).chname).toNat

/-- The channels of the global list. -/
def channels (s : ChanSt) : List Nat := walk s.nextch s.blocks.length s.channel

/-- A channel is in the channel table. -/
def Hashed (s : ChanSt) (ch : Nat) : Prop :=
  ∃ i < hashSize, ch ∈ s.channelTable.buckets.nodes i

end ChanSt

/-- The node of `members` that stands for a client. -/
def Ptr.isMember (acptr : Nat) : Ptr → Bool
  | .member cm => acptr = cm.client
  | _ => false

structure Shape (E : ChanEnv) (s : ChanSt) : Prop where
  contents : Contents s.dl s.lists
  dlist : IsDlist s.nextch s.prevch s.channel s.blocks.getLast? s.blocks
  indexed : Indexed (s.nameHash E) s.channelTable s.blocks
  count : s.countChan = s.blocks.length
  members : ∀ ch, ∀ p ∈ s.lists (.members ch), ∃ cm, p = .member cm

theorem Shape.nodup {E : ChanEnv} {s : ChanSt} (h : Shape E s) : s.blocks.Nodup :=
  h.dlist.nodup

theorem Shape.channels {E : ChanEnv} {s : ChanSt} (h : Shape E s) :
    s.channels = s.blocks :=
  walk_eq h.dlist.1 (Nat.le_refl _)

theorem Shape.hashed {E : ChanEnv} {s : ChanSt} (h : Shape E s) (ch : Nat) :
    ch ∈ s.blocks ↔ s.Hashed ch := by
  constructor
  · intro hch
    obtain ⟨V, hV, hm⟩ := h.indexed
    refine ⟨s.nameHash E ch, strhash_lt .., ?_⟩
    rw [hV.nodes]
    exact (hm _ ch).mpr ⟨hch, rfl⟩
  · rintro ⟨i, -, hi⟩
    exact h.indexed.mem_iff.mpr ⟨i, hi⟩

theorem Contents.lists_eq {D : Dlinks ListId Ptr} {C : ListId → List Ptr}
    (h : Contents D C) : (fun l => dlinkData l D) = C :=
  funext h.data

/-- A known reading of the lists is the reading. -/
theorem Contents.self {D : Dlinks ListId Ptr} {C : ListId → List Ptr}
    (h : Contents D C) : Contents D fun l => dlinkData l D := by
  rw [h.lists_eq]
  exact h

theorem ChanSt.init_shape (E : ChanEnv) : Shape E ChanSt.init where
  contents := (Contents.empty Ptr.null).self
  dlist := IsDlist.empty
  indexed := Indexed.cleared
  count := rfl
  members ch p hp := by
    have hd : ChanSt.init.lists (.members ch) = [] := (Contents.empty Ptr.null).data _
    rw [hd] at hp
    cases hp

/-! ## Creating -/

/-- The name `create_channel` works with: a local client's is cut. -/
def storedName (cptr : Creator) (chname : List UInt8) : List UInt8 :=
  if cptr.myClient ∧ channelLen < (cstr chname).length then
    (cstr chname).take channelLen
  else cstr chname

/-- The names one call of `create_channel` may create a channel under: its
own, and that of the link it follows. -/
def Asked (E : ChanEnv) (s : ChanSt) (cptr : Creator) (chname : List UInt8)
    (recurse : Bool) (name : List UInt8) : Prop :=
  name = storedName cptr chname ∨
    recurse = true ∧ ∃ ch, s.find E (storedName cptr chname) = some ch ∧
      (s.chan ch).isLinked = true ∧ name = storedName cptr (s.chan ch).link

/-- What a call that found or made no channel leaves: the state as it was. -/
def Created.Unchanged (s : ChanSt) (r : Created) : Prop :=
  r.st = s ∧ r.new ≠ some true

/-- What a call leaves that made a channel of this name. -/
def Created.Fresh (E : ChanEnv) (s : ChanSt) (name : List UInt8) (r : Created) :
    Prop :=
  cstr name ≠ [] ∧ name.length ≤ channelLen ∧ s.find E name = none ∧
    r.chptr = some (newChannel E name s).1 ∧ r.st = (newChannel E name s).2 ∧
    r.new = some true

theorem cstr_take (n : Nat) (s : List UInt8) :
    cstr ((cstr s).take n) = (cstr s).take n :=
  cstr_of_notMem fun h => zero_notMem_cstr s (List.mem_of_mem_take h)

theorem storedName_ne_nil {cptr : Creator} {chname : List UInt8}
    (h : cstr chname ≠ []) : cstr (storedName cptr chname) ≠ [] := by
  simp only [storedName]
  split
  · rw [cstr_take]
    intro he
    rcases List.take_eq_nil_iff.mp he with h0 | h0
    · cases h0
    · exact h h0
  · rw [cstr_cstr]
    exact h

/-- The two ways out of a call, with the call for the link between them. -/
theorem createChannelBody_cases {E : ChanEnv} {cptr : Creator}
    {onLinked : Option (List UInt8 → ChanSt → Except ChanStop Created)}
    {chname : List UInt8} {s : ChanSt} {r : Created}
    (h : createChannelBody E cptr onLinked chname s = .ok r) :
    r.Unchanged s ∨ r.Fresh E s (storedName cptr chname) ∨
      ∃ f ch r', onLinked = some f ∧ s.find E (storedName cptr chname) = some ch ∧
        (s.chan ch).isLinked = true ∧ f (s.chan ch).link s = .ok r' ∧
        r = { r' with new := some (r'.new.getD false) } := by
  simp only [createChannelBody] at h
  split at h
  · cases h
    exact Or.inl ⟨rfl, by simp⟩
  · next hne =>
      have hname : (if cptr.myClient = true ∧ channelLen < (cstr chname).length then
          (cstr chname).take channelLen else cstr chname) = storedName cptr chname := rfl
      rw [hname] at h
      split at h
      · next ch hf =>
          split at h
          · next f =>
              split at h
              · next hl =>
                  refine Or.inr (Or.inr ?_)
                  cases hr : f (s.chan ch).link s with
                  | error e =>
                      rw [hr] at h
                      cases h
                  | ok r' =>
                      rw [hr] at h
                      cases h
                      exact ⟨f, ch, r', rfl, hf, hl, hr, rfl⟩
              · cases h
                exact Or.inl ⟨rfl, by simp⟩
          · cases h
            exact Or.inl ⟨rfl, by simp⟩
      · next hf =>
          split at h
          · cases h
          · next hlen =>
              cases h
              exact Or.inr (Or.inl ⟨storedName_ne_nil hne, by omega, hf, rfl, rfl, rfl⟩)

/-- `create_channel` changes nothing, or makes one channel under a name it
was asked for and did not find. -/
theorem createChannel_cases {E : ChanEnv} {cptr : Creator} {chname : List UInt8}
    {recurse : Bool} {s : ChanSt} {r : Created}
    (h : createChannel E cptr chname recurse s = .ok r) :
    r.Unchanged s ∨
      ∃ name, Asked E s cptr chname recurse name ∧ r.Fresh E s name := by
  rcases createChannelBody_cases h with hu | hf | ⟨f, ch, r', hfs, hfind, hl, hr, rfl⟩
  · exact Or.inl hu
  · exact Or.inr ⟨_, Or.inl rfl, hf⟩
  · cases recurse with
    | false => cases hfs
    | true =>
        cases hfs
        rcases createChannelBody_cases hr with hu | hf | ⟨_, _, _, hfs, -⟩
        · refine Or.inl ⟨hu.1, ?_⟩
          have hnew := hu.2
          cases hn : r'.new with
          | none => simp
          | some b =>
              rw [hn] at hnew
              simpa using hnew
        · obtain ⟨h1, h2, h3, h4, h5, h6⟩ := hf
          exact Or.inr ⟨_, Or.inr ⟨rfl, ch, hfind, hl, rfl⟩,
            h1, h2, h3, h4, h5, by simp [h6]⟩
        · cases hfs

section NewChannel

variable (E : ChanEnv) (name : List UInt8) (s : ChanSt)

theorem newChannel_fresh : (newChannel E name s).1 ∉ s.blocks :=
  E.alloc.pick_fresh _

@[simp] theorem newChannel_blocks :
    (newChannel E name s).2.blocks = (newChannel E name s).1 :: s.blocks := by
  simp only [newChannel]
  split <;> rfl

theorem newChannel_live {ch : Nat} (h : ch ∈ (newChannel E name s).2.blocks) :
    ch = (newChannel E name s).1 ∨ ch ≠ (newChannel E name s).1 ∧ ch ∈ s.blocks := by
  rw [newChannel_blocks] at h
  by_cases he : ch = (newChannel E name s).1
  · exact Or.inl he
  · exact Or.inr ⟨he, (List.mem_cons.mp h).resolve_left he⟩

@[simp] theorem newChannel_chan :
    (newChannel E name s).2.chan =
      update s.chan (newChannel E name s).1 ⟨0, name, 0, []⟩ := by
  simp only [newChannel]
  split <;> rfl

@[simp] theorem newChannel_joined : (newChannel E name s).2.joined = s.joined := by
  simp only [newChannel]
  split <;> rfl

theorem newChannel_dl :
    (newChannel E name s).2.dl =
      clearDlinkList (.invites (newChannel E name s).1)
        (clearDlinkList (.members (newChannel E name s).1) s.dl) := by
  simp only [newChannel]
  split <;> rfl

variable {E s}

theorem newChannel_lists (h : Shape E s) :
    (newChannel E name s).2.lists =
      update (update s.lists (.members (newChannel E name s).1) [])
        (.invites (newChannel E name s).1) [] := by
  have hc := (h.contents.clear (.members (newChannel E name s).1)).clear
    (.invites (newChannel E name s).1)
  rw [← newChannel_dl] at hc
  exact hc.lists_eq

theorem newChannel_dlist (h : Shape E s) :
    IsDlist (newChannel E name s).2.nextch (newChannel E name s).2.prevch
      (newChannel E name s).2.channel (newChannel E name s).2.blocks.getLast?
      (newChannel E name s).2.blocks := by
  have hfresh := newChannel_fresh E name s
  have hd := h.dlist
  rw [newChannel_blocks]
  cases hb : s.blocks with
  | nil =>
      rw [hb] at hd
      have hnone : s.channel = none := hd.1
      simp only [newChannel, hnone]
      exact IsDlist.push_empty
  | cons y ys =>
      rw [hb] at hd hfresh
      have hsome : s.channel = some y := hd.1.1
      have hne : y ≠ E.alloc.pick s.blocks := by
        intro heq
        subst heq
        exact hfresh (List.mem_cons_self ..)
      rw [List.getLast?_cons_cons]
      simp only [newChannel, hsome]
      rw [Function.update_comm hne]
      exact hd.push_cons hfresh

theorem newChannel_shape (h : Shape E s) : Shape E (newChannel E name s).2 := by
  have hfresh := newChannel_fresh E name s
  refine ⟨?_, newChannel_dlist name h, ?_, ?_, ?_⟩
  · have hc := (h.contents.clear (.members (newChannel E name s).1)).clear
      (.invites (newChannel E name s).1)
    rw [← newChannel_dl] at hc
    exact hc.self
  · have hold : ∀ c ∈ s.blocks,
        (newChannel E name s).2.nameHash E c = s.nameHash E c := by
      intro c hc
      rw [ChanSt.nameHash, newChannel_chan, Function.update_of_ne]
      · rfl
      · intro heq
        subst heq
        exact hfresh hc
    have hself : (newChannel E name s).2.nameHash E (newChannel E name s).1 =
        (strhash E.ircdRandomKey name).toNat := by
      rw [ChanSt.nameHash, newChannel_chan, Function.update_self]
    have hi := (h.indexed.congr hold).add hfresh
    rw [hself] at hi
    rw [newChannel_blocks]
    have ht : (newChannel E name s).2.channelTable =
        addToHashTable (strhash E.ircdRandomKey name).toNat (newChannel E name s).1
          s.channelTable := by
      simp only [newChannel]
      split <;> rfl
    rw [ht]
    exact hi
  · have hcount : (newChannel E name s).2.countChan = s.countChan + 1 := by
      simp only [newChannel]
      split <;> rfl
    rw [hcount, h.count, newChannel_blocks, List.length_cons]
    rfl
  · intro ch p hp
    rw [newChannel_lists name h, Function.update_of_ne (by simp)] at hp
    by_cases hch : ch = (newChannel E name s).1
    · rw [hch, Function.update_self] at hp
      cases hp
    · rw [Function.update_of_ne (by simp [hch])] at hp
      exact h.members ch p hp

end NewChannel

/-! ## Members -/

/-- `remove_chanmember` takes out the first node of a client: the branch for
a node without data is never reached. -/
theorem removeChanmemberLoop_eq {acptr chptr : Nat} {D : Dlinks ListId Ptr}
    {xs : List Nat} (hm : ∀ x ∈ xs, ∃ cm, D.data x = .member cm) :
    ∀ {fuel : Nat} {h : Option Nat}, IsChain D.next h xs → xs.length ≤ fuel →
      removeChanmemberLoop acptr chptr fuel h D =
        match xs.find? fun x => (D.data x).isMember acptr with
        | some ptr => dlinkDeleteNode ptr (.members chptr) D
        | none => D := by
  induction xs with
  | nil =>
      intro fuel h hc _
      rw [show h = none from hc]
      cases fuel <;> rfl
  | cons x xs ih =>
      intro fuel h hc hf
      obtain ⟨k, rfl⟩ : ∃ k, fuel = k + 1 :=
        ⟨fuel - 1, by simp only [List.length_cons] at hf; omega⟩
      obtain ⟨cm, hcm⟩ := hm x (List.mem_cons_self ..)
      rw [hc.1, removeChanmemberLoop]
      simp only [hcm, List.find?_cons, Ptr.isMember]
      by_cases ha : acptr = cm.client
      · simp [ha]
      · simp only [ha, if_false, decide_false]
        exact ih (fun y hy => hm y (List.mem_cons_of_mem _ hy)) hc.2
          (by simp only [List.length_cons] at hf; omega)

theorem removeChanmember_eq {E : ChanEnv} {s : ChanSt} (h : Shape E s)
    (acptr chptr : Nat) :
    removeChanmember acptr chptr s.dl =
      dlinkDeleteFirst (.members chptr) (Ptr.isMember acptr) s.dl := by
  obtain ⟨V, hV, hC⟩ := h.contents
  have hm : ∀ x ∈ V (.members chptr), ∃ cm, s.dl.data x = .member cm := by
    intro x hx
    refine h.members chptr _ ?_
    rw [hC]
    exact List.mem_map_of_mem hx
  have hloop := @removeChanmemberLoop_eq acptr chptr s.dl _ hm s.dl.used.length _
    (hV.dlist (.members chptr)).1 (hV.length_le _)
  rw [dlinkDeleteFirst, hV.find]
  exact hloop

/-- A step that changes no block and no name, and only puts members on
members' lists, keeps the shape. -/
theorem Shape.relist {E : ChanEnv} {s s' : ChanSt} (h : Shape E s)
    (hc : Contents s'.dl s'.lists)
    (hm : ∀ ch, ∀ p ∈ s'.lists (.members ch),
      p ∈ s.lists (.members ch) ∨ ∃ cm, p = .member cm)
    (hname : ∀ ch, (s'.chan ch).chname = (s.chan ch).chname)
    (hrest : s'.nextch = s.nextch ∧ s'.prevch = s.prevch ∧ s'.channel = s.channel ∧
      s'.blocks = s.blocks ∧ s'.channelTable = s.channelTable ∧
      s'.countChan = s.countChan) : Shape E s' := by
  obtain ⟨hn, hp, hch, hb, ht, hcount⟩ := hrest
  refine ⟨hc, ?_, ?_, ?_, fun ch p hmem => ?_⟩
  · rw [hn, hp, hch, hb]
    exact h.dlist
  · rw [ht, hb]
    exact h.indexed.congr fun c _ => by rw [ChanSt.nameHash, ChanSt.nameHash, hname]
  · rw [hcount, hb]
    exact h.count
  · rcases hm ch p hmem with hold | hnew
    · exact h.members ch p hold
    · exact hnew

theorem update_chname {chan : Nat → Channel} {chptr : Nat} {c : Channel}
    (hc : c.chname = (chan chptr).chname) (ch : Nat) :
    (update chan chptr c ch).chname = (chan ch).chname := by
  by_cases he : ch = chptr
  · rw [he, Function.update_self, hc]
  · rw [Function.update_of_ne he]

section Members

variable {E : ChanEnv} (s : ChanSt) (chptr flags : Nat) {who : Nat}

theorem addUserToChannel_chan (hu : E.user who = true) :
    (addUserToChannel E chptr who flags s).2.chan =
      update s.chan chptr { s.chan chptr with users := (s.chan chptr).users + 1 } := by
  rw [addUserToChannel, if_pos hu]

variable {s}

theorem addUserToChannel_lists (h : Shape E s) (hu : E.user who = true) :
    (addUserToChannel E chptr who flags s).2.lists =
      update (update s.lists (.members chptr)
          (.member ⟨who, flags, 0⟩ :: s.lists (.members chptr)))
        (.channel who) (.channel chptr :: s.lists (.channel who)) := by
  have hc := (h.contents.addNew E.alloc (.member ⟨who, flags, 0⟩)
    (.members chptr)).addNew E.alloc (.channel chptr) (.channel who)
  rw [Function.update_of_ne (by simp)] at hc
  rw [addUserToChannel, if_pos hu]
  exact hc.lists_eq

theorem addUserToChannel_shape (h : Shape E s) :
    Shape E (addUserToChannel E chptr who flags s).2 := by
  by_cases hu : E.user who = true
  · have hl := addUserToChannel_lists chptr flags h hu
    refine h.relist ?_ ?_ ?_ ?_
    · rw [hl]
      have hc := (h.contents.addNew E.alloc (.member ⟨who, flags, 0⟩)
        (.members chptr)).addNew E.alloc (.channel chptr) (.channel who)
      rw [Function.update_of_ne (by simp)] at hc
      rw [addUserToChannel, if_pos hu]
      exact hc
    · intro ch p hp
      rw [hl, Function.update_of_ne (by simp)] at hp
      by_cases hch : ch = chptr
      · rw [hch, Function.update_self] at hp
        rcases List.mem_cons.mp hp with rfl | hp
        · exact Or.inr ⟨_, rfl⟩
        · rw [hch]
          exact Or.inl hp
      · rw [Function.update_of_ne (by simp [hch])] at hp
        exact Or.inl hp
    · intro ch
      rw [addUserToChannel_chan s chptr flags hu]
      refine update_chname ?_ ch
      rfl
    · rw [addUserToChannel, if_pos hu]
      exact ⟨rfl, rfl, rfl, rfl, rfl, rfl⟩
  · rw [addUserToChannel, if_neg hu]
    exact h

end Members

/-! ## Invitations -/

section Invites

variable {s : ChanSt}

theorem delInvite_contents {C : ListId → List Ptr} {D : Dlinks ListId Ptr}
    (hc : Contents D C) (cptr chptr : Nat) :
    Contents (delInvite cptr chptr D)
      (update (update C (.invites chptr)
          ((C (.invites chptr)).eraseP (· = .client cptr)))
        (.invited cptr) ((C (.invited cptr)).eraseP (· = .channel chptr))) := by
  have h := (hc.deleteFirst (.invites chptr) (· = .client cptr)).deleteFirst
    (.invited cptr) (· = .channel chptr)
  rw [Function.update_of_ne (by simp)] at h
  exact h

theorem addInvite_contents {C : ListId → List Ptr} {D : Dlinks ListId Ptr}
    (E : ChanEnv) (hc : Contents D C) (cptr chptr : Nat) :
    Contents (addInvite E cptr chptr D)
      (update (update C (.invites chptr)
          (.client cptr :: (C (.invites chptr)).eraseP (· = .client cptr)))
        (.invited cptr)
        (.channel chptr :: (C (.invited cptr)).eraseP (· = .channel chptr))) := by
  have h := ((delInvite_contents hc cptr chptr).addNew E.alloc (.client cptr)
    (.invites chptr)).addNew E.alloc (.channel chptr) (.invited cptr)
  rw [Function.update_of_ne (by simp), Function.update_self,
    Function.update_of_ne (by simp), Function.update_self,
    Function.update_comm (by simp), Function.update_idem,
    Function.update_comm (by simp), Function.update_idem] at h
  exact h

/-- The lists of members and of the channels of a user. -/
def ListId.IsRoster : ListId → Prop
  | .members _ => True
  | .channel _ => True
  | _ => False

/-- An update of the lists of invitations leaves the other ones alone. -/
theorem ListId.IsRoster.kept {l : ListId} (hl : l.IsRoster) (C : ListId → List Ptr)
    (cptr chptr : Nat) (invites invited : List Ptr) :
    update (update C (.invites chptr) invites) (.invited cptr) invited l = C l := by
  rw [Function.update_of_ne, Function.update_of_ne]
  · intro heq
    subst heq
    exact hl
  · intro heq
    subst heq
    exact hl

/-- The loop of `sub1_from_channel` works on invitations only. -/
theorem sub1InviteLoop_contents (chptr : Nat) :
    ∀ (fuel : Nat) (tmp : Option Nat) {D : Dlinks ListId Ptr}
      {C : ListId → List Ptr}, Contents D C →
      ∃ C', Contents (sub1InviteLoop chptr fuel tmp D) C' ∧
        ∀ l, l.IsRoster → C' l = C l := by
  intro fuel
  induction fuel with
  | zero => exact fun _ _ C hc => ⟨C, hc, fun _ _ => rfl⟩
  | succ fuel ih =>
      intro tmp D C hc
      cases tmp with
      | none => exact ⟨C, hc, fun _ _ => rfl⟩
      | some tmp =>
          rw [sub1InviteLoop]
          split
          · exact ⟨C, hc, fun _ _ => rfl⟩
          · next next _ =>
              split
              · next cptr _ =>
                  obtain ⟨C', hC', he⟩ :=
                    ih (some next) (delInvite_contents hc cptr chptr)
                  refine ⟨C', hC', fun l hl => ?_⟩
                  rw [he l hl, hl.kept]
              · exact ih (some next) hc

/-- With nobody invited the loop has nothing to do. -/
theorem sub1InviteLoop_none {D : Dlinks ListId Ptr} {C : ListId → List Ptr}
    (hc : Contents D C) {chptr : Nat} (he : C (.invites chptr) = []) (fuel : Nat) :
    sub1InviteLoop chptr fuel (D.head (.invites chptr)) D = D := by
  obtain ⟨V, hV, hC⟩ := hc
  have hnil : V (.invites chptr) = [] := by
    rw [hC] at he
    exact List.map_eq_nil_iff.mp he
  have hd := hV.dlist (.invites chptr)
  rw [hnil] at hd
  rw [show D.head (.invites chptr) = none from hd.1]
  cases fuel <;> rfl

end Invites

/-! ## Destroying -/

section Destroy

variable (E : ChanEnv) (s : ChanSt) (chptr : Nat)

theorem destroyChannel_blocks :
    (destroyChannel E chptr s).blocks = s.blocks.erase chptr := by
  simp only [destroyChannel]
  split <;> split <;> rfl

theorem destroyChannel_chan : (destroyChannel E chptr s).chan = s.chan := by
  simp only [destroyChannel]
  split <;> split <;> rfl

theorem destroyChannel_joined : (destroyChannel E chptr s).joined = s.joined := by
  simp only [destroyChannel]
  split <;> split <;> rfl

theorem destroyChannel_dl :
    (destroyChannel E chptr s).dl =
      sub1InviteLoop chptr s.dl.used.length (s.dl.head (.invites chptr)) s.dl := by
  simp only [destroyChannel]
  split <;> split <;> rfl

variable {s}

theorem destroyChannel_lists (h : Contents s.dl s.lists) (l : ListId)
    (hl : l.IsRoster) : (destroyChannel E chptr s).lists l = s.lists l := by
  obtain ⟨C', hC', he⟩ := sub1InviteLoop_contents chptr s.dl.used.length
    (s.dl.head (.invites chptr)) h
  rw [← destroyChannel_dl E] at hC'
  rw [← he l hl]
  exact hC'.data l

variable {chptr}

theorem destroyChannel_dlist (h : IsDlist s.nextch s.prevch s.channel
      s.blocks.getLast? s.blocks) (hch : chptr ∈ s.blocks) :
    IsDlist (destroyChannel E chptr s).nextch (destroyChannel E chptr s).prevch
      (destroyChannel E chptr s).channel (s.blocks.erase chptr).getLast?
      (s.blocks.erase chptr) := by
  obtain ⟨as, bs, -, hb, he⟩ := List.exists_erase_eq hch
  have hu := h
  rw [hb] at hu
  have hu := hu.unlink
  rw [he, ← hu.tail_eq]
  cases hn : s.nextch chptr <;> cases hp : s.prevch chptr <;>
    simp only [hn, hp] at hu <;>
    simpa [destroyChannel, hn, hp, update_of_eq hn] using hu

variable {E}

theorem destroyChannel_shape (h : Shape E s) (hch : chptr ∈ s.blocks) :
    Shape E (destroyChannel E chptr s) := by
  refine ⟨?_, ?_, ?_, ?_, fun ch p hp => ?_⟩
  · obtain ⟨C', hC', -⟩ := sub1InviteLoop_contents chptr s.dl.used.length
      (s.dl.head (.invites chptr)) h.contents
    rw [← destroyChannel_dl E] at hC'
    exact hC'.self
  · rw [destroyChannel_blocks]
    exact destroyChannel_dlist E h.dlist hch
  · have ht : (destroyChannel E chptr s).channelTable =
        (delFromHashTable (s.nameHash E chptr) chptr s.channelTable).2 := by
      simp only [destroyChannel]
      split <;> split <;> rfl
    rw [ht, destroyChannel_blocks]
    refine ((h.indexed.del hch h.nodup).2).congr fun c _ => ?_
    rw [ChanSt.nameHash, destroyChannel_chan, ChanSt.nameHash]
  · have hcount : (destroyChannel E chptr s).countChan = s.countChan - 1 := by
      simp only [destroyChannel]
      split <;> split <;> rfl
    have hpos := List.length_pos_of_mem hch
    rw [hcount, h.count, destroyChannel_blocks, List.length_erase_of_mem hch]
    omega
  · rw [destroyChannel_lists E chptr h.contents (.members ch) trivial] at hp
    exact h.members ch p hp

end Destroy

/-! ## Leaving -/

/-- The lists after a client left a channel. -/
def partLists (who chptr : Nat) (C : ListId → List Ptr) : ListId → List Ptr :=
  update (update C (.members chptr) ((C (.members chptr)).eraseP (Ptr.isMember who)))
    (.channel who) ((C (.channel who)).eraseP (· = .channel chptr))

/-- `remove_user_from_channel` up to its call of `sub1_from_channel`. -/
def partUser (who chptr : Nat) (s : ChanSt) : ChanSt :=
  { s with
    dl := dlinkDeleteFirst (.channel who) (· = .channel chptr)
      (removeChanmember who chptr s.dl)
    joined := update s.joined who (s.joined who - 1) }

section Remove

variable {E : ChanEnv} {s : ChanSt} (who chptr : Nat)

theorem partUser_contents (h : Shape E s) :
    Contents (partUser who chptr s).dl (partLists who chptr s.lists) := by
  have hc := (h.contents.deleteFirst (.members chptr) (Ptr.isMember who)).deleteFirst
    (.channel who) (· = .channel chptr)
  rw [Function.update_of_ne (by simp), ← removeChanmember_eq h] at hc
  exact hc

theorem mem_partLists {who chptr : Nat} {C : ListId → List Ptr} {l : ListId}
    {p : Ptr} (hp : p ∈ partLists who chptr C l) : p ∈ C l := by
  rw [partLists] at hp
  by_cases hl : l = .channel who
  · rw [hl, Function.update_self] at hp
    rw [hl]
    exact List.mem_of_mem_eraseP hp
  · rw [Function.update_of_ne hl] at hp
    by_cases hm : l = .members chptr
    · rw [hm, Function.update_self] at hp
      rw [hm]
      exact List.mem_of_mem_eraseP hp
    · rw [Function.update_of_ne hm] at hp
      exact hp

theorem partUser_shape (h : Shape E s) : Shape E (partUser who chptr s) := by
  have hl : (partUser who chptr s).lists = partLists who chptr s.lists :=
    (partUser_contents who chptr h).lists_eq
  refine h.relist (partUser_contents who chptr h).self (fun ch p hp => ?_) (fun _ => rfl)
    ⟨rfl, rfl, rfl, rfl, rfl, rfl⟩
  rw [hl] at hp
  exact Or.inl (mem_partLists hp)

/-- The state `sub1_from_channel` compares the count in. -/
def sub1Users (chptr : Nat) (s : ChanSt) : ChanSt :=
  { s with
    chan := update s.chan chptr
      { s.chan chptr with users := (s.chan chptr).users - 1 } }

theorem sub1FromChannel_eq :
    sub1FromChannel E chptr s =
      if (s.chan chptr).users ≤ 1 then destroyChannel E chptr (sub1Users chptr s)
      else sub1Users chptr s := by
  have hiff : (s.chan chptr).users - 1 ≤ 0 ↔ (s.chan chptr).users ≤ 1 := by omega
  simp only [sub1FromChannel, sub1Users, hiff]

theorem sub1Users_shape (h : Shape E s) : Shape E (sub1Users chptr s) := by
  refine h.relist h.contents (fun _ _ hp => Or.inl hp) (fun ch => ?_)
    ⟨rfl, rfl, rfl, rfl, rfl, rfl⟩
  refine update_chname ?_ ch
  rfl

end Remove

section RemoveUser

variable {E : ChanEnv} (s : ChanSt) (chptr : Nat) {who : Nat}

theorem removeUserFromChannel_eq (hu : E.user who = true) :
    removeUserFromChannel E who chptr s =
      sub1FromChannel E chptr (partUser who chptr s) := by
  rw [removeUserFromChannel, if_pos hu]
  rfl

theorem removeUserFromChannel_blocks (hu : E.user who = true) :
    (removeUserFromChannel E who chptr s).blocks =
      if (s.chan chptr).users ≤ 1 then s.blocks.erase chptr else s.blocks := by
  have hb : (sub1Users chptr (partUser who chptr s)).blocks = s.blocks := rfl
  rw [removeUserFromChannel_eq s chptr hu, sub1FromChannel_eq, apply_ite ChanSt.blocks,
    destroyChannel_blocks, hb]
  rfl

theorem removeUserFromChannel_chan (hu : E.user who = true) :
    (removeUserFromChannel E who chptr s).chan =
      update s.chan chptr { s.chan chptr with users := (s.chan chptr).users - 1 } := by
  rw [removeUserFromChannel_eq s chptr hu, sub1FromChannel_eq, apply_ite ChanSt.chan,
    destroyChannel_chan, ite_self]
  rfl

theorem removeUserFromChannel_joined (hu : E.user who = true) :
    (removeUserFromChannel E who chptr s).joined =
      update s.joined who (s.joined who - 1) := by
  rw [removeUserFromChannel_eq s chptr hu, sub1FromChannel_eq, apply_ite ChanSt.joined,
    destroyChannel_joined, ite_self]
  rfl

variable {s}

/-- What the lists of members and of the channels of users become. -/
theorem removeUserFromChannel_roster (h : Shape E s) (hu : E.user who = true)
    {l : ListId} (hl : l.IsRoster) :
    (removeUserFromChannel E who chptr s).lists l = partLists who chptr s.lists l := by
  have hp := partUser_shape who chptr h
  have heq : (sub1Users chptr (partUser who chptr s)).lists =
      partLists who chptr s.lists := (partUser_contents who chptr h).lists_eq
  rw [removeUserFromChannel_eq s chptr hu, sub1FromChannel_eq]
  split
  · rw [destroyChannel_lists E chptr (sub1Users_shape chptr hp).contents l hl, heq]
  · rw [heq]

/-- What all the lists become, unless a channel goes that has invitations. -/
theorem removeUserFromChannel_lists (h : Shape E s) (hu : E.user who = true)
    (he : (s.chan chptr).users ≤ 1 → s.lists (.invites chptr) = []) :
    (removeUserFromChannel E who chptr s).lists = partLists who chptr s.lists := by
  have hp := partUser_contents who chptr h
  rw [removeUserFromChannel_eq s chptr hu, sub1FromChannel_eq]
  split
  · next hle =>
      have hnil : partLists who chptr s.lists (.invites chptr) = [] := by
        rw [partLists, Function.update_of_ne (by simp),
          Function.update_of_ne (by simp)]
        exact he hle
      have hdl := destroyChannel_dl E (sub1Users chptr (partUser who chptr s)) chptr
      rw [show (sub1Users chptr (partUser who chptr s)).dl =
        (partUser who chptr s).dl from rfl, sub1InviteLoop_none hp hnil] at hdl
      refine Contents.lists_eq ?_
      rw [hdl]
      exact hp
  · exact hp.lists_eq

variable {chptr}

theorem removeUserFromChannel_shape (who : Nat) (h : Shape E s) (hch : chptr ∈ s.blocks) :
    Shape E (removeUserFromChannel E who chptr s) := by
  by_cases hu : E.user who = true
  · have hp := sub1Users_shape chptr (partUser_shape who chptr h)
    rw [removeUserFromChannel_eq s chptr hu, sub1FromChannel_eq]
    split
    · exact destroyChannel_shape hp hch
    · exact hp
  · have hc := h.contents.deleteFirst (.members chptr) (Ptr.isMember who)
    rw [← removeChanmember_eq h] at hc
    rw [removeUserFromChannel, if_neg hu]
    refine h.relist hc.self (fun ch p hp => ?_) (fun _ => rfl)
      ⟨rfl, rfl, rfl, rfl, rfl, rfl⟩
    rw [ChanSt.lists, hc.data] at hp
    by_cases he : ch = chptr
    · rw [he, Function.update_self] at hp
      rw [he]
      exact Or.inl (List.mem_of_mem_eraseP hp)
    · rw [Function.update_of_ne (by simp [he])] at hp
      exact Or.inl hp

end RemoveUser

/-! ## Every step -/

/-- What a call that went through did, one case for each call: a creation
leaves the state as it was or makes one channel. -/
inductive Stepped (E : ChanEnv) (s : ChanSt) : ChanOp → ChanSt → Prop
  | found (cptr : Creator) (chname : List UInt8) (recurse : Bool) :
      Stepped E s (.createChannel cptr chname recurse) s
  | created (cptr : Creator) (chname : List UInt8) (recurse : Bool) (name : List UInt8)
      (asked : Asked E s cptr chname recurse name) (named : cstr name ≠ [])
      (missed : s.find E name = none) :
      Stepped E s (.createChannel cptr chname recurse) (newChannel E name s).2
  | setMode (chptr mode : Nat) (link : List UInt8) :
      Stepped E s (.setMode chptr mode link) { s with
        chan := update s.chan chptr { s.chan chptr with mode := mode, link := link } }
  | addUser (chptr who flags : Nat) (live : chptr ∈ s.blocks) :
      Stepped E s (.addUser chptr who flags) (addUserToChannel E chptr who flags s).2
  | removeUser (who chptr : Nat) (live : chptr ∈ s.blocks) :
      Stepped E s (.removeUser who chptr) (removeUserFromChannel E who chptr s)
  | addInvite (cptr chptr : Nat) (live : chptr ∈ s.blocks) :
      Stepped E s (.addInvite cptr chptr)
        { s with dl := TrIrcd.addInvite E cptr chptr s.dl }
  | delInvite (cptr chptr : Nat) (live : chptr ∈ s.blocks) :
      Stepped E s (.delInvite cptr chptr)
        { s with dl := TrIrcd.delInvite cptr chptr s.dl }

theorem ChanSt.stepped {E : ChanEnv} {s : ChanSt} {op : ChanOp} {s' : ChanSt}
    (hs : s.step E op = .ok s') : Stepped E s op s' := by
  cases op with
  | createChannel cptr chname recurse =>
      obtain ⟨r, hr, rfl⟩ := map_ok_iff.mp hs
      rcases createChannel_cases hr with ⟨hst, -⟩ | ⟨name, hask, hne, -, hf, -, hst, -⟩
      · rw [hst]
        exact .found cptr chname recurse
      · rw [hst]
        exact .created cptr chname recurse name hask hne hf
  | setMode chptr mode link =>
      simp only [step] at hs
      split at hs
      · cases hs
      · split at hs
        · cases hs
        · cases hs
          exact .setMode chptr mode link
  | addUser chptr who flags =>
      simp only [step] at hs
      split at hs
      · cases hs
      · next hch =>
          cases hs
          exact .addUser chptr who flags (not_not.mp hch)
  | removeUser who chptr =>
      simp only [step] at hs
      split at hs
      · cases hs
      · next hch =>
          cases hs
          exact .removeUser who chptr (not_not.mp hch)
  | addInvite cptr chptr =>
      simp only [step] at hs
      split at hs
      · cases hs
      · next hch =>
          split at hs
          · cases hs
            exact .addInvite cptr chptr (not_not.mp hch)
          · cases hs
  | delInvite cptr chptr =>
      simp only [step] at hs
      split at hs
      · cases hs
      · next hch =>
          split at hs
          · cases hs
            exact .delInvite cptr chptr (not_not.mp hch)
          · cases hs

theorem ChanSt.step_shape {E : ChanEnv} (s : ChanSt) (op : ChanOp) (s' : ChanSt)
    (h : Shape E s) (hs : s.step E op = .ok s') : Shape E s' := by
  cases stepped hs with
  | found => exact h
  | created _ _ _ name => exact newChannel_shape name h
  | setMode =>
      refine h.relist h.contents (fun _ _ hp => Or.inl hp) (fun ch => ?_)
        ⟨rfl, rfl, rfl, rfl, rfl, rfl⟩
      refine update_chname ?_ ch
      rfl
  | addUser chptr who flags => exact addUserToChannel_shape chptr flags h
  | removeUser who chptr hch => exact removeUserFromChannel_shape who h hch
  | addInvite cptr chptr =>
      have hc := addInvite_contents E h.contents cptr chptr
      refine h.relist hc.self (fun ch p hp => Or.inl ?_) (fun _ => rfl)
        ⟨rfl, rfl, rfl, rfl, rfl, rfl⟩
      have hl : (ListId.members ch).IsRoster := trivial
      rwa [ChanSt.lists, hc.data, hl.kept] at hp
  | delInvite cptr chptr =>
      have hc := delInvite_contents h.contents cptr chptr
      refine h.relist hc.self (fun ch p hp => Or.inl ?_) (fun _ => rfl)
        ⟨rfl, rfl, rfl, rfl, rfl, rfl⟩
      have hl : (ListId.members ch).IsRoster := trivial
      rwa [ChanSt.lists, hc.data, hl.kept] at hp

end TrIrcd
