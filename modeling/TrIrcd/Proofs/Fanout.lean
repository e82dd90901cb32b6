import TrIrcd.Proofs.Membership
import TrIrcd.Src.Send

/-!
# Who hears a message to a channel

The functions of `s_send.c` keep what they have sent by descriptor. Where local
clients and links have descriptors of their own (`Wired`), that is the same as
keeping it by client: after some members of a list, a descriptor is marked
exactly if its client was sent to. So each is sent to once, whatever the order
of the members, and however many of them are behind one link.

`check_fake_direction` acts on nobody: it looks for a client that is reached
through the link the message came from, and those are passed over already.
-/

namespace TrIrcd

open Function (update)
open TrIrcd.Lib ChanSt

/-- What is known of the clients `cs`: a local one is its own `from`, a remote
one is behind a link that is no person, and no two local ones share a
descriptor. -/
structure Wired (F : FanEnv) (cs : Nat → Prop) : Prop where
  own : ∀ c, cs c → F.myConnect c = true → (F.peer c).source = some c
  link : ∀ c, cs c → F.myConnect c = false → ∃ l, cs l ∧ (F.peer c).source = some l ∧
    F.myConnect l = true ∧ F.isPerson l = false
  fd_lt : ∀ c, cs c → F.myConnect c = true → (F.peer c).fd < maxConnections
  fd_inj : ∀ c d, cs c → cs d → F.myConnect c = true → F.myConnect d = true →
    (F.peer c).fd = (F.peer d).fd → c = d

namespace Fan

/-- What was handed to a client. -/
def msgsTo (f : Fan) (d : Nat) : List FanMsg := (f.out.filter (·.1 = d)).map (·.2)

/-- The descriptor of a client is marked. -/
def heard (F : FanEnv) (f : Fan) (d : Nat) : Bool := f.sentalong (F.peer d).fd.toNat

variable {f : Fan} {d dest i : Nat} {msg : FanMsg}

@[simp] theorem hand_st : (f.hand dest msg).st = f.st := rfl
@[simp] theorem mark_st : (f.mark i).st = f.st := rfl
@[simp] theorem mark_msgsTo : (f.mark i).msgsTo d = f.msgsTo d := rfl

theorem hand_msgsTo :
    (f.hand dest msg).msgsTo d = if dest = d then f.msgsTo d ++ [msg] else f.msgsTo d := by
  simp only [msgsTo, hand, List.filter_append, List.map_append]
  by_cases h : dest = d
  · simp [h]
  · simp [h]

end Fan

open Fan

section

variable {F : FanEnv} {cs : Nat → Prop} {c d source : Nat} {f : Fan}

theorem FanEnv.fd_nonneg (h : F.myConnect c = true) : 0 ≤ (F.peer c).fd := of_decide_eq_true h

theorem Wired.sentIndex (hw : Wired F cs) (hc : cs c) (h : F.myConnect c = true) :
    sentIndex (F.peer c).fd = .ok (F.peer c).fd.toNat :=
  if_pos ⟨F.fd_nonneg h, hw.fd_lt c hc h⟩

/-- Marking one client marks no other. -/
theorem Wired.heard_mark (hw : Wired F cs) (hc : cs c) (hd : cs d) (hcl : F.myConnect c = true)
    (hdl : F.myConnect d = true) :
    (f.mark (F.peer c).fd.toNat).heard F d = (decide (d = c) || f.heard F d) := by
  show update f.sentalong (F.peer c).fd.toNat true (F.peer d).fd.toNat =
    (decide (d = c) || f.sentalong (F.peer d).fd.toNat)
  by_cases h : d = c
  · rw [h, Function.update_self, decide_eq_true rfl, Bool.true_or]
  · rw [Function.update_of_ne, decide_eq_false h, Bool.false_or]
    intro hfd
    refine h (hw.fd_inj d c hd hc hdl hcl ?_)
    have h0 := F.fd_nonneg hcl
    have h1 := F.fd_nonneg hdl
    omega

end

/-! ## `sendto_channel_butone` -/

section

variable {F : FanEnv} {cs : Nat → Prop} {one : Option Nat} {incflags source : Nat}

/-- A member the message is for. -/
def FanEnv.Addressed (F : FanEnv) (one : Option Nat) (incflags : Nat) (cm : ChanMember) : Prop :=
  (F.peer cm.client).source ≠ one ∧ (F.peer cm.client).anon = false ∧
    cm.flags &&& incflags = incflags

/-- Who the message for a member is handed to: itself, or its link. -/
def FanEnv.carrier (F : FanEnv) (c : Nat) : Option Nat :=
  if F.myClient c then some c else (F.peer c).source

/-- It carries the message for one of these members. -/
def FanEnv.Carries (F : FanEnv) (one : Option Nat) (incflags : Nat) (ms : List ChanMember)
    (d : Nat) : Prop :=
  ∃ cm ∈ ms, F.Addressed one incflags cm ∧ F.carrier cm.client = some d

theorem FanEnv.carries_append {ms : List ChanMember} {cm : ChanMember} {d : Nat} :
    F.Carries one incflags (ms ++ [cm]) d ↔ F.Carries one incflags ms d ∨
      F.Addressed one incflags cm ∧ F.carrier cm.client = some d := by
  simp only [FanEnv.Carries, List.mem_append, List.mem_singleton]
  constructor
  · intro ⟨cm', hm, h⟩
    rcases hm with hm | rfl
    · exact Or.inl ⟨cm', hm, h⟩
    · exact Or.inr h
  · intro h
    rcases h with ⟨cm', hm, h⟩ | h
    · exact ⟨cm', Or.inl hm, h⟩
    · exact ⟨cm, Or.inr rfl, h⟩

/-- Who carries a message is local. -/
theorem Wired.carrier (hw : Wired F cs) {c d : Nat} (hc : cs c) (h : F.carrier c = some d) :
    cs d ∧ F.myConnect d = true := by
  rw [FanEnv.carrier] at h
  split at h
  · next hmy =>
      cases h
      rw [FanEnv.myClient, Bool.and_eq_true] at hmy
      exact ⟨hc, hmy.1⟩
  · cases hl : F.myConnect c with
    | true =>
        rw [hw.own c hc hl] at h
        cases h
        exact ⟨hc, hl⟩
    | false =>
        obtain ⟨l, hl, hs, hcon, -⟩ := hw.link c hc hl
        rw [hs] at h
        cases h
        exact ⟨hl, hcon⟩

/-- A local member carries for nobody else. -/
theorem Wired.carrier_myClient (hw : Wired F cs) {c d : Nat} (hc : cs c)
    (h : F.carrier c = some d) (hd : F.myClient d = true) (hu : F.user d = true) : c = d := by
  rw [FanEnv.carrier] at h
  split at h
  · cases h
    rfl
  · next hmy =>
      cases hl : F.myConnect c with
      | true =>
          rw [hw.own c hc hl] at h
          cases h
          rfl
      | false =>
          obtain ⟨l, -, hs, -, hp⟩ := hw.link c hc hl
          rw [hs] at h
          cases h
          rw [FanEnv.myClient, Bool.and_eq_true] at hd
          rw [FanEnv.isPerson, hu, hd.2] at hp
          cases hp

/-- After the members `ms`: the carriers of the message are marked, and each was
handed it once. -/
structure Carried (F : FanEnv) (cs : Nat → Prop) (one : Option Nat) (incflags : Nat)
    (s : ChanSt) (ms : List ChanMember) (f : Fan) : Prop where
  st : f.st = s
  heard : ∀ d, cs d → F.myConnect d = true → (f.heard F d = true ↔ F.Carries one incflags ms d)
  sent : ∀ d, F.Carries one incflags ms d → f.msgsTo d = [.text]
  unsent : ∀ d, ¬ F.Carries one incflags ms d → f.msgsTo d = []

theorem carried_start (s : ChanSt) : Carried F cs one incflags s [] (Fan.start s) where
  st := rfl
  heard d _ _ := by
    refine iff_of_false Bool.false_ne_true fun h => ?_
    obtain ⟨_, hm, _⟩ := h
    cases hm
  sent d h := by
    obtain ⟨_, hm, _⟩ := h
    cases hm
  unsent _ _ := rfl

/-- A member the message is not for. -/
theorem Carried.skip {s : ChanSt} {ms : List ChanMember} {cm : ChanMember} {f : Fan}
    (h : Carried F cs one incflags s ms f)
    (hno : ∀ d, F.Carries one incflags (ms ++ [cm]) d ↔ F.Carries one incflags ms d) :
    Carried F cs one incflags s (ms ++ [cm]) f where
  st := h.st
  heard d hd hl := by rw [hno]; exact h.heard d hd hl
  sent d hd := h.sent d ((hno d).mp hd)
  unsent d hd := h.unsent d (mt (hno d).mpr hd)

/-- A member whose carrier has not been sent to. -/
theorem Carried.carry {s : ChanSt} {ms : List ChanMember} {cm : ChanMember} {f : Fan} {d : Nat}
    (hw : Wired F cs) (h : Carried F cs one incflags s ms f) (ha : F.Addressed one incflags cm)
    (hcar : F.carrier cm.client = some d) (hd : cs d) (hl : F.myConnect d = true)
    (hnew : ¬ F.Carries one incflags ms d) :
    Carried F cs one incflags s (ms ++ [cm]) ((f.hand d .text).mark (F.peer d).fd.toNat) where
  st := h.st
  heard e he hel := by
    rw [hw.heard_mark hd he hl hel, Bool.or_eq_true, decide_eq_true_eq, FanEnv.carries_append,
      hcar, Option.some.injEq, or_comm]
    exact or_congr (h.heard e he hel) ⟨fun heq => ⟨ha, heq.symm⟩, fun heq => heq.2.symm⟩
  sent e he := by
    rw [mark_msgsTo, hand_msgsTo]
    split
    · next heq =>
        rw [← heq, h.unsent d hnew]
        rfl
    · next hne =>
        refine h.sent e ((FanEnv.carries_append.mp he).resolve_right fun hnow => ?_)
        rw [hcar] at hnow
        cases hnow.2
        exact hne rfl
  unsent e he := by
    rw [FanEnv.carries_append, not_or] at he
    rw [mark_msgsTo, hand_msgsTo, if_neg, h.unsent e he.1]
    intro heq
    exact he.2 ⟨ha, by rw [hcar, heq]⟩

/-- With `one` the link the message came from, nobody is taken for a ghost. -/
theorem checkFakeDirection_one {s : ChanSt} {c : Nat}
    (h : (F.peer c).source ≠ (F.peer source).source) :
    checkFakeDirection F source c s = none := by
  rw [checkFakeDirection, decide_eq_false h, Bool.and_false, if_neg Bool.false_ne_true]

/-- One member of the list. -/
theorem butoneMember_carried {s : ChanSt} {ms : List ChanMember} {cm : ChanMember} {f : Fan}
    (hw : Wired F cs) (hone : one = (F.peer source).source) (hc : cs cm.client)
    (hu : F.user cm.client = true) (hms : ∀ cm' ∈ ms, cs cm'.client ∧ cm'.client ≠ cm.client)
    (h : Carried F cs one incflags s ms f) :
    ∃ f', butoneMember F one incflags source cm f = .ok f' ∧
      Carried F cs one incflags s (ms ++ [cm]) f' := by
  simp only [butoneMember]
  split
  · next hskip =>
      refine ⟨f, rfl, h.skip fun d => ?_⟩
      rw [FanEnv.carries_append]
      refine or_iff_left fun hnow => ?_
      obtain ⟨⟨hs, hanon, hflags⟩, _⟩ := hnow
      rcases hskip with hs' | hanon' | hflags'
      · exact hs hs'
      · rw [hanon] at hanon'
        cases hanon'
      · exact hflags' hflags
  · next hfor =>
      obtain ⟨hs, hanon, hflags⟩ : F.Addressed one incflags cm := by
        obtain ⟨hs, hrest⟩ := not_or.mp hfor
        obtain ⟨hanon, hflags⟩ := not_or.mp hrest
        exact ⟨hs, Bool.not_eq_true _ ▸ hanon, not_not.mp hflags⟩
      have ha : F.Addressed one incflags cm := ⟨hs, hanon, hflags⟩
      rw [checkFakeDirection_one (hone ▸ hs)]
      dsimp only
      split
      · next hmy =>
          have hcar : F.carrier cm.client = some cm.client := if_pos hmy
          have hl : F.myConnect cm.client = true := (hw.carrier hc hcar).2
          rw [hw.sentIndex hc hl]
          refine ⟨_, rfl, h.carry hw ha hcar hc hl fun hold => ?_⟩
          obtain ⟨cm', hm, -, hcar'⟩ := hold
          exact (hms cm' hm).2 (hw.carrier_myClient (hms cm' hm).1 hcar' hmy hu)
      · next hmy =>
          have hcar : F.carrier cm.client = (F.peer cm.client).source := if_neg hmy
          split
          · next hnone =>
              refine ⟨f, rfl, h.skip fun d => ?_⟩
              rw [FanEnv.carries_append, hcar, hnone]
              refine or_iff_left fun hnow => ?_
              cases hnow.2
          · next link hlink =>
              rw [hlink] at hcar
              obtain ⟨hcl, hl⟩ := hw.carrier hc hcar
              rw [hw.sentIndex hcl hl]
              refine ⟨_, rfl, ?_⟩
              dsimp only
              have hheard := h.heard link hcl hl
              by_cases hsent : f.sentalong (F.peer link).fd.toNat = true
              · rw [if_pos hsent]
                refine h.skip fun d => ?_
                rw [FanEnv.carries_append]
                refine or_iff_left_of_imp fun hnow => ?_
                rw [hcar] at hnow
                cases hnow.2
                exact hheard.mp hsent
              · rw [if_neg hsent]
                exact h.carry hw ha hcar hcl hl (mt hheard.mpr hsent)

/-- The member a node of `members` stands for. -/
def Ptr.chanMember? : Ptr → Option ChanMember
  | .member cm => some cm
  | _ => none

/-- The members of a channel, with their flags. -/
def ChanSt.memberList (s : ChanSt) (ch : Nat) : List ChanMember :=
  (s.lists (.members ch)).filterMap Ptr.chanMember?

theorem memberList_client (s : ChanSt) (ch : Nat) :
    (s.memberList ch).map ChanMember.client = s.membersOf ch := by
  rw [memberList, membersOf, List.map_filterMap]
  refine List.filterMap_congr fun p _ => ?_
  cases p <;> rfl

theorem Shape.memberList {E : ChanEnv} {s : ChanSt} (hS : Shape E s) (ch : Nat) :
    s.lists (.members ch) = (s.memberList ch).map Ptr.member := by
  have hall : ∀ ps : List Ptr, (∀ p ∈ ps, ∃ cm, p = .member cm) →
      ps = (ps.filterMap Ptr.chanMember?).map Ptr.member := by
    intro ps
    induction ps with
    | nil => exact fun _ => rfl
    | cons p ps ih =>
        intro hm
        obtain ⟨cm, rfl⟩ := hm p (List.mem_cons_self ..)
        have hcm : Ptr.chanMember? (.member cm) = some cm := rfl
        rw [List.filterMap_cons_some hcm, List.map_cons,
          ← ih fun q hq => hm q (List.mem_cons_of_mem _ hq)]
  exact hall _ (hS.members ch)

/-- The nodes of a list of members, as the loops walk them. -/
theorem Shape.memberNodes {E : ChanEnv} {s : ChanSt} (hS : Shape E s) (ch : Nat) :
    ∃ xs, IsChain s.dl.next (s.dl.head (.members ch)) xs ∧ xs.length ≤ s.dl.used.length ∧
      xs.map s.dl.data = (s.memberList ch).map Ptr.member := by
  obtain ⟨V, hV, hC⟩ := hS.contents
  refine ⟨V (.members ch), (hV.dlist _).1, hV.length_le _, ?_⟩
  rw [← hC, hS.memberList]

theorem butoneLoop_carried {s : ChanSt} (hw : Wired F cs) (hone : one = (F.peer source).source)
    (xs : List Nat) :
    ∀ {fuel : Nat} {h : Option Nat} {ms rest : List ChanMember} {f : Fan},
      IsChain s.dl.next h xs → xs.length ≤ fuel → xs.map s.dl.data = rest.map Ptr.member →
      (∀ cm ∈ ms ++ rest, cs cm.client ∧ F.user cm.client = true) →
      ((ms ++ rest).map ChanMember.client).Nodup → Carried F cs one incflags s ms f →
      ∃ f', butoneLoop F one incflags source fuel h f = .ok f' ∧
        Carried F cs one incflags s (ms ++ rest) f' := by
  induction xs with
  | nil =>
      intro fuel h ms rest f hc _ hd _ _ hf
      cases rest with
      | cons cm rest => cases hd
      | nil =>
          rw [show h = none from hc, List.append_nil]
          cases fuel with
          | zero => exact ⟨f, rfl, hf⟩
          | succ fuel => exact ⟨f, rfl, hf⟩
  | cons x xs ih =>
      intro fuel h ms rest f hc hlen hd hm hnd hf
      cases rest with
      | nil => cases hd
      | cons cm rest =>
          obtain ⟨hx, hd⟩ := List.cons.inj hd
          cases fuel with
          | zero => cases hlen
          | succ fuel =>
              have hin : cm ∈ ms ++ cm :: rest := List.mem_append_right _ (List.mem_cons_self ..)
              obtain ⟨f₁, hrun, hf₁⟩ := butoneMember_carried hw hone (hm cm hin).1 (hm cm hin).2
                (fun cm' hm' => ⟨(hm cm' (List.mem_append_left _ hm')).1, fun heq => by
                  rw [List.map_append, List.nodup_append] at hnd
                  exact hnd.2.2 _ (List.mem_map_of_mem hm') _
                    (List.mem_map_of_mem (List.mem_cons_self ..)) heq⟩) hf
              rw [hc.1, butoneLoop, hf.st, hx]
              simp only [hrun]
              rw [List.append_cons] at hm hnd ⊢
              exact ih hc.2 (Nat.le_of_succ_le_succ hlen) hd hm hnd hf₁

/-- Every carrier of the message is handed it once, and nobody else is. -/
theorem sendtoChannelButone_carried {s : ChanSt} {ch : Nat} (hS : Shape F.toChanEnv s)
    (hJ : Joined F.toChanEnv s) (hch : ch ∈ s.blocks) (hw : Wired F cs)
    (hcs : ∀ c ∈ s.membersOf ch, cs c) (hone : one = (F.peer source).source) :
    ∃ f, sendtoChannelButone F one incflags source ch s = .ok f ∧
      Carried F cs one incflags s (s.memberList ch) f := by
  obtain ⟨xs, hc, hlen, hd⟩ := hS.memberNodes ch
  have hmem : ∀ cm ∈ [] ++ s.memberList ch, cs cm.client ∧ F.user cm.client = true := by
    intro cm hm
    have hin : cm.client ∈ s.membersOf ch := by
      rw [← memberList_client]
      exact List.mem_map_of_mem hm
    exact ⟨hcs _ hin, hJ.user ch hch _ hin⟩
  have hnd : (([] ++ s.memberList ch).map ChanMember.client).Nodup := by
    rw [List.nil_append, memberList_client]
    exact hJ.once ch hch
  exact butoneLoop_carried hw hone xs hc hlen hd hmem hnd (carried_start s)

end

/-! ## Telling the members of a channel -/

section

variable {F : FanEnv} {cs : Nat → Prop} {source : Nat} {s : ChanSt}

/-- A client the inner loops send to. -/
def FanEnv.Listens (F : FanEnv) (source c : Nat) : Prop :=
  F.myConnect c = true ∧ (F.peer c).anon = false ∧ c ≠ source

instance (c : Nat) : Decidable (F.Listens source c) := inferInstanceAs (Decidable (_ ∧ _))

/-- Nobody who listens is behind the link of the source. -/
theorem Wired.no_ghost (hw : Wired F cs) {c : Nat} (hsource : cs source) (hc : cs c)
    (hl : F.Listens source c) : checkFakeDirection F source c s = none := by
  rw [checkFakeDirection, if_neg]
  intro h
  rw [Bool.and_eq_true, Bool.and_eq_true, decide_eq_true_eq, hw.own c hc hl.1] at h
  obtain ⟨⟨_, hperson⟩, hfrom⟩ := h
  cases hcon : F.myConnect source with
  | true =>
      rw [hw.own source hsource hcon] at hfrom
      cases hfrom
      exact hl.2.2 rfl
  | false =>
      obtain ⟨l, _, hs, _, hp⟩ := hw.link source hsource hcon
      rw [hs] at hfrom
      cases hfrom
      rw [hp] at hperson
      cases hperson

theorem tellMember_eq (hw : Wired F cs) {c : Nat} (hsource : cs source) (hc : cs c)
    (msg : FanMsg) (f : Fan) :
    tellMember F source msg c f =
      .ok (if F.Listens source c ∧ f.heard F c = false then
        (true, (f.hand c msg).mark (F.peer c).fd.toNat) else (false, f)) := by
  rw [tellMember]
  by_cases hl : F.Listens source c
  · rw [if_neg, hw.sentIndex hc hl.1]
    · have hsent : f.sentalong (F.peer c).fd.toNat = f.heard F c := rfl
      simp only [Except.map, hw.no_ghost hsource hc hl, hsent]
      cases hh : f.heard F c with
      | true =>
          rw [if_pos rfl, if_neg (fun h => nomatch h.2)]
      | false =>
          rw [if_neg Bool.false_ne_true, if_pos ⟨hl, rfl⟩]
    · rw [hl.1, hl.2.1, decide_eq_false hl.2.2]
      decide
  · rw [if_pos, if_neg fun h => hl h.1]
    cases hcon : F.myConnect c with
    | false => rfl
    | true =>
        cases hanon : (F.peer c).anon with
        | true => rfl
        | false =>
            rw [Bool.not_true, Bool.false_or, Bool.false_or, decide_eq_true_eq]
            exact not_not.mp fun hne => hl ⟨hcon, hanon, hne⟩

/-- After the members `ms` were told: who listens is marked, and has got the
message if it was not marked before. -/
structure Spread (F : FanEnv) (cs : Nat → Prop) (source : Nat) (msg : FanMsg) (ms : List Nat)
    (f f' : Fan) : Prop where
  st : f'.st = f.st
  heard : ∀ c, cs c → F.Listens source c → (f'.heard F c = true ↔ f.heard F c = true ∨ c ∈ ms)
  msgsTo : ∀ c, f'.msgsTo c = if F.Listens source c ∧ c ∈ ms ∧ f.heard F c = false then
    f.msgsTo c ++ [msg] else f.msgsTo c

theorem Spread.nil {msg : FanMsg} {f : Fan} : Spread F cs source msg [] f f where
  st := rfl
  heard c _ _ := by simp
  msgsTo c := by rw [if_neg fun h => nomatch h.2.1]

theorem Spread.cons (hw : Wired F cs) {msg : FanMsg} {c : Nat} {ms : List Nat} {f f' : Fan}
    (hc : cs c) (hms : ∀ d ∈ ms, cs d) (hnew : c ∉ ms)
    (h : Spread F cs source msg ms (if F.Listens source c ∧ f.heard F c = false then
      (f.hand c msg).mark (F.peer c).fd.toNat else f) f') :
    Spread F cs source msg (c :: ms) f f' := by
  by_cases ht : F.Listens source c ∧ f.heard F c = false
  · rw [if_pos ht] at h
    have hmark : ∀ d, cs d → F.myConnect d = true →
        ((f.hand c msg).mark (F.peer c).fd.toNat).heard F d = (decide (d = c) || f.heard F d) :=
      fun d hd hl => hw.heard_mark hc hd ht.1.1 hl
    refine ⟨h.st, fun d hd hl => ?_, fun d => ?_⟩
    · rw [h.heard d hd hl, hmark d hd hl.1, Bool.or_eq_true, decide_eq_true_eq, List.mem_cons]
      tauto
    · rw [h.msgsTo, mark_msgsTo, hand_msgsTo]
      by_cases he : d = c
      · rw [he, if_neg fun hand => hnew hand.2.1, if_pos rfl,
          if_pos ⟨ht.1, List.mem_cons_self .., ht.2⟩]
      · rw [if_neg (Ne.symm he)]
        refine if_congr (and_congr_right fun hl => ?_) rfl rfl
        rw [List.mem_cons, or_iff_right he]
        refine and_congr_right fun hd => ?_
        rw [hmark d (hms d hd) hl.1, decide_eq_false he, Bool.false_or]
  · rw [if_neg ht] at h
    refine ⟨h.st, fun d hd hl => ?_, fun d => ?_⟩
    · rw [h.heard d hd hl, List.mem_cons]
      refine ⟨fun hor => hor.imp id Or.inr, fun hor => ?_⟩
      rcases hor with hh | rfl | hm
      · exact Or.inl hh
      · exact Or.inl (Bool.not_eq_false _ ▸ fun hf => ht ⟨hl, hf⟩)
      · exact Or.inr hm
    · rw [h.msgsTo]
      refine if_congr (and_congr_right fun hl => ?_) rfl rfl
      rw [List.mem_cons]
      refine ⟨fun hand => ⟨Or.inr hand.1, hand.2⟩, fun hand => ⟨?_, hand.2⟩⟩
      refine hand.1.resolve_left fun he => ht ?_
      rw [← he]
      exact ⟨hl, hand.2⟩

/-- The inner loop, over the nodes of a list of members. -/
theorem tellLoop_spread (hw : Wired F cs) (hsource : cs source) (msg : FanMsg) {restart : Bool}
    (hopen : restart = true → ∀ c, cs c → F.Listens source c → (F.peer c).closing = false)
    (xs : List Nat) :
    ∀ {fuel : Nat} {h : Option Nat} {rest : List ChanMember} {f : Fan}, f.st = s →
      IsChain s.dl.next h xs → xs.length ≤ fuel → xs.map s.dl.data = rest.map Ptr.member →
      (∀ c ∈ rest.map ChanMember.client, cs c) → (rest.map ChanMember.client).Nodup →
      ∃ f', tellLoop F source msg restart fuel h f = .ok (false, f') ∧
        Spread F cs source msg (rest.map ChanMember.client) f f' := by
  induction xs with
  | nil =>
      intro fuel h rest f _ hc _ hd _ _
      cases rest with
      | cons cm rest => cases hd
      | nil =>
          rw [show h = none from hc]
          cases fuel with
          | zero => exact ⟨f, rfl, Spread.nil⟩
          | succ fuel => exact ⟨f, rfl, Spread.nil⟩
  | cons x xs ih =>
      intro fuel h rest f hst hc hlen hd hm hnd
      cases rest with
      | nil => cases hd
      | cons cm rest =>
          obtain ⟨hx, hd⟩ := List.cons.inj hd
          obtain ⟨hnew, hnd⟩ := List.nodup_cons.mp hnd
          obtain ⟨hcm, hm⟩ := List.forall_mem_cons.mp hm
          cases fuel with
          | zero => cases hlen
          | succ fuel =>
              have hstay : (restart && (if F.Listens source cm.client ∧
                  f.heard F cm.client = false then
                    (true, (f.hand cm.client msg).mark (F.peer cm.client).fd.toNat)
                  else (false, f)).1 && (F.peer cm.client).closing) = false := by
                cases hr : restart with
                | false => rfl
                | true =>
                    split
                    · next ht => rw [hopen hr cm.client hcm ht.1, Bool.and_false]
                    · rfl
              rw [hc.1, tellLoop, hst, hx]
              simp only [tellMember_eq hw hsource hcm, Except.bind, hstay, Bool.false_eq_true,
                if_false]
              rw [apply_ite Prod.snd]
              obtain ⟨f', hrun, hf'⟩ := @ih fuel _ rest (if F.Listens source cm.client ∧
                f.heard F cm.client = false then
                  (f.hand cm.client msg).mark (F.peer cm.client).fd.toNat else f)
                (by split <;> exact hst) hc.2 (Nat.le_of_succ_le_succ hlen) hd hm hnd
              exact ⟨f', hrun, hf'.cons hw hcm hm hnew⟩

/-! ## Channel after channel -/

/-- Those of the channels that are not anonymous and that the client is on. -/
def ChanSt.shared (s : ChanSt) (chs : List Nat) (c : Nat) : List Nat :=
  chs.filter fun ch => !(s.chan ch).isAnon && decide (c ∈ s.membersOf ch)

/-- After the channels `chs`: who listens was told on the first of them that it
shares, and nobody else was told anything. -/
structure Told (F : FanEnv) (cs : Nat → Prop) (source : Nat) (s : ChanSt) (msg : Nat → FanMsg)
    (chs : List Nat) (f : Fan) : Prop where
  heard : ∀ c, cs c → F.Listens source c → (f.heard F c = true ↔ s.shared chs c ≠ [])
  sent : ∀ c, F.Listens source c → f.msgsTo c = ((s.shared chs c).head?.map msg).toList
  unsent : ∀ c, ¬ F.Listens source c → f.msgsTo c = []

variable {msg : Nat → FanMsg} {chs : List Nat} {ch : Nat} {f f' : Fan}

theorem Told.congr (h : Told F cs source s msg chs f) (ho : f'.out = f.out)
    (hs : f'.sentalong = f.sentalong) : Told F cs source s msg chs f' := by
  have hm : ∀ c, f'.msgsTo c = f.msgsTo c := fun c => by rw [msgsTo, ho, msgsTo]
  have hh : ∀ c, f'.heard F c = f.heard F c := fun c => by rw [Fan.heard, hs, Fan.heard]
  refine ⟨fun c hc hl => ?_, fun c hl => ?_, fun c hl => ?_⟩
  · rw [hh]
    exact h.heard c hc hl
  · rw [hm]
    exact h.sent c hl
  · rw [hm]
    exact h.unsent c hl

theorem markSource_told (hw : Wired F cs) (hsource : cs source) :
    ∃ f, markSource F source (Fan.start s) = .ok f ∧ f.st = s ∧
      Told F cs source s msg [] f := by
  rw [markSource]
  split
  · next hfd =>
      have hl : F.myConnect source = true := decide_eq_true (Int.le_of_lt hfd)
      rw [hw.sentIndex hsource hl]
      refine ⟨_, rfl, rfl, fun c hc hlis => ?_, fun c _ => rfl, fun c _ => rfl⟩
      rw [hw.heard_mark hsource hc hl hlis.1, decide_eq_false hlis.2.2]
      exact iff_of_false Bool.false_ne_true fun h => h rfl
  · exact ⟨_, rfl, rfl, fun c _ _ => iff_of_false Bool.false_ne_true fun h => h rfl,
      fun c _ => rfl, fun c _ => rfl⟩

theorem shared_append (c : Nat) :
    s.shared (chs ++ [ch]) c = s.shared chs c ++
      if (s.chan ch).isAnon = false ∧ c ∈ s.membersOf ch then [ch] else [] := by
  rw [shared, List.filter_append, shared, List.filter_singleton]
  congr 1
  cases (s.chan ch).isAnon <;> simp

theorem Told.skip (h : Told F cs source s msg chs f) (hanon : (s.chan ch).isAnon = true) :
    Told F cs source s msg (chs ++ [ch]) f := by
  have hsame : ∀ c, s.shared (chs ++ [ch]) c = s.shared chs c := fun c => by
    rw [shared_append, if_neg fun hand => Bool.false_ne_true (hand.1.symm.trans hanon),
      List.append_nil]
  refine ⟨fun c hc hl => ?_, fun c hl => ?_, h.unsent⟩
  · rw [hsame]
    exact h.heard c hc hl
  · rw [hsame]
    exact h.sent c hl

theorem Told.spread (h : Told F cs source s msg chs f) (hanon : (s.chan ch).isAnon = false)
    (hcs : ∀ c ∈ s.membersOf ch, cs c)
    (hf : Spread F cs source (msg ch) (s.membersOf ch) f f') :
    Told F cs source s msg (chs ++ [ch]) f' := by
  refine ⟨fun c hc hl => ?_, fun c hl => ?_, fun c hl => ?_⟩
  · rw [hf.heard c hc hl, h.heard c hc hl, shared_append]
    by_cases hm : c ∈ s.membersOf ch
    · rw [if_pos ⟨hanon, hm⟩]
      exact iff_of_true (Or.inr hm) (List.append_ne_nil_of_right_ne_nil _ (List.cons_ne_nil _ _))
    · rw [if_neg fun hand => hm hand.2, List.append_nil, or_iff_left hm]
  · rw [hf.msgsTo, h.sent c hl]
    by_cases hm : c ∈ s.membersOf ch
    · have hheard := h.heard c (hcs c hm) hl
      have happ : s.shared (chs ++ [ch]) c = s.shared chs c ++ [ch] := by
        rw [shared_append, if_pos ⟨hanon, hm⟩]
      rw [happ]
      cases hsh : s.shared chs c with
      | nil =>
          rw [hsh] at hheard
          rw [if_pos ⟨hl, hm, Bool.not_eq_true _ ▸ mt hheard.mp fun hne => hne rfl⟩]
          rfl
      | cons ch' rest =>
          rw [hsh] at hheard
          rw [if_neg fun hand => Bool.false_ne_true
            (hand.2.2.symm.trans (hheard.mpr (List.cons_ne_nil _ _)))]
          rfl
    · rw [if_neg fun hand => hm hand.2.1, shared_append, if_neg fun hand => hm hand.2,
        List.append_nil]
  · rw [hf.msgsTo, if_neg fun hand => hl hand.1]
    exact h.unsent c hl

/-- The inner loop, on a channel. -/
theorem tellLoop_members (fmsg : FanMsg) {restart : Bool} (hw : Wired F cs) (hsource : cs source)
    (hopen : restart = true → ∀ c, cs c → F.Listens source c → (F.peer c).closing = false)
    (hS : Shape F.toChanEnv f.st) (hJ : Joined F.toChanEnv f.st) (hch : ch ∈ f.st.blocks)
    (hcs : ∀ c ∈ f.st.membersOf ch, cs c) :
    ∃ f', tellLoop F source fmsg restart f.st.dl.used.length
        (f.st.dl.head (.members ch)) f = .ok (false, f') ∧
      Spread F cs source fmsg (f.st.membersOf ch) f f' := by
  obtain ⟨xs, hc, hlen, hd⟩ := hS.memberNodes ch
  rw [← memberList_client] at hcs ⊢
  refine tellLoop_spread hw hsource fmsg hopen xs rfl hc hlen hd hcs ?_
  rw [memberList_client]
  exact hJ.once ch hch

/-! ## `sendto_common_channels` -/

/-- The nodes of the list of channels of a client, as the loops walk them. -/
theorem Shape.channelNodes {E : ChanEnv} (hS : Shape E s) (c : Nat) :
    ∃ xs, IsChain s.dl.next (s.dl.head (.channel c)) xs ∧ xs.length ≤ s.dl.used.length ∧
      xs.map s.dl.data = s.lists (.channel c) := by
  obtain ⟨V, hV, hC⟩ := hS.contents
  exact ⟨V (.channel c), (hV.dlist _).1, hV.length_le _, (hC _).symm⟩

theorem commonLoop_told (hw : Wired F cs) (hsource : cs source) (hS : Shape F.toChanEnv s)
    (hJ : Joined F.toChanEnv s) (hcs : ∀ ch ∈ s.blocks, ∀ c ∈ s.membersOf ch, cs c)
    (xs : List Nat) :
    ∀ {fuel : Nat} {h : Option Nat} {done rest : List Nat} {f : Fan}, f.st = s →
      IsChain s.dl.next h xs → xs.length ≤ fuel → xs.map s.dl.data = rest.map Ptr.channel →
      (∀ ch ∈ rest, ch ∈ s.blocks) → Told F cs source s (fun _ => .text) done f →
      ∃ f', commonLoop F source fuel h f = .ok f' ∧ f'.st = s ∧
        Told F cs source s (fun _ => .text) (done ++ rest) f' := by
  induction xs with
  | nil =>
      intro fuel h done rest f hst hc _ hd _ hf
      cases rest with
      | cons ch rest => cases hd
      | nil =>
          rw [show h = none from hc, List.append_nil]
          cases fuel with
          | zero => exact ⟨f, rfl, hst, hf⟩
          | succ fuel => exact ⟨f, rfl, hst, hf⟩
  | cons x xs ih =>
      intro fuel h done rest f hst hc hlen hd hm hf
      cases rest with
      | nil => cases hd
      | cons ch rest =>
          obtain ⟨hx, hd⟩ := List.cons.inj hd
          obtain ⟨hch, hm⟩ := List.forall_mem_cons.mp hm
          cases fuel with
          | zero => cases hlen
          | succ fuel =>
              subst hst
              rw [hc.1, commonLoop, hx, List.append_cons]
              dsimp only
              split
              · next hanon => exact ih rfl hc.2 (Nat.le_of_succ_le_succ hlen) hd hm (hf.skip hanon)
              · next hanon =>
                  have hclosed : false = true → ∀ c, cs c → F.Listens source c →
                      (F.peer c).closing = false := fun h => nomatch h
                  obtain ⟨f₁, hrun, hf₁⟩ :=
                    tellLoop_members .text hw hsource hclosed hS hJ hch (hcs ch hch)
                  simp only [hrun]
                  exact ih hf₁.st hc.2 (Nat.le_of_succ_le_succ hlen) hd hm
                    (hf.spread (Bool.not_eq_true _ ▸ hanon) (hcs ch hch) hf₁)

/-- The channels a client is on, as its list has them. -/
theorem Seated.chans {E : ChanEnv} (h : Seated E s) (c : Nat) :
    ∃ chs : List Nat, s.lists (.channel c) = chs.map Ptr.channel ∧ chs.Nodup ∧
      ∀ ch, ch ∈ chs ↔ ch ∈ s.blocks ∧ c ∈ s.membersOf ch := by
  have hall : ∀ ps : List Ptr, (∀ p ∈ ps, ∃ ch, p = .channel ch) →
      ∃ chs : List Nat, ps = chs.map Ptr.channel := by
    intro ps
    induction ps with
    | nil => exact fun _ => ⟨[], rfl⟩
    | cons p ps ih =>
        intro hp
        obtain ⟨ch, rfl⟩ := hp p (List.mem_cons_self ..)
        obtain ⟨chs, hchs⟩ := ih fun q hq => hp q (List.mem_cons_of_mem _ hq)
        exact ⟨ch :: chs, by rw [hchs, List.map_cons]⟩
  obtain ⟨chs, hchs⟩ := hall _ (h.channels c)
  have hmem : ∀ ch, ch ∈ chs ↔ .channel ch ∈ s.lists (.channel c) := by
    intro ch
    rw [hchs, List.mem_map_of_injective fun a b hab => Ptr.channel.inj hab]
  have hnd := h.joined.nodup c
  rw [hchs] at hnd
  refine ⟨chs, hchs, hnd.of_map _, fun ch => ?_⟩
  rw [hmem]
  constructor
  · intro hin
    have hch := h.joined.live c ch hin
    exact ⟨hch, (h.joined.mem ch hch c).mpr hin⟩
  · intro hand
    exact (h.joined.mem ch hand.1 c).mp hand.2

/-- Two clients are on a channel that is not anonymous. -/
def ChanSt.SharesOpen (s : ChanSt) (c d : Nat) : Prop :=
  ∃ ch ∈ s.blocks, (s.chan ch).isAnon = false ∧ c ∈ s.membersOf ch ∧ d ∈ s.membersOf ch

theorem shared_ne_nil {chs : List Nat} {d : Nat}
    (hchs : ∀ ch, ch ∈ chs ↔ ch ∈ s.blocks ∧ source ∈ s.membersOf ch) :
    s.shared chs d ≠ [] ↔ s.SharesOpen source d := by
  constructor
  · intro hne
    obtain ⟨ch, hch⟩ := List.exists_mem_of_ne_nil _ hne
    rw [shared, List.mem_filter, Bool.and_eq_true, Bool.not_eq_true', decide_eq_true_eq] at hch
    obtain ⟨hin, hanon, hd⟩ := hch
    obtain ⟨hlive, hc⟩ := (hchs ch).mp hin
    exact ⟨ch, hlive, hanon, hc, hd⟩
  · intro ⟨ch, hlive, hanon, hc, hd⟩
    refine List.ne_nil_of_mem (List.mem_filter.mpr ⟨(hchs ch).mpr ⟨hlive, hc⟩, ?_⟩ : ch ∈ _)
    rw [hanon, decide_eq_true hd]
    rfl

/-- Who is told on the common channels: everybody who listens and shares one,
once, and the source itself. -/
structure ToldCommon (F : FanEnv) (source : Nat) (s : ChanSt) (f : Fan) : Prop where
  st : f.st = s
  sent : ∀ d, F.Listens source d → s.SharesOpen source d → f.msgsTo d = [.text]
  self : f.msgsTo source = if F.myConnect source then [.text] else []
  unsent : ∀ d, d ≠ source → ¬ (F.Listens source d ∧ s.SharesOpen source d) → f.msgsTo d = []

theorem Told.common {chs : List Nat} (h : Told F cs source s (fun _ => .text) chs f)
    (hst : f.st = s) (hchs : ∀ ch, ch ∈ chs ↔ ch ∈ s.blocks ∧ source ∈ s.membersOf ch) :
    ToldCommon F source s (if F.myConnect source then f.hand source .text else f) := by
  have hother : ∀ d, d ≠ source →
      (if F.myConnect source then f.hand source .text else f).msgsTo d = f.msgsTo d := by
    intro d hd
    split
    · rw [hand_msgsTo, if_neg (Ne.symm hd)]
    · rfl
  refine ⟨by split <;> exact hst, fun d hl hs => ?_, ?_, fun d hd hno => ?_⟩
  · rw [hother d hl.2.2, h.sent d hl]
    cases hsh : s.shared chs d with
    | nil => exact absurd hsh ((shared_ne_nil hchs).mpr hs)
    | cons ch rest => rfl
  · have hself : f.msgsTo source = [] := h.unsent source fun hl => hl.2.2 rfl
    split
    · rw [hand_msgsTo, if_pos rfl, hself]
      rfl
    · exact hself
  · rw [hother d hd]
    by_cases hl : F.Listens source d
    · rw [h.sent d hl]
      cases hsh : s.shared chs d with
      | nil => rfl
      | cons ch rest =>
          exact absurd ⟨hl, (shared_ne_nil hchs).mp (by rw [hsh]; exact List.cons_ne_nil _ _)⟩ hno
    · exact h.unsent d hl

theorem sendtoCommonChannels_told (hw : Wired F cs) (hsource : cs source)
    (hs : Seated F.toChanEnv s) (hcs : ∀ ch ∈ s.blocks, ∀ c ∈ s.membersOf ch, cs c) :
    ∃ f, sendtoCommonChannels F source s = .ok f ∧ ToldCommon F source s f := by
  obtain ⟨chs, hl, _, hchs⟩ := hs.chans source
  obtain ⟨f₀, hmark, hst₀, hf₀⟩ := markSource_told hw hsource
  rw [sendtoCommonChannels, hmark]
  by_cases hu : F.user source = true
  · obtain ⟨xs, hc, hlen, hd⟩ := hs.shape.channelNodes source
    rw [hl] at hd
    obtain ⟨f, hrun, hst, hf⟩ := commonLoop_told hw hsource hs.shape hs.joined hcs xs hst₀ hc
      hlen hd (fun ch hch => ((hchs ch).mp hch).1) hf₀
    refine ⟨_, ?_, hf.common hst hchs⟩
    simp only [Except.bind, if_pos hu, hrun]
    rfl
  · -- A client without a user structure is on no channel.
    have hnone : ∀ ch, ch ∈ ([] : List Nat) ↔ ch ∈ s.blocks ∧ source ∈ s.membersOf ch := by
      refine fun ch => iff_of_false List.not_mem_nil fun hand => hu ?_
      exact hs.joined.user ch hand.1 source hand.2
    refine ⟨_, ?_, hf₀.common hst₀ hnone⟩
    simp only [Except.bind, if_neg hu]
    rfl

/-- Both functions, from any membership state: each member the message is for,
or the link it is behind, is handed the message once, and nobody else is. -/
theorem fanout_once (hw : Wired F cs) (hs : Seated F.toChanEnv s)
    (hcs : ∀ ch ∈ s.blocks, ∀ c ∈ s.membersOf ch, cs c) (hsource : cs source) :
    (∀ ch ∈ s.blocks, ∀ incflags, ∃ f,
      sendtoChannelButone F (F.peer source).source incflags source ch s = .ok f ∧
        Carried F cs (F.peer source).source incflags s (s.memberList ch) f) ∧
      ∃ f, sendtoCommonChannels F source s = .ok f ∧ ToldCommon F source s f :=
  ⟨fun ch hch _ => sendtoChannelButone_carried hs.shape hs.joined hch hw (hcs ch hch) rfl,
    sendtoCommonChannels_told hw hsource hs hcs⟩

end

/-! ## Three members

Two local clients, 5 and 8, and a remote one, 6, behind the server 7. -/

def trioPeer : Nat → Peer
  | 5 => ⟨some 5, 4, statClient, false, false⟩
  | 7 => ⟨some 7, 5, statServer, false, false⟩
  | 8 => ⟨some 8, 6, statClient, false, false⟩
  | _ => ⟨some 7, -1, statClient, false, false⟩

/-- Nobody may send to the channels in `muted`. -/
def trioEnv (muted : List Nat) : FanEnv where
  ircdRandomKey := 0
  alloc := .bump
  user c := c ≠ 7
  peer := trioPeer
  canSend _ ch := if ch ∈ muted then 404 else 0
  exitGhost _ s := s

theorem trioEnv_wired (muted : List Nat) : Wired (trioEnv muted) (· ∈ [5, 6, 7, 8]) where
  own c hc hl := by
    have h : ∀ c ∈ [5, 6, 7, 8], 0 ≤ (trioPeer c).fd → (trioPeer c).source = some c := by decide
    exact h c hc (of_decide_eq_true hl)
  link c hc hl := by
    have h : ∀ c ∈ [5, 6, 7, 8], ¬ 0 ≤ (trioPeer c).fd → (trioPeer c).source = some 7 := by decide
    exact ⟨7, by decide, h c hc (of_decide_eq_false hl), rfl, rfl⟩
  fd_lt c hc _ := by
    have h : ∀ c ∈ [5, 6, 7, 8], (trioPeer c).fd < maxConnections := by decide
    exact h c hc
  fd_inj c d hc hd hl _ hfd := by
    have h : ∀ c ∈ [5, 6, 7, 8], ∀ d ∈ [5, 6, 7, 8], 0 ≤ (trioPeer c).fd →
        (trioPeer c).fd = (trioPeer d).fd → c = d := by decide
    exact h c hc d hd (of_decide_eq_true hl) hfd

/-- The three join two channels. -/
def trioOps : List ChanOp :=
  [.createChannel ⟨-1, 0⟩ [0x23, 0x61] false, .addUser 1 5 0, .addUser 1 6 0, .addUser 1 8 0,
    .createChannel ⟨-1, 0⟩ [0x23, 0x62] false, .addUser 2 8 0, .addUser 2 5 0]

/-- The theorem at these three: 8 and the link of 6 hear what 5 says. -/
theorem fanout_once_trio :
    ∃ s f, run (ChanSt.step (trioEnv []).toChanEnv) ChanSt.init trioOps = .ok s ∧
      sendtoChannelButone (trioEnv []) (some 5) 0 5 1 s = .ok f ∧
      f.msgsTo 8 = [.text] ∧ f.msgsTo 7 = [.text] := by
  have hs := run_seated (trioEnv []).toChanEnv trioOps _ rfl (by decide)
  obtain ⟨hbutone, _⟩ := fanout_once (trioEnv_wired []) hs (by decide) (by decide : 5 ∈ [5, 6, 7, 8])
  obtain ⟨f, hrun, hf⟩ := hbutone 1 (by decide) 0
  refine ⟨_, f, rfl, hrun, hf.sent 8 ⟨⟨8, 0, 0⟩, by decide, ?_, by decide⟩,
    hf.sent 7 ⟨⟨6, 0, 0⟩, by decide, ?_, by decide⟩⟩
  · exact ⟨by decide, rfl, rfl⟩
  · exact ⟨by decide, rfl, rfl⟩

end TrIrcd
