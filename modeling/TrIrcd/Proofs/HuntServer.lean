import TrIrcd.Proofs.ClientLoop

/-!
# Where `hunt_server` sends a message

The lookups by name forget a client behind the link the message came from,
but not one that is connected directly, and such a client is that link itself
if it is behind it. The loop over the clients that match a mask leaves the
link out by name. And when the lookups have forgotten a server and the name is
no mask, the server is looked up once more, with no test.

So a message goes back exactly when it names, as it is, either the server at
the other end of the link or one behind it (`GoesBack`); the second needs a
name without wild cards (`huntServer_forward`).
-/

namespace TrIrcd

open TrIrcd.Lib

/-! ## Collapsing a mask without stars -/

theorem collapseFrom_cstr {quote : Bool} {p : List UInt8}
    (h : 0x2a ∉ collapseFrom false quote p) : collapseFrom false quote p = cstr p := by
  induction p generalizing quote with
  | nil => rfl
  | cons c p ih =>
      rw [collapseFrom] at h ⊢
      by_cases h0 : c = 0
      · rw [if_pos h0, h0, cstr_cons_zero]
      · rw [if_neg h0] at h ⊢
        rw [cstr_cons_of_ne h0]
        by_cases hstar : ¬quote = true ∧ c = 0x2a
        · rw [if_pos hstar, if_pos (by simp), hstar.2] at h
          exact absurd (List.mem_cons_self ..) h
        · rw [if_neg hstar] at h ⊢
          split
          · next hq =>
              rw [if_pos hq] at h
              rw [ih fun hb => h (List.mem_cons_of_mem _ hb)]
          · next hq =>
              rw [if_neg hq] at h
              rw [ih fun hb => h (List.mem_cons_of_mem _ hb)]

/-- A name without wild cards stays as it is. -/
theorem collapse_cstr {p : List UInt8} (h : 0x2a ∉ collapse p) : collapse p = cstr p :=
  collapseFrom_cstr h

namespace ClientList

section Mem

variable {S : ClientList} {clients : List Nat} (h : S.Lists clients) {ch : List UInt8}
include h

theorem next_mem {c d : Nat} (hc : c ∈ clients) (hn : S.next c = some d) : d ∈ clients := by
  obtain ⟨as, bs, hsplit⟩ := List.append_of_mem hc
  have hd := h.dlist
  rw [hsplit] at hd ⊢
  rw [hd.next_eq] at hn
  have := List.mem_of_head? hn
  simp [this]

theorem findFrom_mem {p : Nat → Bool} (fuel : Nat) :
    ∀ {x : Option Nat} {c : Nat}, (∀ d ∈ x, d ∈ clients) →
      findFrom S.next p fuel x = some c → c ∈ clients := by
  induction fuel with
  | zero => exact fun _ hc => by simp [findFrom] at hc
  | succ fuel ih =>
      intro x c hx hc
      cases x with
      | none => simp [findFrom] at hc
      | some d =>
          rw [findFrom] at hc
          split at hc
          · cases hc
            exact hx _ rfl
          · exact ih (fun e he => next_mem h (hx d rfl) he) hc

theorem find_mem {c : Nat} (hc : S.find ch = some c) : c ∈ clients :=
  (h.find_eq_some_iff.mp hc).1

/-- `next_client` stays in the list. -/
theorem nextClient_mem {x : Option Nat} {c : Nat} (hx : ∀ d ∈ x, d ∈ clients)
    (hc : S.nextClient ch x = some c) : c ∈ clients := by
  have hfrom : ∀ d ∈ (if S.find ch = none then x else S.find ch), d ∈ clients := by
    split
    · exact hx
    · exact fun d hd => find_mem h hd
  simp only [nextClient] at hc
  generalize (if S.find ch = none then x else S.find ch) = y at hc hfrom
  split at hc
  · cases hc
  · split at hc
    · exact hfrom c hc
    · exact findFrom_mem h _ hfrom hc

end Mem

theorem named_cstr {S : ClientList} {clients : List Nat} {ch : List UInt8} {c : Nat} :
    Named S clients (cstr ch) c ↔ Named S clients ch c := by
  simp [Named, ircStrcmp_eq_zero_iff, foldName_cstr, strhash, cstr_cstr]

end ClientList

namespace HuntSt

open ClientList

/-- The clients, of which those connected directly are their own link. -/
structure WellFormed (S : HuntSt) (clients : List Nat) : Prop where
  lists : S.Lists clients
  direct : ∀ c ∈ clients, S.MyConnect c → S.source c = c

section Lookups

variable {S : HuntSt} {clients : List Nat} (h : S.WellFormed clients) {ch : List UInt8}
include h

/-- `find_server` finds what `find_client` does, if that is a server. -/
theorem findServer_eq_some_iff {c : Nat} :
    S.findServer ch = some c ↔ Named S.toClientList clients ch c ∧ (S.IsServer c ∨ S.IsMe c) := by
  obtain ⟨V, hV, hm⟩ := h.lists.indexed
  have hzero : (strhash S.ircdRandomKey ch).toNat ≤ 0 ↔ strhash S.ircdRandomKey ch = 0 := by
    rw [Nat.le_zero, ← UInt32.toNat_inj]
    rfl
  simp only [findServer]
  split
  · next h0 =>
      refine iff_of_false (by simp) ?_
      rintro ⟨⟨-, -, hne⟩, -⟩
      exact hne (hzero.mp h0)
  · next h0 =>
      rw [hV.find]
      constructor
      · intro hf
        have hq := List.find?_some hf
        rw [decide_eq_true_iff] at hq
        exact ⟨⟨((hm _ c).mp (List.mem_of_find?_eq_some hf)).1, hq.2, fun hz => h0 (hzero.mpr hz)⟩,
          hq.1⟩
      · rintro ⟨⟨hc, hn, hne⟩, hserver⟩
        have hin : c ∈ V (strhash S.ircdRandomKey ch).toNat :=
          (hm _ c).mpr ⟨hc, by rw [strhash_congr hn]⟩
        have hsome : ((V (strhash S.ircdRandomKey ch).toNat).find? fun tmp =>
            (S.IsServer tmp ∨ S.IsMe tmp) ∧ ircStrcmp ch (S.name tmp) = 0).isSome :=
          List.find?_isSome.mpr ⟨c, hin, by simpa using ⟨hserver, hn⟩⟩
        obtain ⟨d, hd⟩ := Option.isSome_iff_exists.mp hsome
        have hq := List.find?_some hd
        rw [decide_eq_true_iff] at hq
        have hdm := ((hm _ d).mp (List.mem_of_find?_eq_some hd)).1
        rw [hd, (named_iff h.lists ⟨hc, hn, hne⟩ hdm).mp hq.2]

/-- The loop leaves out the link, and what is behind it. -/
theorem wildLoop_forward {cptr sptr : Nat} (fuel : Nat) :
    ∀ {x : Option Nat} {c : Nat}, (∀ d ∈ x, d ∈ clients) →
      S.wildLoop cptr sptr ch fuel x = some (some c) →
      c ∈ clients ∧ ¬(S.source c = S.source sptr ∧ ¬S.MyConnect c) ∧ c ≠ cptr := by
  induction fuel with
  | zero => exact fun _ hc => by simp [wildLoop] at hc
  | succ fuel ih =>
      intro x c hx hc
      rw [wildLoop] at hc
      split at hc
      · cases hc
      · next d hd =>
          have hdm := nextClient_mem h.lists hx hd
          have hnext : ∀ e ∈ S.next d, e ∈ clients := fun e he => next_mem h.lists hdm he
          split at hc
          · exact ih hnext hc
          · next hfrom =>
              split at hc
              · next hreg =>
                  cases hc
                  exact ⟨hdm, hfrom, hreg.2⟩
              · exact ih hnext hc

end Lookups

/-! ## The message -/

theorem forward_eq_some_iff {S : HuntSt} {sptr c : Nat} {acptr : Option Nat} :
    S.forward sptr acptr = some c ↔
      acptr = some c ∧ ¬(S.source c = S.source sptr ∧ ¬S.MyConnect c) := by
  rw [forward, Option.filter_eq_some_iff, decide_eq_true_iff]

theorem passOn_eq_pass {S : HuntSt} {tok1Msgtab : UInt8 → List UInt8} {token : List UInt8}
    {server : Nat} {parv parv' : List (List UInt8)} {x : Option Nat} {c : Nat}
    {command : List UInt8}
    (hp : S.passOn tok1Msgtab token server parv x = .pass c command parv') :
    x = some c ∧ ¬S.IsMe c ∧ ¬S.MyClient c := by
  cases x with
  | none => simp [passOn] at hp
  | some d =>
      rw [passOn] at hp
      split at hp
      · cases hp
      · next hno =>
          cases hp
          exact ⟨rfl, not_or.mp hno⟩

theorem passOn_some {S : HuntSt} (tok1Msgtab : UInt8 → List UInt8) (token : List UInt8)
    (server : Nat) (parv : List (List UInt8)) {c : Nat} (hc : ¬S.IsMe c ∧ ¬S.MyClient c) :
    ∃ command parv', S.passOn tok1Msgtab token server parv (some c) = .pass c command parv' := by
  rw [passOn, if_neg (not_or.mpr hc)]
  exact ⟨_, _, rfl⟩

/-- What the first lookup has forgotten, the second forgets. -/
theorem forward_findServer {S : HuntSt} {clients : List Nat} (h : S.WellFormed clients)
    {ch : List UInt8} {sptr : Nat} (hf : S.forward sptr (S.find ch) = none) :
    S.forward sptr (S.findServer ch) = none := by
  cases hs : S.forward sptr (S.findServer ch) with
  | none => rfl
  | some c =>
      obtain ⟨hfind, hfrom⟩ := forward_eq_some_iff.mp hs
      have hnamed := ((findServer_eq_some_iff h).mp hfind).1
      rw [forward_eq_some_iff.mpr ⟨h.lists.find_eq_some_iff.mpr hnamed, hfrom⟩] at hf
      cases hf

/-- The first three tests of `hunt_server`. -/
def ForMe (S : HuntSt) (server parc : Nat) (parv : List (List UInt8)) : Prop :=
  parc ≤ server ∨ cstr (parv.getD server []) = [] ∨
    ircMatch (S.name S.me) (parv.getD server []) = 0 ∨
    ircMatch (parv.getD server []) (S.name S.me) = 0

/-- The parameter is taken for another server's, and it names, as it is, a
client that is the link of `sptr` and can be sent to, or else a server behind
that link, without wild cards. -/
structure GoesBack (S : HuntSt) (clients : List Nat) (sptr server parc : Nat)
    (parv : List (List UInt8)) : Prop where
  other : ¬S.ForMe server parc parv
  named : ∃ c, Named S.toClientList clients (parv.getD server []) c ∧ S.source c = S.source sptr ∧
    if S.MyConnect c then ¬S.IsMe c ∧ ¬S.MyClient c
    else S.IsServer c ∧ ¬(0x3f ∈ collapse (parv.getD server []) ∨
      0x2a ∈ collapse (parv.getD server []))

section Message

variable {S : HuntSt} {clients : List Nat} {fuel cptr sptr : Nat}
  {tok1Msgtab : UInt8 → List UInt8} {token : List UInt8} {server parc : Nat}
  {parv : List (List UInt8)}

theorem huntServer_forMe (hme : S.ForMe server parc parv) :
    S.huntServer fuel tok1Msgtab cptr sptr token server parc parv = some .isMe := by
  rw [ForMe] at hme
  simp only [huntServer]
  rw [if_pos hme]

theorem huntServer_found (hme : ¬S.ForMe server parc parv) {c : Nat}
    (hc : S.forward sptr (S.find (parv.getD server [])) = some c) :
    S.huntServer fuel tok1Msgtab cptr sptr token server parc parv =
      some (S.passOn tok1Msgtab token server
        (parv.set server (collapse (parv.getD server []))) (some c)) := by
  rw [ForMe] at hme
  simp only [huntServer, hc]
  rw [if_neg hme, if_neg (by simp), if_neg (by simp)]

theorem huntServer_notFound (h : S.WellFormed clients) (hme : ¬S.ForMe server parc parv)
    (hc : S.forward sptr (S.find (parv.getD server [])) = none) :
    S.huntServer fuel tok1Msgtab cptr sptr token server parc parv =
      let name := collapse (parv.getD server [])
      let parv := parv.set server name
      if ¬(0x3f ∈ name ∨ 0x2a ∈ name) then
        match S.findServer name with
        | none => some (.noSuch name)
        | some acptr =>
            if ¬S.IsRegistered acptr ∨ ¬S.IsServer acptr then some (.noSuch name)
            else some (S.passOn tok1Msgtab token server parv (some acptr))
      else
        (S.wildLoop cptr sptr name fuel S.globalClientList).map
          (S.passOn tok1Msgtab token server parv) := by
  have hc' := forward_findServer h hc
  rw [ForMe] at hme
  simp only [huntServer, hc, hc']
  exact (if_neg hme).trans (if_pos (by simp))

end Message

/-- `hunt_server` sends a message back to the link it came from exactly when
the message goes back by its name. -/
theorem huntServer_forward {S : HuntSt} {clients : List Nat} (h : S.WellFormed clients)
    {cptr sptr : Nat} (hcptr : S.source sptr = cptr) (tok1Msgtab : UInt8 → List UInt8)
    (token : List UInt8) (server parc : Nat) (parv : List (List UInt8)) :
    (∀ fuel acptr command parv',
      S.huntServer fuel tok1Msgtab cptr sptr token server parc parv =
        some (.pass acptr command parv') → S.source acptr ≠ S.source sptr) ↔
    ¬GoesBack S clients sptr server parc parv := by
  constructor
  · rintro hpass ⟨hme, c, hnamed, hfrom, hc⟩
    have hfind := h.lists.find_eq_some_iff.mpr hnamed
    by_cases hmy : S.MyConnect c
    · -- The link itself is not forgotten.
      rw [if_pos hmy] at hc
      have hkept := (@forward_eq_some_iff S sptr c _).mpr ⟨hfind, fun hb => hb.2 hmy⟩
      obtain ⟨command, parv', hp⟩ := passOn_some tok1Msgtab token server
        (parv.set server (collapse (parv.getD server []))) hc
      exact hpass 0 c command parv' (by rw [huntServer_found hme hkept, hp]) hfrom
    · -- A server behind it is looked up again.
      rw [if_neg hmy] at hc
      obtain ⟨hserver, hwild⟩ := hc
      have hforgot : S.forward sptr (S.find (parv.getD server [])) = none := by
        rw [hfind, forward, Option.filter_some_neg (by simp [hfrom, hmy])]
      have hcollapse := collapse_cstr fun hb => hwild (.inr hb)
      have hagain : S.findServer (collapse (parv.getD server [])) = some c := by
        rw [hcollapse]
        exact (findServer_eq_some_iff h).mpr ⟨named_cstr.mpr hnamed, .inl hserver⟩
      have hstatus : S.status c = statServer := hserver
      have hreg : ¬(¬S.IsRegistered c ∨ ¬S.IsServer c) := by
        rintro (hb | hb)
        · exact hb (Int.le_of_eq hstatus.symm)
        · exact hb hserver
      obtain ⟨command, parv', hp⟩ := passOn_some tok1Msgtab token server
        (parv.set server (collapse (parv.getD server [])))
        ⟨(by rw [IsMe, hstatus]; decide), fun hb => hmy hb.1⟩
      refine hpass 0 c command parv' ?_ hfrom
      rw [huntServer_notFound h hme hforgot]
      dsimp only
      rw [if_pos hwild, hagain]
      dsimp only
      rw [if_neg hreg, hp]
  · intro hback fuel acptr command parv' hrun hfrom
    by_cases hme : S.ForMe server parc parv
    · rw [huntServer_forMe hme] at hrun
      cases hrun
    cases hfound : S.forward sptr (S.find (parv.getD server [])) with
    | some c =>
        rw [huntServer_found hme hfound, Option.some.injEq] at hrun
        obtain ⟨hsame, hc⟩ := passOn_eq_pass hrun
        cases hsame
        obtain ⟨hfind, hkept⟩ := forward_eq_some_iff.mp hfound
        have hmy : S.MyConnect acptr := by_contra fun hb => hkept ⟨hfrom, hb⟩
        exact hback ⟨hme, acptr, h.lists.find_eq_some_iff.mp hfind, hfrom,
          by rw [if_pos hmy]; exact hc⟩
    | none =>
        rw [huntServer_notFound h hme hfound] at hrun
        dsimp only at hrun
        split at hrun
        · next hwild =>
            have hcollapse := collapse_cstr fun hb => hwild (.inr hb)
            split at hrun
            · cases hrun
            · next c hagain =>
                split at hrun
                · cases hrun
                · next hreg =>
                    rw [Option.some.injEq] at hrun
                    obtain ⟨hsame, hc⟩ := passOn_eq_pass hrun
                    cases hsame
                    rw [hcollapse, findServer_eq_some_iff h, named_cstr] at hagain
                    have hfind := h.lists.find_eq_some_iff.mpr hagain.1
                    have hmy : ¬S.MyConnect acptr := fun hmy => by
                      rw [forward_eq_some_iff.mpr ⟨hfind, fun hb => hb.2 hmy⟩] at hfound
                      cases hfound
                    have hserver : S.IsServer acptr := by_contra fun hb => hreg (.inr hb)
                    exact hback ⟨hme, acptr, hagain.1, hfrom, by
                      rw [if_neg hmy]
                      exact ⟨hserver, hwild⟩⟩
        · rw [Option.map_eq_some_iff] at hrun
          obtain ⟨x, hloop, hp⟩ := hrun
          obtain ⟨rfl, -⟩ := passOn_eq_pass hp
          have hhead : ∀ d ∈ S.globalClientList, d ∈ clients := by
            rw [h.lists.dlist.1.head_eq]
            exact fun d hd => List.mem_of_head? hd
          obtain ⟨hmem, hkept, hne⟩ := wildLoop_forward h fuel hhead hloop
          have hmy : S.MyConnect acptr := by_contra fun hb => hkept ⟨hfrom, hb⟩
          exact hne (by rw [← h.direct acptr hmem hmy, hfrom, hcptr])

/-- This server is `a`, and `b` is its neighbour. -/
def twoServers : HuntSt where
  toClientList := twoClients
  me := 0
  fd c := if c = 1 then 5 else -1
  source := id
  status c := if c = 1 then statServer else statMe
  isToken1 _ := false

theorem twoServers_wellFormed : twoServers.WellFormed [1, 0] :=
  ⟨twoClients_lists, fun _ _ _ => rfl⟩

/-- A message of this server for `b` goes to `b`. -/
theorem huntServer_forward_b :
    twoServers.huntServer 0 (fun _ => [0x58]) 0 0 [0x58] 1 2 [[0x61], [0x62]] =
      some (.pass 1 [0x58] [[0x61], [0x62]]) ∧
    ∀ fuel acptr command parv',
      twoServers.huntServer fuel (fun _ => [0x58]) 0 0 [0x58] 1 2 [[0x61], [0x62]] =
        some (.pass acptr command parv') → twoServers.source acptr ≠ twoServers.source 0 := by
  refine ⟨by decide, (huntServer_forward twoServers_wellFormed rfl _ _ 1 2 _).mpr ?_⟩
  rintro ⟨-, c, hnamed, hfrom, -⟩
  have hc : c = 0 := hfrom
  rw [hc] at hnamed
  exact absurd hnamed.2.1 (by decide)

/-- A message of `b` for `b` goes back. -/
theorem huntServer_back :
    twoServers.WellFormed [1, 0] ∧ twoServers.source 1 = 1 ∧
    ¬∀ fuel acptr command parv',
      twoServers.huntServer fuel (fun _ => [0x58]) 1 1 [0x58] 1 2 [[0x62], [0x62]] =
        some (.pass acptr command parv') → twoServers.source acptr ≠ twoServers.source 1 := by
  refine ⟨twoServers_wellFormed, rfl, fun hpass => ?_⟩
  exact hpass 0 1 [0x58] [[0x62], [0x62]] (by decide) rfl

end HuntSt

end TrIrcd
