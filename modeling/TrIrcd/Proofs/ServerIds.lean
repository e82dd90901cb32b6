import TrIrcd.Proofs.Identity

/-!
# The table of server identities

`MAKE_ID` shifts a server number by 24 bits into a word of 32, and keeps its
low byte. So the digits a server sends name the slot of its low byte, and
`add_base64_server` puts it there, whatever its number is; only
`init_identity` uses the whole number. `Filed` says where the servers stand in
every reachable state. From it follows which servers can still be added, and
for which numbers a lookup is right (`run_serverIds`): those whose low byte no
registered server with another number has.
-/

namespace TrIrcd

open Function (update)
open TrIrcd.Lib

/-- The slot a server stands in when it is registered. -/
def Numbering.slot (N : Numbering) (c : Nat) : UInt16 :=
  if c = me then N.ident me else N.ident c &&& 0xFF

open IdSt

namespace ServIdSt

/-- Who is registered stands in its slot, and nobody else does. -/
structure Filed (N : Numbering) (s : ServIdSt) : Prop where
  member : ∀ c, s.hasId c = true → c ∈ N.servers
  table : ∀ i c, s.ids.servIdTable i = some c ↔ s.hasId c = true ∧ i = N.slot c
  id : ∀ c, s.hasId c = true → c ≠ me → s.ids.id c = makeId (N.ident c).toUInt32 0

/-- A lookup answers the server registered under the number, and none if there
is none. -/
def LookupRight (N : Numbering) (s : ServIdSt) (serverid : UInt16) : Prop :=
  (∀ c, s.hasId c = true → N.ident c = serverid →
      (s.findServerByBase64Id (idText serverid)).map Prod.fst = some c) ∧
    ((∀ c, s.hasId c = true → N.ident c ≠ serverid) →
      s.findServerByBase64Id (idText serverid) = none)

section

variable {N : Numbering} {s : ServIdSt} {c : Nat} {serverid : UInt16}

theorem low_byte (x : UInt16) : (x.toUInt32 &&& 0xFF).toUInt16 = x &&& 0xFF := by
  simp

theorem idText_slot (serverid : UInt16) :
    (serveridPart (base64ToInt (idText serverid))).toUInt16 = serverid &&& 0xFF := by
  rw [idText, base64ToInt_intToBase64, serveridPart_makeId, low_byte]

theorem slot_le (serverid : UInt16) : ¬ serverid &&& 0xFF > maxServIdentity := by
  have h : (serverid &&& 0xFF).toNat ≤ 0xFF := by
    rw [UInt16.toNat_and]
    exact Nat.and_le_right
  have hmax : maxServIdentity.toNat = 0xFFF := rfl
  rw [gt_iff_lt, UInt16.lt_iff_toNat_lt, hmax]
  omega

/-- A lookup reads the slot of the low byte. -/
theorem findServer_eq (s : ServIdSt) (serverid : UInt16) :
    s.findServerByBase64Id (idText serverid) =
      (s.ids.servIdTable (serverid &&& 0xFF)).map fun c => (c, base64ToInt (idText serverid)) := by
  simp only [findServerByBase64Id, idText_slot, if_neg (slot_le serverid)]

theorem slot_of_ne (hc : c ≠ me) : N.slot c = N.ident c &&& 0xFF := if_neg hc

theorem idText_userid (serverid : UInt16) : useridPart (base64ToInt (idText serverid)) = 0 := by
  rw [idText, base64ToInt_intToBase64, useridPart_makeId]
  decide

/-- The digits have room in `string`. -/
theorem idText_short (serverid : UInt16) : ¬ 8 ≤ (cstr (idText serverid)).length := by
  have hcstr := cstr_length_le (idText serverid)
  have hdigits := (length_intToBase64 (makeId serverid.toUInt32 0)).2
  rw [← idText] at hdigits
  omega

/-- A server is refused if its slot is held. -/
theorem addBase64Server_held (s : ServIdSt) (c : Nat) (serverid : UInt16)
    (h : (s.ids.servIdTable (serverid &&& 0xFF)).isSome = true) :
    s.addBase64Server c (idText serverid) = .ok (-1, s) := by
  rw [addBase64Server]
  simp only [idText_slot]
  rw [if_pos (.inr h)]

/-- And it is added if its slot is empty. -/
theorem addBase64Server_free (s : ServIdSt) (c : Nat) (serverid : UInt16)
    (h : ¬ (s.ids.servIdTable (serverid &&& 0xFF)).isSome = true) :
    ∃ s', s.addBase64Server c (idText serverid) = .ok (0, s') ∧
      s'.hasId = update s.hasId c true ∧
      s'.ids.servIdTable = update s.ids.servIdTable (serverid &&& 0xFF) (some c) ∧
      s'.ids.id = update s.ids.id c (makeId serverid.toUInt32 0) := by
  rw [addBase64Server]
  simp only [idText_slot, idText_userid]
  rw [if_neg (by simpa using h), if_neg (idText_short serverid)]
  refine ⟨_, rfl, rfl, rfl, ?_⟩
  rw [idText, base64ToInt_intToBase64]
  rfl

theorem Filed.slot_inj (h : Filed N s) {d : Nat} (hc : s.hasId c = true) (hd : s.hasId d = true)
    (hs : N.slot c = N.slot d) : c = d := by
  have h1 := (h.table (N.slot c) c).mpr ⟨hc, rfl⟩
  have h2 := (h.table (N.slot c) d).mpr ⟨hd, hs⟩
  exact Option.some.inj (h1.symm.trans h2)

theorem Filed.isSome_iff (h : Filed N s) {i : UInt16} :
    (s.ids.servIdTable i).isSome = true ↔ ∃ d, s.hasId d = true ∧ i = N.slot d := by
  rw [Option.isSome_iff_exists]
  exact exists_congr fun d => h.table i d

/-! ## Runs -/

theorem init_filed (N : Numbering) : Filed N (init (N.ident me)) := by
  have hle : ¬ N.ident me > maxServIdentity := UInt16.not_lt.mpr (N.range me N.me_mem).2
  have hok : (initIdentity (N.ident me) blank).1 = 0 := by
    rw [initIdentity, if_neg hle]
  have htable : (init (N.ident me)).ids.servIdTable = update (fun _ => none) (N.ident me) (some me) := by
    rw [init, initIdentity, if_neg hle]
    rfl
  have hhas : ∀ c, (init (N.ident me)).hasId c = true ↔ c = me := by
    intro c
    simp only [init, hok, and_true, decide_eq_true_eq]
  refine ⟨fun c hc => ?_, fun i c => ?_, fun c hc hne => absurd ((hhas c).mp hc) hne⟩
  · rw [(hhas c).mp hc]
    exact N.me_mem
  · rw [htable, hhas]
    by_cases hi : i = N.ident me
    · rw [hi, Function.update_self, Option.some.injEq]
      refine ⟨fun hc => ⟨hc.symm, ?_⟩, fun hc => hc.1.symm⟩
      rw [← hc]
      exact (if_pos rfl).symm
    · rw [Function.update_of_ne hi]
      refine iff_of_false (by simp) fun hc => hi ?_
      rw [hc.2, hc.1]
      exact if_pos rfl

theorem addBase64Server_filed {r : Int} {s' : ServIdSt} (h : Filed N s) (hc : c ∈ N.servers)
    (hne : c ≠ me) (hadd : s.addBase64Server c (idText (N.ident c)) = .ok (r, s')) :
    Filed N s' := by
  by_cases hfree : (s.ids.servIdTable (N.ident c &&& 0xFF)).isSome = true
  · rw [addBase64Server_held s c _ hfree] at hadd
    cases hadd
    exact h
  have hempty : s.ids.servIdTable (N.slot c) = none := by
    rw [slot_of_ne hne]
    exact Option.not_isSome_iff_eq_none.mp hfree
  obtain ⟨k, hk, hhas, htable, hid⟩ := addBase64Server_free s c _ hfree
  rw [hk] at hadd
  cases hadd
  rw [← slot_of_ne hne] at htable
  refine ⟨fun d hd => ?_, fun i d => ?_, fun d hd hdm => ?_⟩
  · rw [hhas] at hd
    by_cases hdc : d = c
    · rw [hdc]
      exact hc
    · rw [Function.update_of_ne hdc] at hd
      exact h.member d hd
  · rw [hhas, htable]
    by_cases hi : i = N.slot c
    · rw [hi, Function.update_self, Option.some.injEq]
      refine ⟨fun he => by rw [← he, Function.update_self]; exact ⟨rfl, rfl⟩, fun ⟨hd, hs⟩ => ?_⟩
      by_contra hcd
      rw [Function.update_of_ne (Ne.symm hcd)] at hd
      have hfound := (h.table (N.slot c) d).mpr ⟨hd, hs⟩
      rw [hempty] at hfound
      cases hfound
    · rw [Function.update_of_ne hi, h.table i d]
      by_cases hdc : d = c
      · rw [hdc]
        exact iff_of_false (fun hd => hi hd.2) fun hd => hi hd.2
      · rw [Function.update_of_ne hdc]
  · rw [hhas] at hd
    rw [hid]
    by_cases hdc : d = c
    · rw [hdc, Function.update_self]
    · rw [Function.update_of_ne hdc] at hd ⊢
      exact h.id d hd hdm

theorem remBase64Server_fields (s : ServIdSt) (c : Nat) :
    (s.remBase64Server c).hasId = update s.hasId c false ∧
      (s.remBase64Server c).ids.servIdTable =
        update s.ids.servIdTable (serveridPart (s.ids.id c)).toUInt16 none ∧
      (s.remBase64Server c).ids.id = s.ids.id := by
  have hids : (remUseridFromServer c c s.ids).2.id = s.ids.id ∧
      (remUseridFromServer c c s.ids).2.servIdTable = s.ids.servIdTable := by
    rw [remUseridFromServer]
    split <;> exact ⟨rfl, rfl⟩
  simp only [remBase64Server, hids.1, hids.2]
  exact ⟨trivial, trivial, trivial⟩

theorem remBase64Server_filed (h : Filed N s) (hc : s.hasId c = true) (hne : c ≠ me) :
    Filed N (s.remBase64Server c) := by
  obtain ⟨hhas, htable, hid⟩ := remBase64Server_fields s c
  have hslot : (serveridPart (s.ids.id c)).toUInt16 = N.slot c := by
    rw [h.id c hc hne, serveridPart_makeId, low_byte, slot_of_ne hne]
  rw [hslot] at htable
  have hstay : ∀ d, update s.hasId c false d = true → d ≠ c ∧ s.hasId d = true := by
    intro d hd
    by_cases hdc : d = c
    · rw [hdc, Function.update_self] at hd
      cases hd
    · rw [Function.update_of_ne hdc] at hd
      exact ⟨hdc, hd⟩
  refine ⟨fun d hd => ?_, fun i d => ?_, fun d hd hdm => ?_⟩
  · rw [hhas] at hd
    exact h.member d (hstay d hd).2
  · rw [hhas, htable]
    by_cases hi : i = N.slot c
    · rw [hi, Function.update_self]
      refine iff_of_false (by simp) fun ⟨hd, hs⟩ => ?_
      exact (hstay d hd).1 (h.slot_inj hc (hstay d hd).2 hs).symm
    · rw [Function.update_of_ne hi, h.table i d]
      by_cases hdc : d = c
      · rw [hdc]
        exact iff_of_false (fun hd => hi hd.2) fun hd => hi hd.2
      · rw [Function.update_of_ne hdc]
  · rw [hhas] at hd
    rw [hid]
    exact h.id d (hstay d hd).2 hdm

theorem step_filed (s : ServIdSt) (op : ServIdOp) (s' : ServIdSt) (h : Filed N s)
    (hs : step N s op = .ok s') : Filed N s' := by
  cases op with
  | add c =>
      rw [step] at hs
      split at hs
      · next hc =>
          obtain ⟨⟨r, k⟩, hk, rfl⟩ := map_ok_iff.mp hs
          exact addBase64Server_filed h hc.1 hc.2 hk
      · cases hs
  | rem c =>
      rw [step] at hs
      split at hs
      · next hc =>
          cases hs
          exact remBase64Server_filed h hc.2.2 hc.2.1
      · cases hs

/-! ## What the table answers -/

theorem add_iff (h : Filed N s) (c : Nat) :
    (s.addBase64Server c (idText (N.ident c))).map Prod.fst = .ok 0 ↔
      ∀ d, s.hasId d = true → N.slot d ≠ N.ident c &&& 0xFF := by
  by_cases hs : (s.ids.servIdTable (N.ident c &&& 0xFF)).isSome = true
  · obtain ⟨d, hd, he⟩ := h.isSome_iff.mp hs
    rw [addBase64Server_held s c _ hs]
    refine iff_of_false (fun hok => ?_) fun hall => hall d hd he.symm
    cases hok
  · obtain ⟨k, hk, -⟩ := addBase64Server_free s c _ hs
    rw [hk]
    refine iff_of_true rfl fun d hd he => hs ?_
    exact h.isSome_iff.mpr ⟨d, hd, he.symm⟩

theorem lookup_iff (h : Filed N s) (serverid : UInt16) :
    LookupRight N s serverid ↔
      ∀ c, s.hasId c = true → (N.slot c = serverid &&& 0xFF ↔ N.ident c = serverid) := by
  rw [LookupRight, findServer_eq, Option.map_map]
  constructor
  · intro hr c hc
    constructor
    · intro hs
      by_contra hne
      have hfound := (h.table (serverid &&& 0xFF) c).mpr ⟨hc, hs.symm⟩
      by_cases hex : ∃ d, s.hasId d = true ∧ N.ident d = serverid
      · obtain ⟨d, hd, hid⟩ := hex
        have hd' := hr.1 d hd hid
        rw [hfound] at hd'
        cases hd'
        exact hne hid
      · have hnone := hr.2 fun d hd hid => hex ⟨d, hd, hid⟩
        rw [hfound] at hnone
        cases hnone
    · intro hid
      have hfound := hr.1 c hc hid
      cases ht : s.ids.servIdTable (serverid &&& 0xFF) with
      | none =>
          rw [ht] at hfound
          cases hfound
      | some d =>
          rw [ht] at hfound
          have hdc : d = c := Option.some.inj hfound
          rw [hdc] at ht
          exact ((h.table _ c).mp ht).2.symm
  · intro hall
    refine ⟨fun c hc hid => ?_, fun hno => ?_⟩
    · rw [(h.table _ c).mpr ⟨hc, ((hall c hc).mpr hid).symm⟩]
      rfl
    · cases ht : s.ids.servIdTable (serverid &&& 0xFF) with
      | none => rfl
      | some d =>
          obtain ⟨hd, hs⟩ := (h.table _ d).mp ht
          exact absurd ((hall d hd).mp hs.symm) (hno d hd)

/-- In every run after `init_identity`, a server that is not registered can be
added if and only if no registered one stands in the slot of its low byte; and
the lookup of a number is right if and only if the servers in the slot of its
low byte are those registered under it. -/
theorem run_serverIds (N : Numbering) (ops : List ServIdOp) {s : ServIdSt}
    (hrun : run (step N) (init (N.ident me)) ops = .ok s) :
    (∀ c ∈ N.servers, s.hasId c = false →
      ((s.addBase64Server c (idText (N.ident c))).map Prod.fst = .ok 0 ↔
        ∀ d, s.hasId d = true → N.slot d ≠ N.ident c &&& 0xFF)) ∧
      ∀ serverid, LookupRight N s serverid ↔
        ∀ c, s.hasId c = true → (N.slot c = serverid &&& 0xFF ↔ N.ident c = serverid) := by
  have h : Filed N s := run_invariant step_filed ops (init_filed N) hrun
  exact ⟨fun c _ _ => add_iff h c, lookup_iff h⟩

end

/-- Two servers, 1 and 0x101. -/
def twoServers : Numbering where
  servers := [me, 1]
  ident c := if c = me then 1 else 0x101
  me_mem := List.mem_cons_self
  range := by decide
  inj := by decide

/-- The second cannot be added, and its digits find the first. -/
theorem twoServers_collide :
    let s := init (twoServers.ident me)
    s.hasId 1 = false ∧ (s.addBase64Server 1 (idText (twoServers.ident 1))).map Prod.fst = .ok (-1) ∧
      (∀ c, s.hasId c = true → twoServers.ident c ≠ 0x101) ∧
      s.findServerByBase64Id (idText 0x101) = some (me, 0x1000000) := by
  refine ⟨by decide, by decide, fun c hc => ?_, by decide⟩
  have hme : c = me := by
    have h : c = me ∧ (initIdentity (twoServers.ident me) blank).1 = 0 := of_decide_eq_true hc
    exact h.1
  subst hme
  decide

/-- Three servers whose numbers have low bytes of their own. -/
def threeServers : Numbering where
  servers := [me, 1, 2]
  ident c := if c = me then 1 else if c = 1 then 2 else 0x103
  me_mem := List.mem_cons_self
  range := by decide
  inj := by decide

theorem run_serverIds_three :
    ∃ s, run (step threeServers) (init (threeServers.ident me)) [.add 1, .rem 1] = .ok s ∧
      (s.addBase64Server 2 (idText 0x103)).map Prod.fst = .ok 0 := by
  refine ⟨_, rfl, ((run_serverIds threeServers [.add 1, .rem 1] rfl).1 2 (by decide)
    (by decide)).mpr fun d hd => ?_⟩
  have hd' : update (update (init 1).hasId 1 true) 1 false d = true := hd
  by_cases h1 : d = 1
  · rw [h1, Function.update_self] at hd'
    cases hd'
  · rw [Function.update_of_ne h1, Function.update_of_ne h1] at hd'
    have hme : d = me := (of_decide_eq_true hd').1
    rw [hme]
    decide

end ServIdSt

end TrIrcd
