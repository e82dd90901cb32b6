import TrIrcd.Lib.Run
import TrIrcd.Proofs.Base64
import Mathlib.Logic.Function.Iterate

/-!
# What the identity tables hold

The counter first: `nextLocaluserId` runs through all the numbers from 1 to
`maxUserIdentity`, and the loop that turns it stops at the first that is not
taken, if there is one (`seekLocaluserId_eq_some`,
`seekLocaluserId_eq_none`).

Then the buckets. `Numbered` says that in any run they hold exactly the
clients that hold an identity and, if `init_identity` succeeded, the server
itself, each in the bucket of its number. What such a state guarantees about
two clients of equal number is `low`: numbers that fit 16 bits are never
handed out twice, because the test for a number in use sees exactly those.
-/

namespace TrIrcd

open Function (update)
open TrIrcd.Lib

/-! ## The counter -/

theorem nextLocaluserId_pos (last : Nat) : 0 < nextLocaluserId last := by
  rw [nextLocaluserId, minUserIdentity]
  split <;> omega

theorem nextLocaluserId_le (last : Nat) : nextLocaluserId last ≤ maxUserIdentity := by
  rw [nextLocaluserId, minUserIdentity, maxUserIdentity]
  split <;> omega

theorem iterate_nextLocaluserId {last : Nat} :
    ∀ {k : Nat}, last + k ≤ maxUserIdentity → nextLocaluserId^[k] last = last + k := by
  intro k
  induction k with
  | zero => exact fun _ => rfl
  | succ k ih =>
      intro hle
      rw [Function.iterate_succ_apply', ih (by omega), nextLocaluserId, if_neg (by omega)]
      rfl

/-- The loop stops at the first number that is not taken. -/
theorem seekLocaluserId_eq_some {taken : Nat → Bool} {n : Nat} :
    ∀ {fuel last : Nat}, seekLocaluserId taken fuel last = some n ↔
      ∃ k < fuel, n = nextLocaluserId^[k + 1] last ∧ taken n = false ∧
        ∀ j < k, taken (nextLocaluserId^[j + 1] last) = true := by
  intro fuel
  induction fuel with
  | zero => intro last; simp [seekLocaluserId]
  | succ fuel ih =>
      intro last
      rw [seekLocaluserId]
      cases ht : taken (nextLocaluserId last) with
      | true =>
          rw [if_pos rfl, ih]
          constructor
          · rintro ⟨k, hk, rfl, hfree, hbusy⟩
            refine ⟨k + 1, by omega, rfl, hfree, fun j hj => ?_⟩
            cases j with
            | zero => exact ht
            | succ j => exact hbusy j (by omega)
          · rintro ⟨k, hk, rfl, hfree, hbusy⟩
            cases k with
            | zero =>
                rw [show nextLocaluserId^[0 + 1] last = nextLocaluserId last from rfl,
                  ht] at hfree
                cases hfree
            | succ k =>
                exact ⟨k, by omega, rfl, hfree, fun j hj => hbusy (j + 1) (by omega)⟩
      | false =>
          rw [if_neg (by simp), Option.some.injEq]
          constructor
          · intro heq
            subst heq
            exact ⟨0, by omega, rfl, ht, fun j hj => absurd hj (Nat.not_lt_zero j)⟩
          · rintro ⟨k, hk, rfl, hfree, hbusy⟩
            cases k with
            | zero => rfl
            | succ k =>
                have := hbusy 0 (by omega)
                rw [show nextLocaluserId^[0 + 1] last = nextLocaluserId last from rfl,
                  ht] at this
                cases this

theorem seekLocaluserId_eq_none_busy {taken : Nat → Bool} :
    ∀ {fuel last : Nat}, seekLocaluserId taken fuel last = none →
      ∀ j < fuel, taken (nextLocaluserId^[j + 1] last) = true := by
  intro fuel
  induction fuel with
  | zero => exact fun _ j hj => absurd hj (Nat.not_lt_zero j)
  | succ fuel ih =>
      intro last h j hj
      rw [seekLocaluserId] at h
      cases ht : taken (nextLocaluserId last) with
      | true =>
          rw [ht, if_pos rfl] at h
          cases j with
          | zero => exact ht
          | succ j => exact ih h j (by omega)
      | false =>
          rw [ht, if_neg (by simp)] at h
          cases h

/-- The fuel covers every number: with none of them free the loop of the
source has nothing to stop at. -/
theorem seekLocaluserId_eq_none {taken : Nat → Bool} {last : Nat}
    (hlast : last ≤ maxUserIdentity)
    (h : seekLocaluserId taken maxUserIdentity last = none) {n : Nat} (hn : 0 < n)
    (hle : n ≤ maxUserIdentity) : taken n = true := by
  have hbusy := seekLocaluserId_eq_none_busy h
  by_cases hlt : last < n
  · have := hbusy (n - last - 1) (by omega)
    rw [iterate_nextLocaluserId (by omega)] at this
    rwa [show last + (n - last - 1 + 1) = n by omega] at this
  · -- Up to the last number, over to 1, and on to `n`.
    have := hbusy (maxUserIdentity - last + n - 1) (by omega)
    have hwrap : nextLocaluserId maxUserIdentity = 1 := by decide
    have hlast' : nextLocaluserId^[maxUserIdentity - last] last = maxUserIdentity := by
      rw [iterate_nextLocaluserId (by omega)]
      omega
    have hfirst : nextLocaluserId^[n - 1] 1 = n := by
      rw [iterate_nextLocaluserId (by omega)]
      omega
    rw [show maxUserIdentity - last + n - 1 + 1 =
        (n - 1) + (1 + (maxUserIdentity - last)) by omega, Function.iterate_add_apply,
      Function.iterate_add_apply, hlast', Function.iterate_one, hwrap, hfirst] at this
    exact this

namespace IdSt

/-- The number at which the counter stops next: it is not found in use, and
every number passed on the way is. -/
def StopsAt (s : IdSt) (n : Nat) : Prop :=
  ∃ k, n = nextLocaluserId^[k + 1] s.lastLocaluserId ∧ useridTaken s n = false ∧
    ∀ j < k, useridTaken s (nextLocaluserId^[j + 1] s.lastLocaluserId) = true

theorem StopsAt.unique {s : IdSt} {n m : Nat} (hn : s.StopsAt n) (hm : s.StopsAt m) :
    n = m := by
  obtain ⟨k, rfl, hfree, hbusy⟩ := hn
  obtain ⟨l, rfl, hfree', hbusy'⟩ := hm
  rcases Nat.lt_trichotomy k l with h | rfl | h
  · rw [hbusy' k h] at hfree
    cases hfree
  · rfl
  · rw [hbusy l h] at hfree'
    cases hfree'

theorem StopsAt.range {s : IdSt} {n : Nat} (hn : s.StopsAt n) :
    0 < n ∧ n ≤ maxUserIdentity := by
  obtain ⟨k, rfl, -, -⟩ := hn
  rw [Function.iterate_succ_apply']
  exact ⟨nextLocaluserId_pos _, nextLocaluserId_le _⟩

/-! ## The buckets -/

/-- The clients the buckets hold: those with an identity, and this server
once `init_identity` has put it there. -/
def Entry (s : IdSt) (ok : Bool) (c : Nat) : Prop := s.Holds c ∨ ok = true ∧ c = me

/-- The buckets hold the entries, each under its number, and no two entries
have the same number of at most 16 bits. -/
structure Numbered (ok : Bool) (s : IdSt) : Prop where
  chains : ∃ V, Chains s.userid V ∧ ∀ srv i c, c ∈ V (srv, i) ↔
    srv = me ∧ s.Entry ok c ∧ hashCid (useridPart (s.id c)).toUInt16 = i
  meUid : s.uid me = 0
  low : ∀ c d, s.Holds c → s.Holds d → s.uid c = s.uid d → s.uid c ≤ 0xFFFF → c = d

theorem toUInt16_of_uid {s : IdSt} {c : Nat} {id : UInt16} (h : s.uid c = id.toNat) :
    (useridPart (s.id c)).toUInt16 = id := by
  apply UInt16.toNat_inj.mp
  have hlt := UInt16.toNat_lt id
  rw [UInt32.toNat_toUInt16]
  show s.uid c % 2 ^ 16 = _
  omega

theorem ofNat_toNat16 (n : Nat) : (UInt16.ofNat n).toNat = n % 0x10000 := by
  rw [UInt16.toNat_ofNat']

variable {ok : Bool} {s : IdSt}

/-- A search of a bucket is a search for a number of 16 bits among all the
entries. -/
theorem Numbered.find_eq_some (h : Numbered ok s) {srv : Nat} {id : UInt16} {c : Nat}
    (hf : s.userid.find (srv, hashCid id) (fun cptr => s.uid cptr = id.toNat) = some c) :
    srv = me ∧ s.Entry ok c ∧ s.uid c = id.toNat := by
  obtain ⟨V, hV, hm⟩ := h.chains
  rw [hV.find] at hf
  obtain ⟨hs, he, -⟩ := (hm _ _ _).mp (List.mem_of_find?_eq_some hf)
  exact ⟨hs, he, by simpa using List.find?_some hf⟩

theorem Numbered.find_isSome (h : Numbered ok s) {id : UInt16} {c : Nat}
    (hc : s.Entry ok c) (hid : s.uid c = id.toNat) :
    ∃ d, s.userid.find (me, hashCid id) (fun cptr => s.uid cptr = id.toNat) = some d := by
  obtain ⟨V, hV, hm⟩ := h.chains
  rw [hV.find, ← Option.isSome_iff_exists, List.find?_isSome]
  exact ⟨c, (hm _ _ _).mpr ⟨rfl, hc, by rw [toUInt16_of_uid hid]⟩, by simpa using hid⟩

/-- The test for a number in use sees the entries whose number is the low 16
bits of the one asked about. -/
theorem Numbered.taken_iff (h : Numbered ok s) {n : Nat} :
    useridTaken s n = true ↔ ∃ c, s.Entry ok c ∧ s.uid c = n % 0x10000 := by
  rw [useridTaken, findByUserid, Option.isSome_iff_exists]
  constructor
  · rintro ⟨c, hc⟩
    obtain ⟨-, he, hid⟩ := h.find_eq_some hc
    rw [ofNat_toNat16] at hid
    exact ⟨c, he, hid⟩
  · rintro ⟨c, he, hid⟩
    exact h.find_isSome he (by rw [ofNat_toNat16]; exact hid)

/-! ## Assigning -/

/-- The state after the number `n` was assigned. -/
def assigned (s : IdSt) (cptr n : Nat) : IdSt :=
  let id := makeId (serveridPart (s.id me)) (UInt32.ofNat n)
  { s with
    lastLocaluserId := n
    useridsInuse := s.useridsInuse + 1
    id := update s.id cptr id
    userid := s.userid.push (me, hashCid (useridPart id).toUInt16) cptr
    string := update s.string cptr (intToBase64 id) }

/-- What an assignment does: nothing, with all the numbers in use, or it
assigns the number the counter stops at. -/
theorem step_assign {cptr : Nat} {s' : IdSt} (hs : s.step (.assign cptr) = .ok s') :
    cptr ≠ me ∧ s.uid cptr = 0 ∧
      (s.useridsInuse = 0xFFFFF ∧ s' = s ∨
        s.useridsInuse ≠ 0xFFFFF ∧ ∃ n, s.StopsAt n ∧ s' = s.assigned cptr n) := by
  simp only [step] at hs
  split at hs
  · cases hs
  · next hc =>
      obtain ⟨hme, huid⟩ := not_or.mp hc
      have huid := not_not.mp huid
      refine ⟨hme, huid, ?_⟩
      have hzero : ¬ useridPart (s.id cptr) ≠ 0 := by
        rw [not_not]
        exact UInt32.toNat_inj.mp huid
      by_cases hin : s.useridsInuse = 0xFFFFF
      · rw [assignLocaluserIdentity, if_pos hin] at hs
        cases hs
        exact Or.inl ⟨hin, rfl⟩
      · rw [assignLocaluserIdentity, if_neg hin, if_neg hzero] at hs
        cases hseek : seekLocaluserId (useridTaken s) maxUserIdentity
            s.lastLocaluserId with
        | none =>
            rw [hseek] at hs
            cases hs
        | some n =>
            rw [hseek] at hs
            cases hs
            obtain ⟨k, -, hn, hfree, hbusy⟩ := seekLocaluserId_eq_some.mp hseek
            refine Or.inr ⟨hin, n, ⟨k, hn, hfree, hbusy⟩, ?_⟩
            simp only [assigned, addUseridToServer, Function.update_self]

section Assigned

variable {cptr n : Nat}

theorem stopsAt_of_seek {fuel : Nat}
    (hseek : seekLocaluserId (useridTaken s) fuel s.lastLocaluserId = some n) :
    s.StopsAt n := by
  obtain ⟨k, -, hn, hfree, hbusy⟩ := seekLocaluserId_eq_some.mp hseek
  exact ⟨k, hn, hfree, hbusy⟩

/-- A client in new memory gets what the loop finds. -/
theorem step_assign_of_seek (hme : cptr ≠ me) (huid : s.uid cptr = 0)
    (hin : s.useridsInuse ≠ 0xFFFFF)
    (hseek : seekLocaluserId (useridTaken s) maxUserIdentity s.lastLocaluserId = some n) :
    s.step (.assign cptr) = .ok (s.assigned cptr n) := by
  have hzero : ¬ useridPart (s.id cptr) ≠ 0 := by
    rw [not_not]
    exact UInt32.toNat_inj.mp huid
  simp only [step]
  rw [if_neg (not_or.mpr ⟨hme, not_not.mpr huid⟩), assignLocaluserIdentity, if_neg hin,
    if_neg hzero, hseek]
  simp only [assigned, addUseridToServer, Function.update_self]

theorem assigned_id_self : (s.assigned cptr n).id cptr =
    makeId (serveridPart (s.id me)) (UInt32.ofNat n) := Function.update_self ..

theorem assigned_id {c : Nat} (hc : c ≠ cptr) : (s.assigned cptr n).id c = s.id c :=
  Function.update_of_ne hc ..

theorem assigned_string_self : (s.assigned cptr n).string cptr =
    intToBase64 ((s.assigned cptr n).id cptr) := by
  rw [assigned_id_self]
  exact Function.update_self ..

theorem assigned_string {c : Nat} (hc : c ≠ cptr) :
    (s.assigned cptr n).string c = s.string c := Function.update_of_ne hc ..

theorem assigned_uid_self (hn : n ≤ maxUserIdentity) :
    (s.assigned cptr n).uid cptr = n := by
  rw [uid, assigned_id_self, useridPart_makeId, useridPart_toNat, UInt32.toNat_ofNat']
  rw [maxUserIdentity] at hn
  omega

theorem assigned_uid {c : Nat} (hc : c ≠ cptr) : (s.assigned cptr n).uid c = s.uid c := by
  rw [uid, assigned_id hc, uid]

theorem assigned_holds_self (hme : cptr ≠ me) (hpos : 0 < n) (hn : n ≤ maxUserIdentity) :
    (s.assigned cptr n).Holds cptr := by
  rw [Holds, assigned_uid_self hn]
  rw [maxUserIdentity] at hn
  exact ⟨hme, by omega, by omega⟩

theorem assigned_holds {c : Nat} (hc : c ≠ cptr) :
    (s.assigned cptr n).Holds c ↔ s.Holds c := by
  rw [Holds, Holds, assigned_uid hc]

theorem not_holds_of_uid (huid : s.uid cptr = 0) : ¬ s.Holds cptr :=
  fun h => h.2.1 huid

theorem Numbered.assigned (h : Numbered ok s) (hme : cptr ≠ me)
    (huid : s.uid cptr = 0) (hstop : s.StopsAt n) :
    Numbered ok (s.assigned cptr n) := by
  obtain ⟨hpos, hle⟩ := hstop.range
  have hnew := assigned_holds_self (s := s) hme hpos hle
  have hnot : ¬ s.Entry ok cptr := by
    rintro (hh | ⟨-, he⟩)
    · exact not_holds_of_uid huid hh
    · exact hme he
  have hentry : ∀ c, c ≠ cptr → ((s.assigned cptr n).Entry ok c ↔ s.Entry ok c) :=
    fun c hc => or_congr_left (assigned_holds hc)
  refine ⟨?_, ?_, ?_⟩
  · obtain ⟨V, hV, hm⟩ := h.chains
    have hout : ∀ i, cptr ∉ V i := fun i hi => hnot ((hm i.1 i.2 cptr).mp hi).2.1
    refine ⟨_, hV.push hout _, fun srv i c => ?_⟩
    by_cases hc : c = cptr
    · subst hc
      rw [assigned_id_self]
      by_cases hi : (srv, i) = (me, hashCid (useridPart (makeId (serveridPart (s.id me))
          (UInt32.ofNat n))).toUInt16)
      · rw [hi, Function.update_self]
        cases hi
        exact iff_of_true (List.mem_cons_self ..) ⟨rfl, Or.inl hnew, rfl⟩
      · rw [Function.update_of_ne hi]
        refine iff_of_false (hout _) fun ⟨hsrv, _, hb⟩ => hi ?_
        rw [hsrv, hb]
    · rw [assigned_id hc, hentry c hc, ← hm srv i c]
      by_cases hi : (srv, i) = (me, hashCid (useridPart (makeId (serveridPart (s.id me))
          (UInt32.ofNat n))).toUInt16)
      · rw [hi, Function.update_self, List.mem_cons]
        exact or_iff_right hc
      · rw [Function.update_of_ne hi]
  · rw [assigned_uid (Ne.symm hme)]
    exact h.meUid
  · -- A number of 16 bits that is in use is found in use.
    have hfresh : ∀ d, s.Holds d → s.uid d = n → n ≤ 0xFFFF → False := by
      intro d hd hdn hlow
      obtain ⟨k, -, hfree, -⟩ := hstop
      have : useridTaken s n = true :=
        h.taken_iff.mpr ⟨d, Or.inl hd, by rw [hdn]; omega⟩
      rw [hfree] at this
      cases this
    intro c d hc hd he hlow
    by_cases hcc : c = cptr
    · by_cases hdc : d = cptr
      · rw [hcc, hdc]
      · rw [hcc, assigned_uid_self hle, assigned_uid hdc] at he
        rw [hcc, assigned_uid_self hle] at hlow
        exact (hfresh d ((assigned_holds hdc).mp hd) he.symm hlow).elim
    · rw [assigned_uid hcc] at he hlow
      by_cases hdc : d = cptr
      · rw [hdc, assigned_uid_self hle] at he
        exact (hfresh c ((assigned_holds hcc).mp hc) he (by omega)).elim
      · rw [assigned_uid hdc] at he
        exact h.low c d ((assigned_holds hcc).mp hc) ((assigned_holds hdc).mp hd) he hlow

end Assigned

/-! ## Freeing -/

/-- The state after a client was taken out of the buckets `B` leaves. -/
def freed (s : IdSt) (cptr : Nat) (B : Buckets (Nat × UInt16) Nat) : IdSt :=
  { s with
    userid := B
    useridsInuse := s.useridsInuse - 1
    id := update s.id cptr 0xFFFFFFFF
    string := update s.string cptr [] }

section Freed

variable {cptr : Nat} {B : Buckets (Nat × UInt16) Nat}

theorem freed_id {c : Nat} (hc : c ≠ cptr) : (s.freed cptr B).id c = s.id c :=
  Function.update_of_ne hc ..

theorem freed_string {c : Nat} (hc : c ≠ cptr) :
    (s.freed cptr B).string c = s.string c := Function.update_of_ne hc ..

theorem freed_uid_self : (s.freed cptr B).uid cptr = 0xFFFFF := by
  simp only [uid, freed, Function.update_self]
  decide

theorem freed_uid {c : Nat} (hc : c ≠ cptr) : (s.freed cptr B).uid c = s.uid c := by
  rw [uid, freed_id hc, uid]

theorem freed_holds {c : Nat} :
    (s.freed cptr B).Holds c ↔ c ≠ cptr ∧ s.Holds c := by
  by_cases hc : c = cptr
  · subst hc
    rw [Holds, freed_uid_self]
    simp
  · rw [Holds, Holds, freed_uid hc]
    exact (and_iff_right hc).symm

/-- A client that holds an identity is in its bucket, so it is freed. -/
theorem Numbered.step_free (h : Numbered ok s) {s' : IdSt}
    (hs : s.step (.free cptr) = .ok s') :
    s.Holds cptr ∧ ∃ B, s' = s.freed cptr B ∧ Numbered ok s' := by
  simp only [step] at hs
  split at hs
  · next hc =>
      refine ⟨hc, ?_⟩
      have hne : useridPart (s.id cptr) ≠ 0xFFFFF := by
        intro he
        refine hc.2.2 ?_
        rw [uid, he]
        rfl
      obtain ⟨V, hV, hm⟩ := h.chains
      have hin : cptr ∈ V (me, hashCid (useridPart (s.id cptr)).toUInt16) :=
        (hm _ _ _).mpr ⟨rfl, Or.inl hc, rfl⟩
      obtain ⟨B, hB, hch⟩ := hV.unlink hin
      rw [freeLocaluserIdentity, if_neg hne] at hs
      simp only [remUseridFromServer, hB] at hs
      cases hs
      refine ⟨B, rfl, ⟨_, hch, fun srv i c => ?_⟩, ?_, ?_⟩
      · have hentry : c ≠ cptr →
            ((s.freed cptr B).Entry ok c ↔ s.Entry ok c) := fun hcc =>
          or_congr_left (freed_holds.trans (and_iff_right hcc))
        by_cases hcc : c = cptr
        · subst hcc
          refine iff_of_false (fun hmem => ?_) fun ⟨_, he, _⟩ => ?_
          · by_cases hi : (srv, i) = (me, hashCid (useridPart (s.id c)).toUInt16)
            · rw [hi, Function.update_self, (hV.nodup _).mem_erase_iff] at hmem
              exact hmem.1 rfl
            · rw [Function.update_of_ne hi] at hmem
              obtain ⟨hsrv, -, hb⟩ := (hm _ _ _).mp hmem
              exact hi (by rw [hsrv, hb])
          · rcases he with hh | ⟨-, he⟩
            · exact (freed_holds.mp hh).1 rfl
            · exact hc.1 he
        · show _ ↔ srv = me ∧ (s.freed cptr B).Entry ok c ∧
            hashCid (useridPart ((s.freed cptr B).id c)).toUInt16 = i
          rw [freed_id hcc, hentry hcc, ← hm srv i c]
          by_cases hi : (srv, i) = (me, hashCid (useridPart (s.id cptr)).toUInt16)
          · rw [hi, Function.update_self, (hV.nodup _).mem_erase_iff]
            exact and_iff_right hcc
          · rw [Function.update_of_ne hi]
      · show (s.freed cptr B).uid me = 0
        rw [freed_uid (Ne.symm hc.1)]
        exact h.meUid
      · intro c d hcf hdf he hlow
        obtain ⟨hcc, hch'⟩ := (freed_holds (B := B)).mp hcf
        obtain ⟨hdc, hdh⟩ := (freed_holds (B := B)).mp hdf
        have he' : s.uid c = s.uid d := by
          rw [← freed_uid (B := B) hcc, ← freed_uid (B := B) hdc]
          exact he
        refine h.low c d hch' hdh he' ?_
        rw [← freed_uid (B := B) hcc]
        exact hlow
  · cases hs

end Freed

/-! ## Runs -/

/-- In new memory every number is 0. -/
theorem blank_uid (c : Nat) : blank.uid c = 0 := by
  show (useridPart 0).toNat = 0
  decide

/-- `init_identity` hands out no number but 0. -/
theorem initIdentity_uid (serverid : UInt16) (c : Nat) :
    (initIdentity serverid blank).2.uid c = 0 := by
  rw [initIdentity]
  split
  · exact blank_uid c
  · simp only [uid, addUseridToServer]
    by_cases hc : c = me
    · rw [hc, Function.update_self, useridPart_makeId]
      exact blank_uid me
    · rw [Function.update_of_ne hc]
      exact blank_uid c

theorem initIdentity_not_holds (serverid : UInt16) (c : Nat) :
    ¬ (initIdentity serverid blank).2.Holds c :=
  fun h => h.2.1 (initIdentity_uid serverid c)

theorem initIdentity_numbered (serverid : UInt16) :
    Numbered (decide (serverid ≤ maxServIdentity)) (initIdentity serverid blank).2 := by
  have hno := initIdentity_not_holds serverid
  refine ⟨?_, initIdentity_uid serverid me, fun c _ hc => (hno c hc).elim⟩
  by_cases hle : serverid ≤ maxServIdentity
  · have hgt : ¬ serverid > maxServIdentity := UInt16.not_lt.mpr hle
    have hpart : ∀ c, useridPart ((initIdentity serverid blank).2.id c) = 0 :=
      fun c => UInt32.toNat_inj.mp (initIdentity_uid serverid c)
    have huserid : (initIdentity serverid blank).2.userid =
        Buckets.empty.push (me, hashCid 0) me := by
      have hp := hpart me
      simp only [initIdentity, if_neg hgt, addUseridToServer] at hp ⊢
      rw [hp]
      rfl
    rw [decide_eq_true hle, huserid]
    refine ⟨_, Chains.empty.push (fun _ h => by cases h) _, fun srv i c => ?_⟩
    rw [hpart c]
    by_cases hi : (srv, i) = (me, hashCid 0)
    · rw [hi, Function.update_self, List.mem_singleton]
      cases hi
      constructor
      · intro hc
        exact ⟨rfl, Or.inr ⟨rfl, hc⟩, rfl⟩
      · rintro ⟨-, hh | ⟨-, hc⟩, -⟩
        · exact (hno c hh).elim
        · exact hc
    · rw [Function.update_of_ne hi]
      refine iff_of_false (fun h => by cases h) fun ⟨hsrv, _, hb⟩ => hi ?_
      rw [hsrv, ← hb]
      rfl
  · have hgt : serverid > maxServIdentity := UInt16.not_le.mp hle
    have huserid : (initIdentity serverid blank).2.userid = Buckets.empty := by
      rw [initIdentity, if_pos hgt]
      rfl
    rw [decide_eq_false hle, huserid]
    refine ⟨fun _ => [], Chains.empty, fun srv i c => ?_⟩
    refine iff_of_false (fun h => by cases h) ?_
    rintro ⟨-, hh | ⟨hok, -⟩, -⟩
    · exact hno c hh
    · cases hok

theorem step_numbered (s : IdSt) (op : IdOp) (s' : IdSt) (h : Numbered ok s)
    (hs : s.step op = .ok s') : Numbered ok s' := by
  cases op with
  | assign cptr =>
      obtain ⟨hme, huid, ⟨-, rfl⟩ | ⟨-, n, hstop, rfl⟩⟩ := step_assign hs
      · exact h
      · exact h.assigned hme huid hstop
  | free cptr =>
      obtain ⟨-, B, -, h'⟩ := h.step_free hs
      exact h'

end IdSt

/-!
## Looking an identity up

`find_by_base64_id` undoes what `assign_localuser_identity` did: digits to
number, number to server and user part, server part to server, user part to
bucket and client. Two of the steps lose bits. Of the server number only the
low byte is packed, so from 0x100 on the server is looked for in the wrong
slot; of the user number only 16 bits are looked for. Below both limits the
lookup is exact, and above either it never is (`findByBase64Id_iff`).
-/

namespace IdSt

/-- This server stands in the slot of its number, and who holds an identity
has it under the low byte of that number and in digits. -/
structure Lettered (serverid : UInt16) (s : IdSt) : Prop where
  numbered : Numbered true s
  server : serveridPart (s.id me) = serverid.toUInt32 &&& 0xFF
  table : s.servIdTable = update (fun _ => none) serverid (some me)
  part : ∀ c, s.Holds c → serveridPart (s.id c) = serverid.toUInt32 &&& 0xFF
  string : ∀ c, s.Holds c → s.string c = intToBase64 (s.id c)

variable {serverid : UInt16}

theorem init_lettered {s : IdSt} (h : initIdentity serverid blank = (0, s)) :
    s.Lettered serverid := by
  have hle : serverid ≤ maxServIdentity := by
    by_contra hgt
    rw [initIdentity, if_pos (UInt16.not_le.mp hgt)] at h
    cases h
  have hgt : ¬ serverid > maxServIdentity := UInt16.not_lt.mpr hle
  have hN := initIdentity_numbered serverid
  have hno := initIdentity_not_holds serverid
  rw [decide_eq_true hle] at hN
  have hs : s = (initIdentity serverid blank).2 := by rw [h]
  subst hs
  refine ⟨hN, ?_, ?_, fun c hc => (hno c hc).elim, fun c hc => (hno c hc).elim⟩
  · simp only [initIdentity, if_neg hgt, addUseridToServer, Function.update_self]
    exact serveridPart_makeId _ _
  · simp only [initIdentity, if_neg hgt, addUseridToServer]

theorem step_lettered (s : IdSt) (op : IdOp) (s' : IdSt) (h : s.Lettered serverid)
    (hs : s.step op = .ok s') : s'.Lettered serverid := by
  have hN := step_numbered s op s' h.numbered hs
  cases op with
  | assign cptr =>
      obtain ⟨hme, huid, ⟨-, rfl⟩ | ⟨-, n, hstop, rfl⟩⟩ := step_assign hs
      · exact h
      · refine ⟨hN, ?_, h.table, fun c hc => ?_, fun c hc => ?_⟩
        · rw [assigned_id (Ne.symm hme)]
          exact h.server
        · by_cases hcc : c = cptr
          · have hff : (0xFF : UInt32) &&& 0xFF = 0xFF := by decide
            rw [hcc, assigned_id_self, serveridPart_makeId, h.server, UInt32.and_assoc,
              hff]
          · rw [assigned_id hcc]
            exact h.part c ((assigned_holds hcc).mp hc)
        · by_cases hcc : c = cptr
          · rw [hcc]
            exact assigned_string_self
          · rw [assigned_string hcc, assigned_id hcc]
            exact h.string c ((assigned_holds hcc).mp hc)
  | free cptr =>
      obtain ⟨hc, B, rfl, -⟩ := h.numbered.step_free hs
      refine ⟨hN, ?_, h.table, fun c hcf => ?_, fun c hcf => ?_⟩
      · rw [freed_id (Ne.symm hc.1)]
        exact h.server
      · obtain ⟨hcc, hch⟩ := freed_holds.mp hcf
        rw [freed_id hcc]
        exact h.part c hch
      · obtain ⟨hcc, hch⟩ := freed_holds.mp hcf
        rw [freed_string hcc, freed_id hcc]
        exact h.string c hch

/-- The slot a server part names, as a number. -/
theorem toNat_low_byte (x : UInt16) :
    ((x.toUInt32 &&& 0xFF).toUInt16).toNat = x.toNat % 2 ^ 8 := by
  rw [UInt32.toNat_toUInt16, toNat_and_mask x.toUInt32
    (show (0xFF : UInt32).toNat = 2 ^ 8 - 1 from rfl), UInt16.toNat_toUInt32]
  omega

/-- The server is found where it stands only if its number is one byte. -/
theorem Lettered.slot {s : IdSt} (h : s.Lettered serverid) :
    s.servIdTable (serverid.toUInt32 &&& 0xFF).toUInt16 =
      if serverid ≤ 0xFF then some me else none := by
  have hlow := toNat_low_byte serverid
  have hff : (0xFF : UInt16).toNat = 255 := rfl
  rw [h.table]
  split
  · next hle =>
      rw [UInt16.le_iff_toNat_le, hff] at hle
      rw [show (serverid.toUInt32 &&& 0xFF).toUInt16 = serverid from
        UInt16.toNat_inj.mp (by omega), Function.update_self]
  · next hgt =>
      rw [UInt16.le_iff_toNat_le, hff] at hgt
      rw [Function.update_of_ne]
      intro he
      rw [he] at hlow
      omega

/-- Looking a holder's digits up is looking its number up on the server its
server part names. -/
theorem Lettered.find_eq {s : IdSt} (h : s.Lettered serverid) {c : Nat}
    (hc : s.Holds c) :
    findByBase64Id (s.string c) s =
      if serverid ≤ 0xFF then
        s.userid.find (me, hashCid (useridPart (s.id c)).toUInt16)
          fun cptr => s.uid cptr = ((useridPart (s.id c)).toUInt16).toNat
      else none := by
  have hle : ¬ (serverid.toUInt32 &&& 0xFF).toUInt16 > maxServIdentity := by
    intro hgt
    have hmax : maxServIdentity.toNat = 0xFFF := rfl
    rw [gt_iff_lt, UInt16.lt_iff_toNat_lt, toNat_low_byte, hmax] at hgt
    omega
  simp only [findByBase64Id, h.string c hc, base64ToInt_intToBase64, h.part c hc,
    if_neg hle, h.slot]
  split
  · next hs =>
      split at hs
      · cases hs
      · next hgt => rw [if_neg hgt]
  · next srv hs =>
      split at hs
      · next hlow =>
          cases hs
          rw [if_pos hlow]
      · cases hs

/-- In every run after `init_identity` succeeded, the digits of a client that
holds an identity are those it is found by if and only if the server number
is at most 0xFF and the client's own at most 0xFFFF. -/
theorem findByBase64Id_iff (serverid : UInt16) (s₀ : IdSt)
    (hinit : initIdentity serverid blank = (0, s₀)) (ops : List IdOp) (s : IdSt)
    (hr : run step s₀ ops = .ok s) (c : Nat) (hc : s.Holds c) :
    findByBase64Id (s.string c) s = some c ↔ serverid ≤ 0xFF ∧ s.uid c ≤ 0xFFFF := by
  have h : s.Lettered serverid := run_invariant step_lettered ops (init_lettered hinit) hr
  have hnat : ((useridPart (s.id c)).toUInt16).toNat = s.uid c % 0x10000 :=
    UInt32.toNat_toUInt16 ..
  rw [h.find_eq hc]
  by_cases hlow : serverid ≤ 0xFF
  · rw [if_pos hlow]
    constructor
    · intro hf
      obtain ⟨-, -, hu⟩ := h.numbered.find_eq_some hf
      exact ⟨hlow, by omega⟩
    · rintro ⟨-, hle⟩
      have hself : s.uid c = ((useridPart (s.id c)).toUInt16).toNat := by omega
      obtain ⟨d, hd⟩ := h.numbered.find_isSome (Or.inl hc) hself
      obtain ⟨-, hde, hu⟩ := h.numbered.find_eq_some hd
      rw [hd]
      rcases hde with hdh | ⟨-, rfl⟩
      · rw [h.numbered.low d c hdh hc (by omega) (by omega)]
      · have hzero := h.numbered.meUid
        exact absurd (by omega) hc.2.1
  · rw [if_neg hlow]
    exact iff_of_false (by simp) fun h => hlow h.1

/-- Server 0x100 assigns one identity, and cannot find it. -/
theorem findByBase64Id_loses_server :
    ∃ s, run step (initIdentity 0x100 blank).2 [.assign 1] = .ok s ∧
      (initIdentity 0x100 blank).1 = 0 ∧ s.Holds 1 ∧
      findByBase64Id (s.string 1) s = none :=
  ⟨_, rfl, by decide, by decide, by decide⟩

/-- The theorem at server 1 and its first user. -/
theorem findByBase64Id_one :
    ∃ s, run step (initIdentity 1 blank).2 [.assign 1] = .ok s ∧
      findByBase64Id (s.string 1) s = some 1 :=
  ⟨_, rfl, (findByBase64Id_iff 1 _ rfl [.assign 1] _ rfl 1 (by decide)).mpr
    ⟨by decide, by decide⟩⟩

end IdSt

end TrIrcd
