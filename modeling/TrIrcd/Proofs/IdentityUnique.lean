import TrIrcd.Proofs.Identity

/-!
# Identities are unique below 0x10000

The counter has 20 bits and the test for a number in use looks at 16 of
them, so a number above 0xFFFF is handed out again as soon as the counter
comes back to it, whoever holds it. `Clear` excludes just that: the counter
does not stop, next, at a number above 0xFFFF that is held. In a run that
keeps to it no two clients hold the same number, and the next step keeps it
so if and only if it keeps to it too (`identity_unique`).

That the other case occurs takes a run of more than a million assignments.
`churn` is a client that comes and goes, over and over; while it does, the
counter moves on and nothing else changes (`run_churn`).
-/

namespace TrIrcd

open TrIrcd.Lib

namespace IdSt

/-- No two clients hold the same number. -/
def Unique (s : IdSt) : Prop :=
  ∀ c d, s.Holds c → s.Holds d → s.uid c = s.uid d → c = d

/-- The counter does not stop at a number above 0xFFFF that is held. -/
def Clear (s : IdSt) : IdOp → Prop
  | .assign _ => s.useridsInuse ≠ 0xFFFFF →
      ∀ d, s.Holds d → 0xFFFF < s.uid d → ¬ s.StopsAt (s.uid d)
  | .free _ => True

variable {ok : Bool} {s : IdSt}

/-- Assigning a number keeps numbers unique exactly if nobody held it. -/
theorem assigned_unique_iff {cptr n : Nat} (hU : s.Unique) (hme : cptr ≠ me)
    (hpos : 0 < n) (hle : n ≤ maxUserIdentity) (huid : s.uid cptr = 0) :
    (s.assigned cptr n).Unique ↔ ∀ d, s.Holds d → s.uid d ≠ n := by
  have hnew := assigned_holds_self (s := s) hme hpos hle
  have hnot : ¬ s.Holds cptr := not_holds_of_uid huid
  constructor
  · intro h d hd hdn
    have hdc : d ≠ cptr := by
      intro heq
      subst heq
      exact hnot hd
    refine hdc (h d cptr ((assigned_holds hdc).mpr hd) hnew ?_)
    rw [assigned_uid hdc, assigned_uid_self hle, hdn]
  · intro h c d hc hd he
    by_cases hcc : c = cptr
    · by_cases hdc : d = cptr
      · rw [hcc, hdc]
      · rw [hcc, assigned_uid_self hle, assigned_uid hdc] at he
        exact absurd he.symm (h d ((assigned_holds hdc).mp hd))
    · by_cases hdc : d = cptr
      · rw [hdc, assigned_uid_self hle, assigned_uid hcc] at he
        exact absurd he (h c ((assigned_holds hcc).mp hc))
      · rw [assigned_uid hcc, assigned_uid hdc] at he
        exact hU c d ((assigned_holds hcc).mp hc) ((assigned_holds hdc).mp hd) he

/-- Where the counter stops nobody holds a number of 16 bits. -/
theorem Numbered.not_low (h : Numbered ok s) {n d : Nat} (hn : s.StopsAt n)
    (hd : s.Holds d) (hdn : s.uid d = n) : 0xFFFF < n := by
  by_contra hlow
  obtain ⟨k, -, hfree, -⟩ := hn
  have : useridTaken s n = true :=
    h.taken_iff.mpr ⟨d, Or.inl hd, by rw [hdn]; omega⟩
  rw [hfree] at this
  cases this

theorem step_unique_iff (hN : Numbered ok s) (hU : s.Unique) {op : IdOp} {s' : IdSt}
    (hs : s.step op = .ok s') : s'.Unique ↔ s.Clear op := by
  cases op with
  | assign cptr =>
      obtain ⟨hme, huid, ⟨hin, rfl⟩ | ⟨hin, n, hstop, rfl⟩⟩ := step_assign hs
      · exact iff_of_true hU fun h => absurd hin h
      · obtain ⟨hpos, hle⟩ := hstop.range
        rw [assigned_unique_iff hU hme hpos hle huid]
        constructor
        · intro h _ d hd _ hd'
          exact h d hd (hd'.unique hstop)
        · intro h d hd hdn
          refine h hin d hd ?_ (by rw [hdn]; exact hstop)
          rw [hdn]
          exact hN.not_low hstop hd hdn
  | free cptr =>
      obtain ⟨-, B, rfl, -⟩ := hN.step_free hs
      refine iff_of_true (fun c d hc hd he => ?_) trivial
      obtain ⟨hcc, hc⟩ := freed_holds.mp hc
      obtain ⟨hdc, hd⟩ := freed_holds.mp hd
      rw [freed_uid hcc, freed_uid hdc] at he
      exact hU c d hc hd he

theorem step_unique (s : IdSt) (op : IdOp) (s' : IdSt)
    (hI : Numbered ok s ∧ s.Unique) (hG : s.Clear op) (hs : s.step op = .ok s') :
    Numbered ok s' ∧ s'.Unique :=
  ⟨step_numbered s op s' hI.1 hs, (step_unique_iff hI.1 hI.2 hs).mpr hG⟩

theorem initIdentity_unique (serverid : UInt16) :
    (initIdentity serverid blank).2.Unique :=
  fun c _ hc => absurd hc (initIdentity_not_holds serverid c)

/-- In every run in which the counter never stops at a number above 0xFFFF
that is held, no two clients hold the same number; and the next step keeps it
so if and only if the counter does not stop at one then. -/
theorem identity_unique (serverid : UInt16) (ops : List IdOp) (s : IdSt)
    (hr : run step (initIdentity serverid blank).2 ops = .ok s)
    (hG : Meets step Clear (initIdentity serverid blank).2 ops) :
    s.Unique ∧ ∀ op s', s.step op = .ok s' → (s'.Unique ↔ s.Clear op) := by
  obtain ⟨hN, hU⟩ := run_invariant_of_meets step_unique ops
    ⟨initIdentity_numbered serverid, initIdentity_unique serverid⟩ hG hr
  exact ⟨hU, fun op s' hs => step_unique_iff hN hU hs⟩

/-! ## Coming back to a number -/

/-- The next number that the low 16 bits of the server's own do not hide. -/
def nextFree (last : Nat) : Nat :=
  if nextLocaluserId last % 0x10000 = 0 then nextLocaluserId (nextLocaluserId last)
  else nextLocaluserId last

/-- Clients `c`, `c + 1` and so on come and go. -/
def churn (c : Nat) : Nat → List IdOp
  | 0 => []
  | k + 1 => .assign c :: .free c :: churn (c + 1) k

/-- Only numbers above 0xFFFF are held, and from `c` on clients are new. -/
structure Idle (s : IdSt) (c : Nat) : Prop where
  numbered : Numbered true s
  high : ∀ d, s.Holds d → 0xFFFF < s.uid d
  fresh : ∀ d, c ≤ d → s.uid d = 0
  pos : me < c
  room : s.useridsInuse < 0xFFFFE

theorem Idle.taken_iff {c : Nat} (h : Idle s c) {n : Nat} :
    useridTaken s n = true ↔ n % 0x10000 = 0 := by
  rw [h.numbered.taken_iff]
  constructor
  · rintro ⟨d, hd | ⟨-, rfl⟩, hu⟩
    · have := h.high d hd
      omega
    · rw [h.numbered.meUid] at hu
      omega
  · intro h0
    exact ⟨me, Or.inr ⟨rfl, rfl⟩, by rw [h.numbered.meUid, h0]⟩

theorem Idle.seek {c : Nat} (h : Idle s c) :
    seekLocaluserId (useridTaken s) maxUserIdentity s.lastLocaluserId =
      some (nextFree s.lastLocaluserId) := by
  rw [seekLocaluserId_eq_some, nextFree]
  have hfree : ∀ n, n % 0x10000 ≠ 0 → useridTaken s n = false := by
    intro n hn
    rw [← Bool.not_eq_true, h.taken_iff]
    exact hn
  split
  · next h0 =>
      refine ⟨1, by decide, rfl, hfree _ ?_, fun j hj => ?_⟩
      · have := nextLocaluserId_pos s.lastLocaluserId
        rw [nextLocaluserId, minUserIdentity]
        split
        · decide
        · omega
      · rw [Nat.lt_one_iff.mp hj]
        exact h.taken_iff.mpr h0
  · next h0 =>
      exact ⟨0, by decide, rfl, hfree _ h0, fun j hj => absurd hj (Nat.not_lt_zero j)⟩

theorem Idle.stopsAt {c : Nat} (h : Idle s c) :
    s.StopsAt (nextFree s.lastLocaluserId) := stopsAt_of_seek h.seek

theorem Idle.step_assign {c : Nat} (h : Idle s c) :
    s.step (.assign c) = .ok (s.assigned c (nextFree s.lastLocaluserId)) := by
  have hroom := h.room
  exact step_assign_of_seek (Nat.ne_of_gt h.pos) (h.fresh c (Nat.le_refl c)) (by omega) h.seek

/-- A client that gets a number above 0xFFFF may stay. -/
theorem Idle.stay {c : Nat} (h : Idle s c) (hroom : s.useridsInuse + 1 < 0xFFFFE)
    (hhigh : 0xFFFF < nextFree s.lastLocaluserId) :
    Idle (s.assigned c (nextFree s.lastLocaluserId)) (c + 1) := by
  have hme : c ≠ me := Nat.ne_of_gt h.pos
  have hstop := h.stopsAt
  refine ⟨h.numbered.assigned hme (h.fresh c (Nat.le_refl c)) hstop, fun d hd => ?_,
    fun d hd => ?_, Nat.lt_succ_of_lt h.pos, hroom⟩
  · by_cases hdc : d = c
    · rw [hdc, assigned_uid_self hstop.range.2]
      exact hhigh
    · rw [assigned_uid hdc]
      exact h.high d ((assigned_holds hdc).mp hd)
  · rw [assigned_uid (Nat.ne_of_gt hd)]
    exact h.fresh d (Nat.le_of_succ_le hd)

/-- A client that comes and goes moves the counter and changes nothing else. -/
theorem Idle.visit {c : Nat} (h : Idle s c) :
    ∃ s', run step s [.assign c, .free c] = .ok s' ∧ Idle s' (c + 1) ∧
      s'.lastLocaluserId = nextFree s.lastLocaluserId ∧
      s'.useridsInuse = s.useridsInuse ∧ ∀ d < c, s'.uid d = s.uid d := by
  have hme : c ≠ me := Nat.ne_of_gt h.pos
  have hstop := h.stopsAt
  have hN := h.numbered.assigned hme (h.fresh c (Nat.le_refl c)) hstop
  have hholds := assigned_holds_self (s := s) hme hstop.range.1 hstop.range.2
  have hfree : (s.assigned c (nextFree s.lastLocaluserId)).step (.free c) =
      .ok (freeLocaluserIdentity c (s.assigned c (nextFree s.lastLocaluserId))).2 := by
    simp only [step]
    rw [if_pos hholds]
  obtain ⟨-, B, hB, hN'⟩ := hN.step_free hfree
  rw [hB] at hfree hN'
  refine ⟨_, run_cons_ok.mpr ⟨_, h.step_assign, ?_⟩, ⟨hN', fun d hd => ?_,
    fun d hd => ?_, Nat.lt_succ_of_lt h.pos, h.room⟩, rfl, rfl, fun d hd => ?_⟩
  · rw [run_singleton]
    exact hfree
  · obtain ⟨hdc, hd⟩ := freed_holds.mp hd
    rw [freed_uid hdc, assigned_uid hdc]
    exact h.high d ((assigned_holds hdc).mp hd)
  · rw [freed_uid (Nat.ne_of_gt hd), assigned_uid (Nat.ne_of_gt hd)]
    exact h.fresh d (Nat.le_of_succ_le hd)
  · rw [freed_uid (Nat.ne_of_lt hd), assigned_uid (Nat.ne_of_lt hd)]

theorem run_churn :
    ∀ (k : Nat) {c : Nat} {s : IdSt}, Idle s c →
      ∃ s', run step s (churn c k) = .ok s' ∧ Idle s' (c + k) ∧
        s'.lastLocaluserId = nextFree^[k] s.lastLocaluserId ∧
        s'.useridsInuse = s.useridsInuse ∧ ∀ d < c, s'.uid d = s.uid d := by
  intro k
  induction k with
  | zero => exact fun h => ⟨_, rfl, h, rfl, rfl, fun _ _ => rfl⟩
  | succ k ih =>
      intro c s h
      obtain ⟨m, hm, hidle, hlast, hin, huid⟩ := h.visit
      obtain ⟨s', hs', hidle', hlast', hin', huid'⟩ := ih hidle
      refine ⟨s', ?_, ?_, ?_, hin'.trans hin, fun d hd => ?_⟩
      · rw [show churn c (k + 1) = [.assign c, .free c] ++ churn (c + 1) k from rfl,
          run_append_ok]
        exact ⟨m, hm, hs'⟩
      · rw [show c + (k + 1) = c + 1 + k by omega]
        exact hidle'
      · rw [hlast', hlast, Function.iterate_succ_apply]
      · rw [huid' d (Nat.lt_succ_of_lt hd), huid d hd]

/-! ## Once around -/

theorem nextFree_succ {last : Nat} (hle : last + 1 ≤ maxUserIdentity)
    (h : (last + 1) % 0x10000 ≠ 0) : nextFree last = last + 1 := by
  have hn : nextLocaluserId last = last + 1 := by rw [nextLocaluserId, if_neg (by omega)]
  rw [nextFree, hn, if_neg h]

theorem iterate_nextFree {last : Nat} :
    ∀ {k : Nat}, last + k ≤ maxUserIdentity → last % 0x10000 + k < 0x10000 →
      nextFree^[k] last = last + k := by
  intro k
  induction k with
  | zero => exact fun _ _ => rfl
  | succ k ih =>
      intro hle hlow
      rw [Function.iterate_succ_apply', ih (by omega) (by omega),
        nextFree_succ (by omega) (by omega)]
      rfl

/-- From one end of a stretch of 0xFFFF numbers to the end of the next. -/
theorem iterate_nextFree_stretch {j : Nat} (hj : j ≤ 12) :
    nextFree^[65535] (0x1FFFF + j * 0x10000) = 0x1FFFF + (j + 1) * 0x10000 := by
  have hskip : nextFree (0x1FFFF + j * 0x10000) = 0x20001 + j * 0x10000 := by
    have h1 : nextLocaluserId (0x1FFFF + j * 0x10000) = 0x20000 + j * 0x10000 := by
      rw [nextLocaluserId, maxUserIdentity, if_neg (by omega)]
      omega
    have h2 : nextLocaluserId (0x20000 + j * 0x10000) = 0x20001 + j * 0x10000 := by
      rw [nextLocaluserId, maxUserIdentity, if_neg (by omega)]
      omega
    rw [nextFree, h1, h2, if_pos (by omega)]
  rw [Function.iterate_succ_apply, hskip,
    iterate_nextFree (by rw [maxUserIdentity]; omega) (by omega)]
  omega

theorem iterate_nextFree_stretches :
    ∀ {j : Nat}, j ≤ 13 →
      nextFree^[j * 65535] 0x1FFFF = 0x1FFFF + j * 0x10000 := by
  intro j
  induction j with
  | zero => exact fun _ => rfl
  | succ j ih =>
      intro hj
      rw [show (j + 1) * 65535 = 65535 + j * 65535 by omega,
        Function.iterate_add_apply, ih (by omega), iterate_nextFree_stretch (by omega)]

/-- The visits that take the counter from 0x10001 around to 0xFFFF. -/
def aroundVisits : Nat := 65535 + (65534 + (13 * 65535 + 65534))

theorem iterate_nextFree_around : nextFree^[aroundVisits] 0x10001 = 0xFFFF := by
  have h1 : nextFree^[65534] 0x10001 = 0x1FFFF :=
    iterate_nextFree (by decide) (by decide)
  have h2 : nextFree^[13 * 65535] 0x1FFFF = 0xEFFFF := iterate_nextFree_stretches (by decide)
  have h3 : nextFree^[65534] 0xEFFFF = 0xFFFFE := by
    have hskip : nextFree 0xEFFFF = 0xF0001 := by decide
    rw [Function.iterate_succ_apply, hskip]
    exact iterate_nextFree (by decide) (by decide)
  have h4 : nextFree^[65535] 0xFFFFE = 0xFFFF := by
    have hskip : nextFree 0xFFFFE = 1 := by decide
    rw [Function.iterate_succ_apply, hskip]
    exact iterate_nextFree (by decide) (by decide)
  rw [aroundVisits, Function.iterate_add_apply, Function.iterate_add_apply,
    Function.iterate_add_apply, h1, h2, h3, h4]

theorem initIdentity_idle : Idle (initIdentity 1 blank).2 1 where
  numbered := initIdentity_numbered 1
  high d hd := absurd hd (initIdentity_not_holds 1 d)
  fresh d _ := initIdentity_uid 1 d
  pos := by decide
  room := by decide

/-- The run: clients come and go until the counter is at 0xFFFF; the next
client gets 0x10001 and stays; clients come and go until the counter is at
0xFFFF again; the next client gets 0x10001 too. -/
def sameNumberRun : List IdOp :=
  churn 1 65535 ++ ([.assign 65536] ++
    (churn 65537 aroundVisits ++ [.assign (65537 + aroundVisits)]))

theorem identity_not_unique :
    ∃ s, run step (initIdentity 1 blank).2 sameNumberRun = .ok s ∧
      s.Holds 65536 ∧ s.Holds (65537 + aroundVisits) ∧ s.uid 65536 = 0x10001 ∧
      s.uid (65537 + aroundVisits) = 0x10001 ∧ ¬ s.Unique := by
  have hnext : nextFree 0xFFFF = 0x10001 := by decide
  obtain ⟨s₁, hrun₁, hidle₁, hlast₁, hin₁, -⟩ := run_churn 65535 initIdentity_idle
  rw [show (initIdentity 1 blank).2.lastLocaluserId = 0 from rfl,
    iterate_nextFree (by decide) (by decide), Nat.zero_add] at hlast₁
  have hin₁ : s₁.useridsInuse = 2 := hin₁
  have hstay := hidle₁.stay (by rw [hin₁]; decide) (by rw [hlast₁, hnext]; decide)
  have hstep₁ := hidle₁.step_assign
  rw [hlast₁, hnext] at hstay hstep₁
  obtain ⟨s₂, hrun₂, hidle₂, hlast₂, -, huid₂⟩ := run_churn aroundVisits hstay
  rw [show (s₁.assigned (1 + 65535) 0x10001).lastLocaluserId = 0x10001 from rfl,
    iterate_nextFree_around] at hlast₂
  have hstep₂ := hidle₂.step_assign
  have hstop₂ := hidle₂.stopsAt
  rw [hlast₂, hnext] at hstep₂ hstop₂
  have huid : s₂.uid 65536 = 0x10001 := by
    rw [huid₂ 65536 (by decide)]
    exact assigned_uid_self (by decide)
  have hne : (65536 : Nat) ≠ 65537 + aroundVisits := by decide
  have hnew : (s₂.assigned (65537 + aroundVisits) 0x10001).uid (65537 + aroundVisits) =
      0x10001 := assigned_uid_self (by decide)
  have hold : (s₂.assigned (65537 + aroundVisits) 0x10001).uid 65536 = 0x10001 := by
    rw [assigned_uid hne, huid]
  have hholds : (s₂.assigned (65537 + aroundVisits) 0x10001).Holds 65536 :=
    ⟨by decide, by rw [hold]; decide, by rw [hold]; decide⟩
  have hholds' : (s₂.assigned (65537 + aroundVisits) 0x10001).Holds
      (65537 + aroundVisits) :=
    ⟨by decide, by rw [hnew]; decide, by rw [hnew]; decide⟩
  refine ⟨_, run_append_ok.mpr ⟨s₁, hrun₁, run_append_ok.mpr ⟨_, ?_,
    run_append_ok.mpr ⟨s₂, hrun₂, ?_⟩⟩⟩, hholds, hholds', hold, hnew, fun h => ?_⟩
  · rw [run_singleton]
    exact hstep₁
  · rw [run_singleton]
    exact hstep₂
  · exact hne (h _ _ hholds hholds' (hold.trans hnew.symm))

/-- The theorem at a run in which one client is assigned the number 1. -/
theorem identity_unique_one :
    ∃ s, run step (initIdentity 1 blank).2 [.assign 1] = .ok s ∧
      s.Holds 1 ∧ s.Unique :=
  ⟨_, rfl, by decide, (identity_unique 1 [.assign 1] _ rfl
    ⟨fun _ d hd => absurd hd (initIdentity_not_holds 1 d), fun _ _ => trivial⟩).1⟩

end IdSt

/-!
## When the counter finds a number

`userids_inuse` is compared with 0xFFFFF, all the numbers there are. The test
for a number in use looks at 16 bits, so what the counter needs is one of the
numbers from 1 to 0xFFFF that nobody holds: if there is none, every number is
found in use and the loop never ends, with 0xFFFF clients out of a million.
The number 0 belongs to this server, as soon as `init_identity` has put it
into the buckets (`assign_answers_iff`).

The second way to fail is quick: a client that was freed has 0xFFFFF for its
number, which is not 0, and `assign_localuser_identity` answers -1.
-/

namespace IdSt

variable {ok : Bool} {s : IdSt} {cptr : Nat}

/-- What the first two tests let through is left to the counter. -/
theorem assign_answers (hin : s.useridsInuse < 0xFFFFF) :
    (∃ s', assignLocaluserIdentity cptr s = some (0, s')) ↔
      s.uid cptr = 0 ∧
        ∃ n, seekLocaluserId (useridTaken s) maxUserIdentity s.lastLocaluserId = some n := by
  have huid : s.uid cptr = 0 ↔ useridPart (s.id cptr) = 0 := UInt32.toNat_inj (b := 0)
  rw [assignLocaluserIdentity, if_neg (by omega), huid]
  split
  · next hne =>
      refine iff_of_false ?_ fun h => hne h.1
      rintro ⟨s', h⟩
      cases h
  · next heq =>
      rw [and_iff_right (not_not.mp heq)]
      cases hseek : seekLocaluserId (useridTaken s) maxUserIdentity s.lastLocaluserId with
      | none => simp
      | some n => simp

/-- A number of 16 bits that no client holds, and not this server either. -/
def Room (s : IdSt) (ok : Bool) : Prop :=
  ∃ m ≤ 0xFFFF, (ok = true → 0 < m) ∧ ∀ d, s.Holds d → s.uid d ≠ m

/-- Such a number is not found in use, and neither is any other with the same 16 bits. -/
theorem Numbered.room_iff (h : Numbered ok s) :
    s.Room ok ↔ ∃ n, 0 < n ∧ n ≤ maxUserIdentity ∧ useridTaken s n = false := by
  rw [maxUserIdentity]
  constructor
  · rintro ⟨m, hm, hpos, hno⟩
    have hfree : ∀ n, n % 0x10000 = m → useridTaken s n = false := by
      intro n hn
      rw [← Bool.not_eq_true, h.taken_iff]
      rintro ⟨c, hc | ⟨hok, rfl⟩, hu⟩
      · exact hno c hc (by rw [hu, hn])
      · rw [h.meUid] at hu
        have := hpos hok
        omega
    by_cases hm0 : m = 0
    · exact ⟨0x10000, by omega, by omega, hfree _ (by omega)⟩
    · exact ⟨m, by omega, by omega, hfree _ (by omega)⟩
  · rintro ⟨n, -, -, hfree⟩
    have hno : ∀ c, s.Entry ok c → s.uid c ≠ n % 0x10000 := by
      intro c hc hu
      rw [h.taken_iff.mpr ⟨c, hc, hu⟩] at hfree
      cases hfree
    refine ⟨n % 0x10000, by omega, fun hok => ?_, fun d hd => hno d (Or.inl hd)⟩
    have := hno me (Or.inr ⟨hok, rfl⟩)
    rw [h.meUid] at this
    omega

/-- Without room the loop does not end, however long it runs. -/
theorem Numbered.seek_none (h : Numbered ok s) (hroom : ¬ s.Room ok) (fuel : Nat) :
    seekLocaluserId (useridTaken s) fuel s.lastLocaluserId = none := by
  rw [Option.eq_none_iff_forall_not_mem]
  intro n hn
  obtain ⟨k, -, rfl, hfree, -⟩ := seekLocaluserId_eq_some.mp hn
  rw [Function.iterate_succ_apply'] at hfree
  exact hroom (h.room_iff.mpr ⟨_, nextLocaluserId_pos _, nextLocaluserId_le _, hfree⟩)

/-- The loop of the source comes to an end exactly if there is room. -/
theorem Numbered.seek_iff (h : Numbered ok s) (hlast : s.lastLocaluserId ≤ maxUserIdentity) :
    (∃ n, seekLocaluserId (useridTaken s) maxUserIdentity s.lastLocaluserId = some n) ↔
      s.Room ok := by
  constructor
  · rintro ⟨n, hn⟩
    by_contra hroom
    rw [h.seek_none hroom] at hn
    cases hn
  · intro hroom
    obtain ⟨n, hpos, hle, hfree⟩ := h.room_iff.mp hroom
    cases hseek : seekLocaluserId (useridTaken s) maxUserIdentity s.lastLocaluserId with
    | some m => exact ⟨m, rfl⟩
    | none =>
        rw [seekLocaluserId_eq_none hlast hseek hpos hle] at hfree
        cases hfree

/-- The counter stays in its range. -/
theorem step_counter (s : IdSt) (op : IdOp) (s' : IdSt)
    (h : Numbered ok s ∧ s.lastLocaluserId ≤ maxUserIdentity) (hs : s.step op = .ok s') :
    Numbered ok s' ∧ s'.lastLocaluserId ≤ maxUserIdentity := by
  refine ⟨step_numbered s op s' h.1 hs, ?_⟩
  cases op with
  | assign cptr =>
      obtain ⟨-, -, ⟨-, rfl⟩ | ⟨-, n, hstop, rfl⟩⟩ := step_assign hs
      · exact h.2
      · exact hstop.range.2
  | free cptr =>
      obtain ⟨-, B, rfl, -⟩ := h.1.step_free hs
      exact h.2

theorem initIdentity_counter (serverid : UInt16) :
    (initIdentity serverid blank).2.lastLocaluserId ≤ maxUserIdentity := by
  have hzero : (initIdentity serverid blank).2.lastLocaluserId = 0 := by
    rw [initIdentity]
    split <;> rfl
  rw [hzero]
  exact Nat.zero_le _

/-- In any run, with less than all the numbers in use: a client gets a number
exactly if it has none, was never freed, and one of the numbers of 16 bits is left.
If `init_identity` refused its number, 0 is one of them. -/
theorem assign_answers_iff (serverid : UInt16) (ops : List IdOp) (s : IdSt)
    (hr : run step (initIdentity serverid blank).2 ops = .ok s)
    (hin : s.useridsInuse < 0xFFFFF) (cptr : Nat) :
    (∃ s', assignLocaluserIdentity cptr s = some (0, s')) ↔
      s.uid cptr = 0 ∧ ∃ m ≤ 0xFFFF, (serverid ≤ maxServIdentity → 0 < m) ∧
        ∀ d, s.Holds d → s.uid d ≠ m := by
  obtain ⟨hN, hlast⟩ := run_invariant step_counter ops
    ⟨initIdentity_numbered serverid, initIdentity_counter serverid⟩ hr
  rw [assign_answers hin, hN.seek_iff hlast, Room, decide_eq_true_iff]

/-! ## The numbers of 16 bits, all held -/

/-- Clients 1, 2 and so on are assigned a number one after the other. -/
def fill (k : Nat) : List IdOp := (List.range' 1 k).map .assign

/-- The first `k` clients hold the first `k` numbers, each its own. -/
structure Filled (s : IdSt) (k : Nat) : Prop where
  numbered : Numbered true s
  last : s.lastLocaluserId = k
  inuse : s.useridsInuse = 2 + k
  held : ∀ c, 0 < c → c ≤ k → s.uid c = c
  fresh : ∀ c, k < c → s.uid c = 0

theorem Filled.holds {k : Nat} (h : Filled s k) (hk : k ≤ 0xFFFF) {c : Nat} (hpos : 0 < c)
    (hc : c ≤ k) : s.Holds c := by
  rw [Holds, h.held c hpos hc]
  exact ⟨by rw [me]; omega, by omega, by omega⟩

theorem Filled.holds_le {k : Nat} (h : Filled s k) {c : Nat} (hc : s.Holds c) :
    0 < c ∧ c ≤ k := by
  refine ⟨Nat.pos_of_ne_zero hc.1, Nat.le_of_not_lt fun hlt => hc.2.1 (h.fresh c hlt)⟩

theorem Filled.step {k : Nat} (h : Filled s k) (hk : k < 0xFFFF) :
    ∃ s', s.step (.assign (k + 1)) = .ok s' ∧ Filled s' (k + 1) := by
  have hnext : nextLocaluserId s.lastLocaluserId = k + 1 := by
    rw [h.last, nextLocaluserId, maxUserIdentity, if_neg (by omega)]
  have hfree : useridTaken s (k + 1) = false := by
    rw [← Bool.not_eq_true, h.numbered.taken_iff]
    rintro ⟨c, hc | ⟨-, rfl⟩, hu⟩
    · obtain ⟨hpos, hle⟩ := h.holds_le hc
      rw [h.held c hpos hle] at hu
      omega
    · rw [h.numbered.meUid] at hu
      omega
  have hseek : seekLocaluserId (useridTaken s) maxUserIdentity s.lastLocaluserId =
      some (k + 1) :=
    seekLocaluserId_eq_some.mpr ⟨0, by decide, hnext.symm, hfree,
      fun j hj => absurd hj (Nat.not_lt_zero j)⟩
  have hme : k + 1 ≠ me := Nat.succ_ne_zero k
  have hzero := h.fresh (k + 1) (Nat.lt_succ_self k)
  have hle : k + 1 ≤ maxUserIdentity := by
    rw [maxUserIdentity]
    omega
  refine ⟨s.assigned (k + 1) (k + 1), step_assign_of_seek hme hzero ?_ hseek, ?_⟩
  · rw [h.inuse]
    omega
  · refine ⟨h.numbered.assigned hme hzero (stopsAt_of_seek hseek), rfl, ?_, ?_, ?_⟩
    · show s.useridsInuse + 1 = _
      rw [h.inuse, Nat.add_assoc]
    · intro c hpos hc
      by_cases hck : c = k + 1
      · rw [hck, assigned_uid_self hle]
      · rw [assigned_uid hck, h.held c hpos (by omega)]
    · intro c hc
      rw [assigned_uid (by omega), h.fresh c (by omega)]

theorem run_fill :
    ∀ {k : Nat}, k ≤ 0xFFFF →
      ∃ s, run step (initIdentity 1 blank).2 (fill k) = .ok s ∧ Filled s k := by
  intro k
  induction k with
  | zero =>
      exact fun _ => ⟨_, rfl, initIdentity_numbered 1, rfl, rfl, fun c _ _ => by omega,
        fun c _ => initIdentity_uid 1 c⟩
  | succ k ih =>
      intro hk
      obtain ⟨m, hm, hfilled⟩ := ih (by omega)
      obtain ⟨s, hs, hfilled'⟩ := hfilled.step (by omega)
      have hlist : fill (k + 1) = fill k ++ [.assign (k + 1)] := by
        rw [fill, List.range'_concat, List.map_append, fill, Nat.one_mul, Nat.add_comm 1 k]
        rfl
      exact ⟨s, by rw [hlist, run_append_ok]; exact ⟨m, hm, run_singleton.trans hs⟩, hfilled'⟩

/-- After 0xFFFF clients the next one hangs the server. -/
theorem assign_diverges :
    ∃ s, run step (initIdentity 1 blank).2 (fill 0xFFFF) = .ok s ∧
      s.useridsInuse < 0xFFFFF ∧ s.uid 0x10000 = 0 ∧ ¬ s.Holds 0x10000 ∧
      (∀ fuel, seekLocaluserId (useridTaken s) fuel s.lastLocaluserId = none) ∧
      assignLocaluserIdentity 0x10000 s = none := by
  obtain ⟨s, hs, h⟩ := run_fill (Nat.le_refl 0xFFFF)
  have huid := h.fresh 0x10000 (by decide)
  have hin : s.useridsInuse < 0xFFFFF := by
    rw [h.inuse]
    decide
  have hroom : ¬ s.Room true := by
    rintro ⟨m, hm, hpos, hno⟩
    have hpos := hpos rfl
    exact hno m (h.holds (Nat.le_refl _) hpos hm) (h.held m hpos hm)
  have hseek := h.numbered.seek_none hroom
  have hzero : ¬ useridPart (s.id 0x10000) ≠ 0 := not_not.mpr (UInt32.toNat_inj.mp huid)
  refine ⟨s, hs, hin, huid, not_holds_of_uid huid, hseek, ?_⟩
  rw [assignLocaluserIdentity, if_neg (by omega), if_neg hzero, hseek]

/-- The theorem at a server that has just started. -/
theorem assign_answers_first :
    ∃ s', assignLocaluserIdentity 1 (initIdentity 1 blank).2 = some (0, s') :=
  (assign_answers_iff 1 [] _ rfl (by decide) 1).mpr
    ⟨initIdentity_uid 1 1, 1, by decide, fun _ => by decide,
      fun d hd => absurd hd (initIdentity_not_holds 1 d)⟩

end IdSt

end TrIrcd
