import Mathlib.Data.Set.Card
import TrIrcd.Proofs.FdTimeouts

/-!
# How many descriptors are open, and which is the last

`highest_fd` is the largest open descriptor and `number_fd` is how many there are
(`FdCount.Exact`). An open of an open descriptor closes it first, so that what is to be
shown of `fd_open` is about a descriptor that is closed, which is then never
`highest_fd` itself; and a descriptor that is closed is at most `highest_fd`, from which
the loop goes down where they are the same. This is what `fdlist_update_biggest`
asserts. The one assertion that can fail is the one that a file is not closed with
`fd_close` (`fdReached_exact`).
-/

namespace TrIrcd

namespace FdSt

variable {m fd : Nat} {s : FdSt}

/-- The largest open descriptor, or `-1`. -/
structure Largest (fdTable : Nat → Fde) (highest : Int) : Prop where
  upper : ∀ fd, (fdTable fd).isOpen = true → (fd : Int) ≤ highest
  attained : highest = -1 ∨ ∃ fd : Nat, highest = fd ∧ (fdTable fd).isOpen = true

theorem lastOpen_attained (fdTable : Nat → Fde) (n : Nat) :
    lastOpen fdTable n = -1 ∨
      ∃ fd : Nat, lastOpen fdTable n = fd ∧ (fdTable fd).isOpen = true := by
  induction n with
  | zero => exact .inl rfl
  | succ n ih =>
      rw [lastOpen]
      split
      · next hopen => exact .inr ⟨n, rfl, hopen⟩
      · exact ih

theorem set_isOpen (s : FdSt) {F : Fde} {fd' : Nat} :
    ((s.set fd F).fdTable fd').isOpen = true ↔
      if fd' = fd then F.isOpen = true else (s.fdTable fd').isOpen = true := by
  by_cases h : fd' = fd
  · rw [if_pos h, h, set_self]
  · rw [if_neg h, set_of_ne s F h]

theorem Largest.congr {fdTable fdTable' : Nat → Fde} {highest : Int}
    (h : Largest fdTable highest)
    (hflags : ∀ fd, (fdTable' fd).isOpen = true ↔ (fdTable fd).isOpen = true) :
    Largest fdTable' highest where
  upper fd ho := h.upper fd ((hflags fd).mp ho)
  attained := h.attained.imp_right fun ⟨fd, hfd, ho⟩ => ⟨fd, hfd, (hflags fd).mpr ho⟩

/-- An entry before the largest one is replaced. -/
theorem Largest.attained_set (hs : Largest s.fdTable s.highestFd)
    (hlt : (fd : Int) < s.highestFd) (F : Fde) : s.highestFd = -1 ∨
      ∃ fd' : Nat, s.highestFd = fd' ∧ ((s.set fd F).fdTable fd').isOpen = true := by
  rcases hs.attained with hnone | ⟨fd', hfd', hopen⟩
  · exact .inl hnone
  · refine .inr ⟨fd', hfd', (set_isOpen s).mpr ?_⟩
    rwa [if_neg (by omega)]

/-- A descriptor is opened: it is not the largest one yet. -/
theorem updateBiggest_opened {F : Fde} (hs : Largest s.fdTable s.highestFd) (hfd : fd < m)
    (hclosed : ¬ (s.fdTable fd).isOpen = true) (hF : F.isOpen = true) :
    ∃ s', (s.set fd F).updateBiggest m fd true = some s' ∧
      Largest s'.fdTable s'.highestFd := by
  have hne : s.highestFd ≠ fd := by
    rintro heq
    rcases hs.attained with hnone | ⟨fd', hfd', hopen⟩
    · omega
    · obtain rfl : fd' = fd := by omega
      exact hclosed hopen
  rw [updateBiggest, set_highestFd]
  by_cases hlt : (fd : Int) < s.highestFd
  · refine ⟨s.set fd F, if_pos hlt, fun fd' ho => ?_, hs.attained_set hlt F⟩
    rw [set_isOpen] at ho
    show (fd' : Int) ≤ s.highestFd
    split at ho
    · omega
    · exact hs.upper fd' ho
  · have hgt : (fd : Int) > s.highestFd := by omega
    refine ⟨{ s.set fd F with highestFd := fd }, ?_, fun fd' ho => ?_, ?_⟩
    · rw [if_neg hlt, if_neg (not_not_intro hfd), if_pos hgt, if_pos rfl]
    · rw [set_isOpen] at ho
      show (fd' : Int) ≤ fd
      split at ho
      · omega
      · have := hs.upper fd' ho
        omega
    · refine .inr ⟨fd, rfl, (set_isOpen s).mpr ?_⟩
      rwa [if_pos rfl]

/-- A descriptor is closed: the largest one is not less. -/
theorem updateBiggest_closed {F : Fde} (hs : Largest s.fdTable s.highestFd) (hfd : fd < m)
    (hopen : (s.fdTable fd).isOpen = true) (hF : ¬ F.isOpen = true) :
    ∃ s', (s.set fd F).updateBiggest m fd false = some s' ∧
      Largest s'.fdTable s'.highestFd := by
  have hle := hs.upper fd hopen
  have hother : ∀ fd' : Nat, ((s.set fd F).fdTable fd').isOpen = true →
      (s.fdTable fd').isOpen = true := by
    intro fd' ho
    rw [set_isOpen] at ho
    split at ho
    · exact absurd ho hF
    · exact ho
  rw [updateBiggest, set_highestFd]
  by_cases hlt : (fd : Int) < s.highestFd
  · exact ⟨s.set fd F, if_pos hlt, fun fd' ho => hs.upper fd' (hother fd' ho),
      hs.attained_set hlt F⟩
  · have hgt : ¬ (fd : Int) > s.highestFd := by omega
    refine ⟨{ s.set fd F with highestFd := lastOpen (s.set fd F).fdTable (fd + 1) }, ?_,
      fun fd' ho => ?_, lastOpen_attained _ _⟩
    · rw [if_neg hlt, if_neg (not_not_intro hfd), if_neg hgt, if_neg Bool.false_ne_true]
    · have hfd' := hs.upper fd' (hother fd' ho)
      exact le_lastOpen (by omega) ho

end FdSt

namespace FdCount

variable {m fd : Nat} {s s' : FdCount} {type : FdType}

/-- The table is what the calls that do not count make of it. -/
theorem fdClose_fds (m fd : Nat) (s : FdCount) :
    (s.fdClose m fd).toOption.map fds = s.fds.fdClose m fd := by
  rw [FdCount.fdClose, FdSt.fdClose]
  by_cases hopen : (s.fds.fdTable fd).isOpen = true
  · by_cases htype : (s.fds.fdTable fd).type = .file
    · rw [if_neg (not_not_intro hopen), if_pos htype, if_neg fun h => h.2 htype]
      rfl
    · rw [if_neg (not_not_intro hopen), if_neg htype, if_pos ⟨hopen, htype⟩]
      cases (s.fds.set fd { s.fds.fdTable fd with isOpen := false }).updateBiggest m fd false with
      | none => rfl
      | some k => rfl
  · rw [if_pos hopen, if_neg fun h => hopen h.1]
    rfl

theorem fdClose_closed (hclose : s.fdClose m fd = .ok s') :
    ¬ (s'.fds.fdTable fd).isOpen = true := by
  rw [FdCount.fdClose] at hclose
  split at hclose
  · cases hclose
  · split at hclose
    · cases hclose
    · split at hclose
      · cases hclose
      · cases hclose
        rw [FdSt.set_self]
        exact Bool.false_ne_true

/-- Where the descriptor is open, the first half of `fd_open` is `fd_close`. -/
theorem fdOpen_of_close (hopen : (s.fds.fdTable fd).isOpen = true)
    (hclose : s.fdClose m fd = .ok s') (type : FdType) :
    s.fdOpen m fd type = s'.fdOpen m fd type := by
  rw [FdCount.fdOpen, FdCount.fdOpen, if_pos hopen, if_neg (fdClose_closed hclose), hclose]

theorem fdOpen_fds_closed (hclosed : ¬ (s.fds.fdTable fd).isOpen = true) (type : FdType) :
    (s.fdOpen m fd type).toOption.map fds = s.fds.fdOpen m fd type := by
  rw [FdCount.fdOpen, FdSt.fdOpen, if_neg hclosed, if_neg hclosed]
  show ((if (s.fds.fdTable fd).isOpen then _ else _ : Except FdAssertion FdCount)).toOption.map _
    = FdSt.updateBiggest ..
  rw [if_neg hclosed]
  cases (s.fds.set fd { s.fds.fdTable fd with
    type := type, isOpen := true }).updateBiggest m fd true with
  | none => rfl
  | some k => rfl

/-- The descriptors whose flag is set. -/
def openFds (s : FdCount) : Set Nat := {fd | (s.fds.fdTable fd).isOpen = true}

/-- `highest_fd` and `number_fd` are right. -/
structure Exact (m : Nat) (s : FdCount) : Prop where
  bound : ∀ fd, (s.fds.fdTable fd).isOpen = true → fd < m
  highest : FdSt.Largest s.fds.fdTable s.fds.highestFd
  number : s.numberFd = s.openFds.ncard

theorem init_exact (m : Nat) : init.Exact m where
  bound _ h := nomatch h
  highest := ⟨fun _ h => (nomatch h), .inl rfl⟩
  number := by
    have hnone : init.openFds = ∅ := Set.eq_empty_of_forall_notMem fun _ h => nomatch h
    rw [hnone, Set.ncard_empty]
    rfl

theorem Exact.finite (hs : s.Exact m) : s.openFds.Finite :=
  (Set.finite_lt_nat m).subset hs.bound

/-- What `fd_close` does to an open descriptor that is no file. -/
theorem Exact.fdClose (hs : s.Exact m) (hopen : (s.fds.fdTable fd).isOpen = true)
    (htype : (s.fds.fdTable fd).type ≠ .file) :
    ∃ s', s.fdClose m fd = .ok s' ∧ s'.Exact m := by
  obtain ⟨k, hk, hlargest⟩ := FdSt.updateBiggest_closed
    (F := { s.fds.fdTable fd with isOpen := false }) hs.highest (hs.bound fd hopen) hopen
    Bool.false_ne_true
  have htable := FdSt.updateBiggest_table hk
  have hclose : s.fdClose m fd =
      .ok { fds := k.set fd Fde.zero, numberFd := s.numberFd - 1 } := by
    rw [FdCount.fdClose, if_neg (not_not_intro hopen), if_neg htype, hk]
  have hcleared : ∀ fd', ((k.set fd Fde.zero).fdTable fd').isOpen = true ↔
      (k.fdTable fd').isOpen = true := by
    intro fd'
    rw [FdSt.set_isOpen, htable, FdSt.set_isOpen]
    split
    · exact Iff.rfl
    · exact Iff.rfl
  have hflag : ∀ fd', ((k.set fd Fde.zero).fdTable fd').isOpen = true ↔
      (s.fds.fdTable fd').isOpen = true ∧ fd' ≠ fd := by
    intro fd'
    rw [hcleared, htable, FdSt.set_isOpen]
    split
    · next heq => exact iff_of_false Bool.false_ne_true fun h => h.2 heq
    · next hne => exact (and_iff_left hne).symm
  refine ⟨_, hclose, ⟨fun fd' ho => hs.bound fd' ((hflag fd').mp ho).1,
    hlargest.congr hcleared, ?_⟩⟩
  have hset : openFds { fds := k.set fd Fde.zero, numberFd := s.numberFd - 1 } =
      s.openFds \ {fd} := Set.ext hflag
  have hmem : fd ∈ s.openFds := hopen
  have hcard := Set.ncard_sdiff_singleton_add_one hmem hs.finite
  have hnumber := hs.number
  show s.numberFd - 1 = _
  rw [hset]
  omega

/-- What `fd_open` does to a closed descriptor. -/
theorem Exact.fdOpen_closed (hs : s.Exact m) (hfd : fd < m)
    (hclosed : ¬ (s.fds.fdTable fd).isOpen = true) (type : FdType) :
    ∃ s', s.fdOpen m fd type = .ok s' ∧ s'.Exact m := by
  obtain ⟨k, hk, hlargest⟩ := FdSt.updateBiggest_opened
    (F := { s.fds.fdTable fd with type := type, isOpen := true }) hs.highest hfd hclosed rfl
  have htable := FdSt.updateBiggest_table hk
  have hopen : s.fdOpen m fd type = .ok { fds := k, numberFd := s.numberFd + 1 } := by
    rw [FdCount.fdOpen, if_neg hclosed]
    show (if (s.fds.fdTable fd).isOpen then _ else _) = _
    rw [if_neg hclosed, hk]
  have hflag : ∀ fd', (k.fdTable fd').isOpen = true ↔
      fd' = fd ∨ (s.fds.fdTable fd').isOpen = true := by
    intro fd'
    rw [htable, FdSt.set_isOpen]
    split
    · next heq => exact iff_of_true rfl (.inl heq)
    · next hne => exact (or_iff_right hne).symm
  refine ⟨_, hopen, ⟨fun fd' ho => ?_, hlargest, ?_⟩⟩
  · rcases (hflag fd').mp ho with rfl | ho
    · exact hfd
    · exact hs.bound fd' ho
  · have hset : openFds { fds := k, numberFd := s.numberFd + 1 } = insert fd s.openFds :=
      Set.ext hflag
    have hmem : fd ∉ s.openFds := hclosed
    have hcard := Set.ncard_insert_of_notMem hmem hs.finite
    have hnumber := hs.number
    show s.numberFd + 1 = _
    rw [hset]
    omega

theorem fdClose_file (hopen : (s.fds.fdTable fd).isOpen = true)
    (htype : (s.fds.fdTable fd).type = .file) : s.fdClose m fd = .error .closeFile := by
  rw [FdCount.fdClose, if_neg (not_not_intro hopen), if_pos htype]

/-- A close goes well, unless it is a file that is closed. -/
theorem Exact.fdClose_cases (hs : s.Exact m) (hopen : (s.fds.fdTable fd).isOpen = true) :
    (s.fds.fdTable fd).type = .file ∧ s.fdClose m fd = .error .closeFile ∨
      ∃ s', s.fdClose m fd = .ok s' ∧ s'.Exact m := by
  by_cases htype : (s.fds.fdTable fd).type = .file
  · exact .inl ⟨htype, fdClose_file hopen htype⟩
  · exact .inr (hs.fdClose hopen htype)

/-- And so does an open. -/
theorem Exact.fdOpen_cases (hs : s.Exact m) (hfd : fd < m) (type : FdType) :
    (s.fds.fdTable fd).type = .file ∧ s.fdOpen m fd type = .error .closeFile ∨
      ∃ s', s.fdOpen m fd type = .ok s' ∧ s'.Exact m := by
  by_cases hopen : (s.fds.fdTable fd).isOpen = true
  · by_cases htype : (s.fds.fdTable fd).type = .file
    · refine .inl ⟨htype, ?_⟩
      rw [FdCount.fdOpen, if_pos hopen, fdClose_file hopen htype]
      rfl
    · obtain ⟨s', hclose, hexact⟩ := hs.fdClose hopen htype
      rw [fdOpen_of_close hopen hclose]
      exact .inr (hexact.fdOpen_closed hfd (fdClose_closed hclose) type)
  · exact .inr (hs.fdOpen_closed hfd hopen type)

/-- The states of a run in which open descriptors are closed, and any that the table has
are opened. -/
inductive Reached (m : Nat) : FdCount → Prop
  | init : Reached m init
  | fdOpen {s s' : FdCount} {fd : Nat} {type : FdType} (h : Reached m s) (hfd : fd < m)
      (hopen : s.fdOpen m fd type = .ok s') : Reached m s'
  | fdClose {s s' : FdCount} {fd : Nat} (h : Reached m s)
      (hisOpen : (s.fds.fdTable fd).isOpen = true) (hclose : s.fdClose m fd = .ok s') :
      Reached m s'

theorem Reached.exact (h : Reached m s) : s.Exact m := by
  induction h with
  | init => exact init_exact m
  | fdOpen h hfd hopen ih =>
      rcases ih.fdOpen_cases hfd _ with ⟨-, hfile⟩ | ⟨s', hok, hexact⟩
      · cases hfile.symm.trans hopen
      · cases hok.symm.trans hopen
        exact hexact
  | fdClose h hisOpen hclose ih =>
      rcases ih.fdClose_cases hisOpen with ⟨-, hfile⟩ | ⟨s', hok, hexact⟩
      · cases hfile.symm.trans hclose
      · cases hok.symm.trans hclose
        exact hexact

/-- In every state, `highest_fd` is the largest open descriptor and `number_fd` is how many
there are, and no assertion can fail next but the one against closing a file. -/
theorem fdReached_exact (h : Reached m s) :
    FdSt.Largest s.fds.fdTable s.fds.highestFd ∧ s.numberFd = s.openFds.ncard ∧
      (∀ fd type e, fd < m → s.fdOpen m fd type = .error e →
        e = .closeFile ∧ (s.fds.fdTable fd).type = .file) ∧
      ∀ fd e, (s.fds.fdTable fd).isOpen = true → s.fdClose m fd = .error e →
        e = .closeFile ∧ (s.fds.fdTable fd).type = .file := by
  have hs := h.exact
  refine ⟨hs.highest, hs.number, fun fd type e hfd herr => ?_, fun fd e hopen herr => ?_⟩
  · rcases hs.fdOpen_cases hfd type with ⟨htype, hfile⟩ | ⟨s', hok, -⟩
    · exact ⟨Except.error.inj (herr.symm.trans hfile), htype⟩
    · cases hok.symm.trans herr
  · rcases hs.fdClose_cases hopen with ⟨htype, hfile⟩ | ⟨s', hok, -⟩
    · exact ⟨Except.error.inj (herr.symm.trans hfile), htype⟩
    · cases hok.symm.trans herr

/-- Two are opened, the second once more, and it is closed. -/
theorem fdReached_exact_reopened : ∃ s : FdCount,
    FdSt.Largest s.fds.fdTable s.fds.highestFd ∧ s.numberFd = s.openFds.ncard ∧
      (∀ fd type e, fd < 8 → s.fdOpen 8 fd type = .error e →
        e = .closeFile ∧ (s.fds.fdTable fd).type = .file) ∧
      ∀ fd e, (s.fds.fdTable fd).isOpen = true → s.fdClose 8 fd = .error e →
        e = .closeFile ∧ (s.fds.fdTable fd).type = .file := by
  have hthree : 3 < 8 := by decide
  have hfive : 5 < 8 := by decide
  have hlog := @Reached.fdOpen 8 _ _ 3 .log .init hthree rfl
  have hsocket := @Reached.fdOpen 8 _ _ 5 .socket hlog hfive rfl
  have hpipe := @Reached.fdOpen 8 _ _ 5 .pipe hsocket hfive rfl
  exact ⟨_, fdReached_exact (@Reached.fdClose 8 _ _ 5 hpipe rfl rfl)⟩

end FdCount

end TrIrcd
