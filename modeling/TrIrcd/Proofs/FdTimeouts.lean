import TrIrcd.Src.Fd

/-!
# Timeouts and what they are called with

A descriptor has two turns in a check, one for each of its handlers, and what
is due when the turn comes is to be called with the data it is registered with
(`turns`). The loop keeps to that up to the data: it ends at `highest_fd`, and
looks at `open` once for both turns, but nothing is registered for a timeout
where no descriptor is open (`FdSt.Wf`), so that there is nothing due where it
does not look (`commChecktimeouts_eq`). The timeout handlers get their data from
an entry that has been cleared, which is `NULL` for all of them.
-/

namespace TrIrcd

/-! ## The descriptors -/

namespace FdSt

variable {m : Nat} {now : Int} {s s' : FdSt} {fd : Nat}

/-- No descriptor behind `highest_fd` is open, and what is not open has no timeout. -/
structure Wf (m : Nat) (s : FdSt) : Prop where
  highest : ∀ fd, (s.fdTable fd).isOpen = true → (fd : Int) ≤ s.highestFd
  bound : s.highestFd < m
  closed : ∀ fd, ¬ (s.fdTable fd).isOpen = true → (s.fdTable fd).timeoutHandler = none
  closing : ∀ fd, (s.fdTable fd).closing = false

theorem init_wf (m : Nat) : init.Wf m where
  highest _ h := nomatch h
  bound := by
    show (-1 : Int) < m
    omega
  closed _ _ := rfl
  closing _ := rfl

/-- An entry is replaced. -/
theorem Wf.set {F : Fde} (hs : s.Wf m) (hopen : F.isOpen = true → (fd : Int) ≤ s.highestFd)
    (hclosed : ¬ F.isOpen = true → F.timeoutHandler = none) (hclosing : F.closing = false) :
    (s.set fd F).Wf m where
  highest fd' h := by
    by_cases hfd : fd' = fd
    · subst hfd
      rw [set_self] at h
      exact hopen h
    · rw [set_of_ne s F hfd] at h
      exact hs.highest fd' h
  bound := hs.bound
  closed fd' h := by
    by_cases hfd : fd' = fd
    · subst hfd
      rw [set_self] at h ⊢
      exact hclosed h
    · rw [set_of_ne s F hfd] at h ⊢
      exact hs.closed fd' h
  closing fd' := by
    by_cases hfd : fd' = fd
    · subst hfd
      rw [set_self]
      exact hclosing
    · rw [set_of_ne s F hfd]
      exact hs.closing fd'

theorem lastOpen_lt (fdTable : Nat → Fde) (n : Nat) : lastOpen fdTable n < n := by
  induction n with
  | zero => exact (by decide : (-1 : Int) < 0)
  | succ n ih =>
      rw [lastOpen]
      split
      · omega
      · omega

theorem le_lastOpen {fdTable : Nat → Fde} {n : Nat} (hfd : fd < n)
    (h : (fdTable fd).isOpen = true) : (fd : Int) ≤ lastOpen fdTable n := by
  induction n with
  | zero => cases hfd
  | succ n ih =>
      rw [lastOpen]
      rcases Nat.lt_succ_iff_lt_or_eq.mp hfd with hlt | rfl
      · split
        · omega
        · exact ih hlt
      · exact Int.le_of_eq (if_pos h).symm

theorem updateBiggest_table {opening : Bool} (h : s.updateBiggest m fd opening = some s') :
    s'.fdTable = s.fdTable := by
  rw [updateBiggest] at h
  split at h
  · cases h
    rfl
  · split at h
    · cases h
    · split at h
      · split at h
        · cases h
          rfl
        · cases h
      · split at h
        · cases h
        · cases h
          rfl

/-- The new `highest_fd` is no less than any open descriptor, if there is none
behind the old one and `fd`. -/
theorem updateBiggest_highest {opening : Bool} (h : s.updateBiggest m fd opening = some s')
    (hs : ∀ fd', (s.fdTable fd').isOpen = true → (fd' : Int) ≤ max (fd : Int) s.highestFd)
    (hbound : s.highestFd < m) :
    (∀ fd', (s.fdTable fd').isOpen = true → (fd' : Int) ≤ s'.highestFd) ∧ s'.highestFd < m := by
  rw [updateBiggest] at h
  split at h
  · next hlt =>
      cases h
      refine ⟨fun fd' ho => ?_, hbound⟩
      have := hs fd' ho
      omega
  · next hlt =>
      split at h
      · cases h
      · next hm =>
          split at h
          · split at h
            · cases h
              refine ⟨fun fd' ho => ?_, ?_⟩
              · have := hs fd' ho
                show (fd' : Int) ≤ fd
                omega
              · show (fd : Int) < m
                omega
            · cases h
          · split at h
            · cases h
            · cases h
              have hlast := lastOpen_lt s.fdTable (fd + 1)
              refine ⟨fun fd' ho => le_lastOpen ?_ ho, ?_⟩
              · have := hs fd' ho
                omega
              · show lastOpen s.fdTable (fd + 1) < m
                omega

theorem Wf.fdClose (hs : s.Wf m) (h : s.fdClose m fd = some s') : s'.Wf m := by
  rw [FdSt.fdClose] at h
  split at h
  · next hopen =>
      obtain ⟨k, hk, rfl⟩ := Option.map_eq_some_iff.mp h
      have htable := updateBiggest_table hk
      have hother : ∀ fd', fd' ≠ fd → (k.set fd Fde.zero).fdTable fd' = s.fdTable fd' := by
        intro fd' hfd
        rw [set_of_ne k _ hfd, htable, set_of_ne s _ hfd]
      obtain ⟨hhighest, hbound⟩ := updateBiggest_highest hk (by
        intro fd' ho
        by_cases hfd : fd' = fd
        · rw [hfd]
          exact Int.le_max_left ..
        · rw [set_of_ne s _ hfd] at ho
          exact Int.le_trans (hs.highest fd' ho) (Int.le_max_right ..)) hs.bound
      refine ⟨fun fd' ho => ?_, hbound, fun fd' ho => ?_, fun fd' => ?_⟩
      · by_cases hfd : fd' = fd
        · rw [hfd, set_self] at ho
          cases ho
        · rw [hother fd' hfd] at ho
          exact hhighest fd' (by rwa [set_of_ne s _ hfd])
      · by_cases hfd : fd' = fd
        · rw [hfd, set_self]
          rfl
        · rw [hother fd' hfd] at ho ⊢
          exact hs.closed fd' ho
      · by_cases hfd : fd' = fd
        · rw [hfd, set_self]
          rfl
        · rw [hother fd' hfd]
          exact hs.closing fd'
  · cases h

theorem Wf.fileClose (hs : s.Wf m) (h : s.fileClose m fd = some s') : s'.Wf m := by
  rw [FdSt.fileClose] at h
  split at h
  · have hset := hs.set (F := { s.fdTable fd with type := .fileClose }) (hs.highest fd)
      (hs.closed fd) (hs.closing fd)
    exact hset.fdClose h
  · cases h

theorem Wf.fdOpen {type : FdType} (hs : s.Wf m) (h : s.fdOpen m fd type = some s') : s'.Wf m := by
  rw [FdSt.fdOpen] at h
  obtain ⟨k, hk, hopen⟩ := Option.bind_eq_some_iff.mp h
  have hwf : k.Wf m := by
    split at hk
    · exact hs.fdClose hk
    · cases hk
      exact hs
  have htable := updateBiggest_table hopen
  obtain ⟨hhighest, hbound⟩ := updateBiggest_highest hopen (by
    intro fd' ho
    by_cases hfd : fd' = fd
    · rw [hfd]
      exact Int.le_max_left ..
    · rw [set_of_ne k _ hfd] at ho
      exact Int.le_trans (hwf.highest fd' ho) (Int.le_max_right ..)) hwf.bound
  refine ⟨fun fd' ho => hhighest fd' (htable ▸ ho), hbound, fun fd' ho => ?_, fun fd' => ?_⟩
  · rw [htable] at ho ⊢
    by_cases hfd : fd' = fd
    · rw [hfd, set_self] at ho
      exact absurd rfl ho
    · rw [set_of_ne k _ hfd] at ho ⊢
      exact hwf.closed fd' ho
  · rw [htable]
    by_cases hfd : fd' = fd
    · rw [hfd, set_self]
      exact hwf.closing fd
    · rw [set_of_ne k _ hfd]
      exact hwf.closing fd'

theorem Wf.commSettimeout {timeout : Int} {callback cbdata : Option Nat} (hs : s.Wf m)
    (h : s.commSettimeout now fd timeout callback cbdata = some s') : s'.Wf m := by
  rw [FdSt.commSettimeout] at h
  split at h
  · next hopen =>
      cases h
      exact hs.set (hs.highest fd) (fun hnot => absurd hopen hnot) (hs.closing fd)
  · cases h

theorem Wf.commSetflush {timeout : Int} {callback cbdata : Option Nat} (hs : s.Wf m) :
    (s.commSetflush now fd timeout callback cbdata).Wf m := by
  rw [FdSt.commSetflush]
  split
  · exact hs
  · exact hs.set (hs.highest fd) (hs.closed fd) (hs.closing fd)

theorem Wf.step {op : FdOp} (hs : s.Wf m) (h : s.step m now op = some s') : s'.Wf m := by
  cases op with
  | fdOpen => exact hs.fdOpen h
  | fdClose => exact hs.fdClose h
  | fileClose => exact hs.fileClose h
  | settimeout => exact hs.commSettimeout h
  | setflush =>
      cases h
      exact hs.commSetflush

theorem Wf.perform (ops : List FdOp) (hs : s.Wf m) : (s.perform m now ops).Wf m := by
  induction ops generalizing s with
  | nil => exact hs
  | cons op ops ih =>
      refine ih ?_
      show ((s.step m now op).getD s).Wf m
      cases h : s.step m now op with
      | none => exact hs
      | some s' => exact hs.step h

/-- The table after calls at any times. -/
def after (m : Nat) (history : List (Int × List FdOp)) : FdSt :=
  history.foldl (fun s e => s.perform m e.1 e.2) init

theorem after_wf (m : Nat) (history : List (Int × List FdOp)) : (after m history).Wf m := by
  have hfold : ∀ s : FdSt, s.Wf m →
      (history.foldl (fun s e => s.perform m e.1 e.2) s).Wf m := by
    induction history with
    | nil => exact fun s hs => hs
    | cons e history ih => exact fun s hs => ih _ (hs.perform e.2)
  exact hfold init (init_wf m)

/-! ## Turns -/

/-- What is to be called at a turn: the handler that is registered for it, if the
descriptor is open and the time has passed, with the data it is registered with. -/
def due (now : Int) (s : FdSt) (turn : Nat × TimerKind) : Option FdCall :=
  let F := s.fdTable turn.1
  if F.isOpen then
    match turn.2 with
    | .flush => (F.flushHandler.filter fun _ => 0 < F.flushTimeout ∧ F.flushTimeout < now).map
        fun hdl => ⟨.flush, hdl, turn.1, F.flushData⟩
    | .timeout => (F.timeoutHandler.filter fun _ => 0 < F.timeout ∧ F.timeout < now).map
        fun hdl => ⟨.timeout, hdl, turn.1, F.timeoutData⟩
  else none

/-- The registration of a call is cleared. -/
def unregister (now : Int) (s : FdSt) (c : FdCall) : FdSt :=
  match c.kind with
  | .flush => s.commSetflush now c.fd 0 none none
  | .timeout => (s.commSettimeout now c.fd 0 none none).getD s

theorem Wf.unregister {c : FdCall} (hs : s.Wf m) : (s.unregister now c).Wf m := by
  rw [FdSt.unregister]
  split
  · exact hs.commSetflush
  · cases h : s.commSettimeout now c.fd 0 none none with
    | none => exact hs
    | some s' => exact hs.commSettimeout h

theorem due_of_not_open {turn : Nat × TimerKind} (h : ¬ (s.fdTable turn.1).isOpen = true) :
    s.due now turn = none := if_neg h

end FdSt

namespace TimeoutSt

variable {σ : Type} {act : FdHandlers σ} {m : Nat} {now : Int} {s : TimeoutSt σ}

/-- A turn: what is due is called, with what `pass` makes of its data. -/
def turn (act : FdHandlers σ) (m : Nat) (now : Int) (pass : FdCall → FdCall) (s : TimeoutSt σ)
    (turn : Nat × TimerKind) : TimeoutSt σ :=
  match s.fds.due now turn with
  | none => s
  | some c => { s with fds := s.fds.unregister now c }.call act m now (pass c)

/-- The turns of a check. -/
def turns (act : FdHandlers σ) (m : Nat) (now : Int) (pass : FdCall → FdCall) (s : TimeoutSt σ)
    (ts : List (Nat × TimerKind)) : TimeoutSt σ :=
  ts.foldl (turn act m now pass) s

theorem turns_cons {pass : FdCall → FdCall} {t : Nat × TimerKind} {ts : List (Nat × TimerKind)} :
    s.turns act m now pass (t :: ts) = (s.turn act m now pass t).turns act m now pass ts := rfl

theorem turn_none {pass : FdCall → FdCall} {t : Nat × TimerKind} (h : s.fds.due now t = none) :
    s.turn act m now pass t = s := by
  rw [turn, h]

theorem turn_some {pass : FdCall → FdCall} {t : Nat × TimerKind} {c : FdCall}
    (h : s.fds.due now t = some c) :
    s.turn act m now pass t =
      { s with fds := s.fds.unregister now c }.call act m now (pass c) := by
  rw [turn, h]

theorem turn_wf {pass : FdCall → FdCall} (hs : s.fds.Wf m) (t : Nat × TimerKind) :
    (s.turn act m now pass t).fds.Wf m := by
  cases h : s.fds.due now t with
  | none =>
      rw [turn_none h]
      exact hs
  | some c =>
      rw [turn_some h]
      exact FdSt.Wf.perform _ hs.unregister

theorem turns_none {pass : FdCall → FdCall} {ts : List (Nat × TimerKind)}
    (h : ∀ t ∈ ts, s.fds.due now t = none) : s.turns act m now pass ts = s := by
  induction ts with
  | nil => rfl
  | cons t ts ih =>
      rw [turns_cons, turn_none (h t (List.mem_cons_self ..))]
      exact ih fun t' ht => h t' (List.mem_cons_of_mem t ht)

/-! ## The loop -/

/-- What `comm_checktimeouts` passes: the timeout handlers get `NULL`. -/
def passed (c : FdCall) : FdCall :=
  match c.kind with
  | .flush => c
  | .timeout => { c with data := none }

theorem due_flush {fd hdl : Nat} (hopen : (s.fds.fdTable fd).isOpen = true)
    (hhdl : (s.fds.fdTable fd).flushHandler = some hdl) :
    s.fds.due now (fd, .flush) =
      if 0 < (s.fds.fdTable fd).flushTimeout ∧ (s.fds.fdTable fd).flushTimeout < now then
        some ⟨.flush, hdl, fd, (s.fds.fdTable fd).flushData⟩
      else none := by
  rw [FdSt.due]
  simp only
  rw [if_pos hopen, hhdl, Option.filter_some]
  simp only [decide_eq_true_eq]
  split
  · rfl
  · rfl

theorem due_timeout {fd hdl : Nat} (hopen : (s.fds.fdTable fd).isOpen = true)
    (hhdl : (s.fds.fdTable fd).timeoutHandler = some hdl) :
    s.fds.due now (fd, .timeout) =
      if 0 < (s.fds.fdTable fd).timeout ∧ (s.fds.fdTable fd).timeout < now then
        some ⟨.timeout, hdl, fd, (s.fds.fdTable fd).timeoutData⟩
      else none := by
  rw [FdSt.due]
  simp only
  rw [if_pos hopen, hhdl, Option.filter_some]
  simp only [decide_eq_true_eq]
  split
  · rfl
  · rfl

theorem checkFlush_eq {fd : Nat} (hopen : (s.fds.fdTable fd).isOpen = true) :
    s.checkFlush act m now fd = s.turn act m now passed (fd, .flush) := by
  rw [checkFlush]
  cases hhdl : (s.fds.fdTable fd).flushHandler with
  | none =>
      have hdue : s.fds.due now (fd, .flush) = none := by simp [FdSt.due, hhdl]
      rw [turn_none hdue]
  | some hdl =>
      have hdue := @due_flush _ now _ _ _ hopen hhdl
      simp only
      split
      · next hpast =>
          rw [if_pos hpast] at hdue
          rw [turn_some hdue]
          rfl
      · next hpast =>
          rw [if_neg hpast] at hdue
          rw [turn_none hdue]

/-- The flush handler may have closed the descriptor: then there is no timeout. -/
theorem checkTimeout_eq {fd : Nat} (hs : s.fds.Wf m) :
    s.checkTimeout act m now fd = some (s.turn act m now passed (fd, .timeout)) := by
  rw [checkTimeout]
  cases hhdl : (s.fds.fdTable fd).timeoutHandler with
  | none =>
      have hdue : s.fds.due now (fd, .timeout) = none := by simp [FdSt.due, hhdl]
      rw [turn_none hdue]
  | some hdl =>
      have hopen : (s.fds.fdTable fd).isOpen = true := by
        by_contra hnot
        cases (hs.closed fd hnot).symm.trans hhdl
      have hdue := @due_timeout _ now _ _ _ hopen hhdl
      simp only
      split
      · next hpast =>
          rw [if_pos hpast] at hdue
          rw [turn_some hdue, FdSt.unregister, FdSt.commSettimeout, if_pos hopen, Option.map_some,
            Option.getD_some]
          simp only [FdSt.set_self]
          rfl
      · next hpast =>
          rw [if_neg hpast] at hdue
          rw [turn_none hdue]

/-- The turns of `n` descriptors. -/
def turnsFrom (fd n : Nat) : List (Nat × TimerKind) :=
  (List.range' fd n).flatMap fun fd => [(fd, .flush), (fd, .timeout)]

theorem mem_turnsFrom {fd n : Nat} {t : Nat × TimerKind} (h : t ∈ turnsFrom fd n) : fd ≤ t.1 := by
  obtain ⟨fd', hfd', ht⟩ := List.mem_flatMap.mp h
  have hle := (List.mem_range'_1.mp hfd').1
  rcases List.mem_cons.mp ht with rfl | ht
  · exact hle
  · rw [List.mem_singleton.mp ht]
    exact hle

theorem turnsFrom_succ (fd n : Nat) :
    turnsFrom fd (n + 1) = (fd, .flush) :: (fd, .timeout) :: turnsFrom (fd + 1) n := by
  rw [turnsFrom, List.range'_succ, List.flatMap_cons]
  rfl

theorem checkLoop_eq (n : Nat) :
    ∀ {fd : Nat} {s : TimeoutSt σ}, s.fds.Wf m → fd + n = m →
      s.checkLoop act m now n fd = some (s.turns act m now passed (turnsFrom fd n)) := by
  induction n with
  | zero =>
      intro fd s hs hm
      have hbound := hs.bound
      rw [checkLoop, if_neg (by omega)]
      rfl
  | succ n ih =>
      intro fd s hs hm
      rw [checkLoop]
      split
      · simp only
        rw [turnsFrom_succ, turns_cons, turns_cons]
        split
        · next hskip =>
            have hopen : ¬ (s.fds.fdTable fd).isOpen = true := by
              rcases hskip with hnot | hclosing
              · exact hnot
              · cases (hs.closing fd).symm.trans hclosing
            have hnone : ∀ kind, s.fds.due now (fd, kind) = none :=
              fun kind => FdSt.due_of_not_open hopen
            rw [turn_none (hnone .flush), turn_none (hnone .timeout)]
            exact ih hs (by omega)
        · next hskip =>
            have hopen : (s.fds.fdTable fd).isOpen = true := by
              by_contra hnot
              exact hskip (.inl hnot)
            rw [checkFlush_eq hopen, checkTimeout_eq (turn_wf hs _)]
            exact ih (turn_wf (turn_wf hs _) _) (by omega)
      · next hend =>
          rw [turns_none]
          intro t ht
          refine FdSt.due_of_not_open fun hopen => ?_
          have hle := mem_turnsFrom ht
          have hhigh := hs.highest t.1 hopen
          omega

theorem commChecktimeouts_eq (hs : s.fds.Wf m) :
    s.commChecktimeouts act m now = some (s.turns act m now passed (turnsFrom 0 m)) :=
  checkLoop_eq m hs (Nat.zero_add m)

/-! ## The data -/

/-- Whatever happens later, the calls so far stay as they are. -/
theorem turns_calls {pass : FdCall → FdCall} (ts : List (Nat × TimerKind)) :
    ∀ s : TimeoutSt σ, s.calls <+: (s.turns act m now pass ts).calls := by
  induction ts with
  | nil => exact fun s => List.prefix_refl _
  | cons t ts ih =>
      intro s
      have hturn : s.calls <+: (s.turn act m now pass t).calls := by
        cases h : s.fds.due now t with
        | none =>
            simp only [turn_none h, List.prefix_refl]
        | some c =>
            rw [turn_some h]
            exact List.prefix_append ..
      exact hturn.trans (ih _)

/-- What holds of every split of a list. -/
theorem forall_split_cons {α : Type} {a : α} {l : List α} {P : List α → α → Prop} :
    (∀ pre t post, a :: l = pre ++ t :: post → P pre t) ↔
      P [] a ∧ ∀ pre t post, l = pre ++ t :: post → P (a :: pre) t := by
  constructor
  · intro h
    exact ⟨h [] a l rfl, fun pre t post hl => h (a :: pre) t post (by rw [hl]; rfl)⟩
  · rintro ⟨hhead, htail⟩ pre t post hl
    cases pre with
    | nil =>
        cases hl
        exact hhead
    | cons b pre =>
        cases hl
        exact htail pre t post rfl

/-- A call that passes something else is in the one log and not in the other. -/
theorem turns_calls_ne {pass : FdCall → FdCall} {t : Nat × TimerKind} {c : FdCall}
    (h : s.fds.due now t = some c) (hc : pass c ≠ c) (ts : List (Nat × TimerKind)) :
    (s.turns act m now pass (t :: ts)).calls ≠ (s.turns act m now id (t :: ts)).calls := by
  intro heq
  rw [turns_cons, turns_cons, turn_some h, turn_some h] at heq
  obtain ⟨more, hmore⟩ := @turns_calls σ act m now pass ts
    ({ s with fds := s.fds.unregister now c }.call act m now (pass c))
  obtain ⟨more', hmore'⟩ := @turns_calls σ act m now id ts
    ({ s with fds := s.fds.unregister now c }.call act m now (id c))
  have hlog : s.calls ++ [pass c] ++ more = s.calls ++ [c] ++ more' :=
    hmore.trans (heq.trans hmore'.symm)
  rw [List.append_assoc, List.append_assoc] at hlog
  exact hc (List.cons.inj (List.append_cancel_left hlog)).1

/-- Two checks make the same calls as long as they pass the same. -/
theorem turns_calls_iff {pass : FdCall → FdCall} (ts : List (Nat × TimerKind)) :
    ∀ s : TimeoutSt σ,
      (s.turns act m now pass ts).calls = (s.turns act m now id ts).calls ↔
        ∀ pre t post, ts = pre ++ t :: post → ∀ c,
          (s.turns act m now id pre).fds.due now t = some c → pass c = c := by
  induction ts with
  | nil =>
      intro s
      refine iff_of_true rfl fun pre t post h => ?_
      cases List.append_eq_nil_iff.mp h.symm with
      | intro _ hpost => cases hpost
  | cons t ts ih =>
      intro s
      rw [forall_split_cons]
      cases h : s.fds.due now t with
      | none =>
          have hhead : ∀ c, (s.turns act m now id []).fds.due now t = some c → pass c = c := by
            intro c hc
            cases h.symm.trans hc
          rw [turns_cons, turns_cons, turn_none h, turn_none h, ih s, and_iff_right hhead]
          simp only [turns_cons, turn_none h]
      | some c =>
          have hhead : (∀ c, (s.turns act m now id []).fds.due now t = some c → pass c = c) ↔
              pass c = c := by
            constructor
            · exact fun hall => hall c h
            · intro hc c' hc'
              cases h.symm.trans hc'
              exact hc
          rw [hhead]
          by_cases hc : pass c = c
          · have hsame : s.turn act m now pass t = s.turn act m now id t := by
              rw [turn_some h, turn_some h, hc, id]
            rw [turns_cons, turns_cons, hsame, ih (s.turn act m now id t), and_iff_right hc]
            rfl
          · exact iff_of_false (turns_calls_ne h hc ts) fun hand => hc hand.1

theorem passed_eq_iff (c : FdCall) : passed c = c ↔ (c.kind = .timeout → c.data = none) := by
  obtain ⟨kind, hdl, fd, data⟩ := c
  cases kind with
  | flush => exact iff_of_true rfl fun h => nomatch h
  | timeout =>
      constructor
      · exact fun h _ => congrArg FdCall.data h.symm
      · intro h
        obtain rfl : data = none := h rfl
        rfl

/-- The descriptors after what was done to them so far, when a check starts. -/
def start (m : Nat) (history : List (Int × List FdOp)) (rest : σ) : TimeoutSt σ where
  fds := FdSt.after m history
  rest := rest
  calls := []

/-- At every turn, what is due and no longer closed is called, and nothing else. -/
def CallsDue (act : FdHandlers σ) (m : Nat) (now : Int) (s : TimeoutSt σ) : Prop :=
  ∃ s', s.commChecktimeouts act m now = some s' ∧
    s'.calls = (s.turns act m now id (turnsFrom 0 m)).calls

theorem callsDue_iff (act : FdHandlers σ) (m : Nat) (now : Int)
    (history : List (Int × List FdOp)) (rest : σ) :
    (start m history rest).CallsDue act m now ↔
      ∀ pre t post, turnsFrom 0 m = pre ++ t :: post → ∀ c,
        ((start m history rest).turns act m now id pre).fds.due now t = some c →
          c.kind = .timeout → c.data = none := by
  rw [CallsDue, commChecktimeouts_eq (FdSt.after_wf m history)]
  simp only [← passed_eq_iff, ← turns_calls_iff, Option.some.injEq, exists_eq_left']

/-- The handler 7 of descriptor 3 is registered with the data 9, and gets `NULL`. -/
theorem data_not_passed :
    ¬ ∀ (act : FdHandlers Unit) m now history, (start m history ()).CallsDue act m now := by
  intro h
  obtain ⟨s', hs', hcalls⟩ := h (fun _ _ _ _ _ => ([], ())) 4 5
    [(0, [.fdOpen 3 .socket, .settimeout 3 1000 (some 7) (some 9)])]
  have hcode : s'.calls = [⟨.timeout, 7, 3, none⟩] :=
    congrArg (fun s => (s.map TimeoutSt.calls).getD []) hs'.symm
  have hdue := hcode.symm.trans hcalls
  exact absurd hdue (by decide)

end TimeoutSt

end TrIrcd
