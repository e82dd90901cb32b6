import TrIrcd.Proofs.PollInterest

/-!
# What `select` is asked for

With `s_bsd_select.c` the sets are found by the list that a descriptor is on, and not by a
number that it remembers; and where no list is named both are cleared. So here any
descriptor may be closed while it waits (`selectRun_asks`). As long as none of the web
server is, both builds ask the system for the same (`pollRun_selectRun`).
-/

namespace TrIrcd

open TrIrcd.Lib

namespace NetioSt

variable {m fd : Nat} {s s' : NetioSt SelectSets} {a : Interest}

/-- The sets after `select_update_selectfds`. -/
def setSets (s : NetioSt SelectSets) (fd : Nat) (list : FdList) (event : SelEvent)
    (handler : Bool) : SelectSets :=
  fun name event' fd' =>
    if fd' = fd ∧ (list = .none ∨ name = list.pollName ∧ event' = event) then
      !decide (list = .none) && handler
    else s.waits name event' fd'

theorem selectUpdate_eq (fd : Nat) (list : FdList) (event : SelEvent) (handler : Bool)
    (s : NetioSt SelectSets) : selectUpdateSelectfds fd list event handler s =
      .ok { s with waits := s.setSets fd list event handler } := by
  rw [selectUpdateSelectfds.eq_def]
  congr 2
  funext name event' fd'
  rw [setSets]
  cases list with
  | none =>
      by_cases hfd : fd' = fd
      · simp [hfd]
      · simp [hfd]
  | ircd =>
      cases name with
      | pollfdList =>
          by_cases hevent : event' = event
          · subst hevent
            by_cases hfd : fd' = fd
            · simp [hfd, FdList.pollName]
            · simp [hfd]
          · simp [hevent]
      | httpfdList => simp [FdList.pollName]
  | httpd =>
      cases name with
      | httpfdList =>
          by_cases hevent : event' = event
          · subst hevent
            by_cases hfd : fd' = fd
            · simp [hfd, FdList.pollName]
            · simp [hfd]
          · simp [hevent]
      | pollfdList => simp [FdList.pollName]

/-- What a call is to change: one descriptor, with the handlers for some events. Without a
list, its bits are all cleared. -/
structure Selected (fd : Nat) (l : FdList) (type : SelEvent → Bool)
    (handler data : Option Nat) (s s' : NetioSt SelectSets) : Prop where
  fds : s'.fds = s.fds
  other : ∀ fd', fd' ≠ fd → s'.sel fd' = s.sel fd'
  list : (s'.sel fd).list = l
  handlers : ∀ event, (s'.sel fd).handler event =
    if type event then handler else (s.sel fd).handler event
  data : ∀ event, (s'.sel fd).data event = if type event then data else (s.sel fd).data event
  otherSets : ∀ name event fd', fd' ≠ fd → s'.waits name event fd' = s.waits name event fd'
  sets : l ≠ .none → ∀ name event, s'.waits name event fd =
    if name = l.pollName ∧ type event = true then handler.isSome else s.waits name event fd
  noSets : l = .none → ∀ name event, s'.waits name event fd =
    (s.waits name event fd && !(type .read || type .write))

theorem setHandler_selected {l : FdList} (hlist : (s.sel fd).list = l) (event : SelEvent)
    (handler data : Option Nat) :
    ∃ s', s.setHandler selectUpdateSelectfds fd l event handler data = .ok s' ∧
      Selected fd l (fun event' => decide (event' = event)) handler data s s' := by
  let F : FdeSel := { s.sel fd with
    handler := Function.update (s.sel fd).handler event handler
    data := Function.update (s.sel fd).data event data }
  have hself : (s.setSel fd F).sel fd = F := setSel_self ..
  refine ⟨{ s.setSel fd F with waits := (s.setSel fd F).setSets fd l event handler.isSome },
    selectUpdate_eq .., rfl, fun fd' hne => setSel_of_ne s F hne, ?_, fun event' => ?_,
    fun event' => ?_, fun name event' fd' hne => if_neg fun h => hne h.1,
    fun hl name event' => ?_, fun hl name event' => ?_⟩
  · exact (congrArg FdeSel.list hself).trans hlist
  · simp only [hself, F, Function.update_apply, decide_eq_true_eq]
  · simp only [hself, F, Function.update_apply, decide_eq_true_eq]
  · show setSets .. = _
    simp only [setSets, hl, decide_eq_true_eq, decide_false, Bool.not_false, Bool.true_and,
      false_or, true_and]
    rfl
  · show setSets .. = _
    simp only [setSets, hl, decide_true, Bool.not_true, Bool.false_and, true_or, and_self, if_true]
    cases event with
    | read => simp
    | write => simp

/-- A call for some events after one for others. -/
theorem Selected.trans {l : FdList} {T U : SelEvent → Bool} {handler data : Option Nat}
    {s'' : NetioSt SelectSets} (h : Selected fd l T handler data s s')
    (h' : Selected fd l U handler data s' s'') :
    Selected fd l (fun event => T event || U event) handler data s s'' where
  fds := h'.fds.trans h.fds
  other fd' hne := (h'.other fd' hne).trans (h.other fd' hne)
  list := h'.list
  handlers event := by
    rw [h'.handlers, h.handlers]
    cases T event <;> cases U event <;> rfl
  data event := by
    rw [h'.data, h.data]
    cases T event <;> cases U event <;> rfl
  otherSets name event fd' hne :=
    (h'.otherSets name event fd' hne).trans (h.otherSets name event fd' hne)
  sets hl name event := by
    rw [h'.sets hl, h.sets hl]
    by_cases hname : name = l.pollName
    · cases T event <;> cases U event <;> simp [hname]
    · rw [if_neg fun h => hname h.1, if_neg fun h => hname h.1, if_neg fun h => hname h.1]
  noSets hl name event := by
    rw [h'.noSets hl, h.noSets hl]
    cases T .read <;> cases T .write <;> cases U .read <;> cases U .write <;> simp

theorem Selected.half {l : FdList} {T : SelEvent → Bool} {handler data : Option Nat}
    (hr : Selected fd l T handler data s s') (b : Bool) (event : SelEvent) :
    ∃ s'', (if b then s'.setHandler selectUpdateSelectfds fd l event handler data
        else .ok s') = .ok s'' ∧
      Selected fd l (fun event' => T event' || (b && decide (event' = event))) handler data
        s s'' := by
  cases b with
  | false =>
      refine ⟨s', rfl, ?_⟩
      simp only [Bool.false_and, Bool.or_false]
      exact hr
  | true =>
      obtain ⟨s'', hs'', hr'⟩ := setHandler_selected hr.list event handler data
      refine ⟨s'', hs'', ?_⟩
      simp only [Bool.true_and]
      exact hr.trans hr'

theorem commSetselect_selected (hopen : s.isOpen fd = true) (l : FdList)
    (type : SelEvent → Bool) (handler data : Option Nat) :
    ∃ s', s.commSetselect selectUpdateSelectfds fd l type handler data = .ok s' ∧
      Selected fd l type handler data s s' := by
  let F : FdeSel := { s.sel fd with list := l }
  have hself : (s.setSel fd F).sel fd = F := setSel_self ..
  have hstart : Selected fd l (fun _ => false) handler data s (s.setSel fd F) :=
    ⟨rfl, fun fd' hne => setSel_of_ne s F hne, by rw [hself], fun event => by rw [hself]; rfl,
      fun event => by rw [hself]; rfl, fun _ _ _ _ => rfl, fun _ name event => by simp [setSel],
      fun _ name event => by simp [setSel]⟩
  obtain ⟨k, hk, hread⟩ := hstart.half (type .read) .read
  obtain ⟨s', hs', hwrite⟩ := hread.half (type .write) .write
  refine ⟨s', ?_, ?_⟩
  · rw [NetioSt.commSetselect, if_neg (not_not_intro hopen)]
    exact (congrArg (Except.bind · _) hk).trans hs'
  · have hall : (fun event => (false || (type .read && decide (event = SelEvent.read))) ||
        (type .write && decide (event = SelEvent.write))) = type := by
      funext event
      cases event with
      | read => simp
      | write => simp
    rwa [hall] at hwrite

/-! ## The steps -/

/-- The entries hold the handlers that wait, and their bits are set. -/
structure SelectRefines (m : Nat) (s : NetioSt SelectSets) (a : Interest) : Prop where
  registers : Registers m s a
  listed : ∀ fd event r, a.waits fd event = some r → r.list ≠ .none
  sets : ∀ name event fd, s.waits name event fd = true ↔
    ∃ r, a.waits fd event = some r ∧ r.list.pollName = name

theorem selectInit_refines (m : Nat) : SelectRefines m selectInit Interest.init where
  registers := ⟨rfl, FdCount.init_exact m, fun _ _ _ => rfl, fun _ _ => rfl⟩
  listed _ _ _ h := nomatch h
  sets _ _ _ := ⟨fun h => (nomatch h), fun ⟨_, h, _⟩ => nomatch h⟩

/-- Who does not wait has no bits. -/
theorem SelectRefines.no_bits (h : SelectRefines m s a) (hnone : ∀ event, a.waits fd event = none)
    (name : PollName) (event : SelEvent) : s.waits name event fd = false := by
  refine Bool.eq_false_iff.mpr fun htrue => ?_
  obtain ⟨r, hr, -⟩ := (h.sets name event fd).mp htrue
  rw [hnone event] at hr
  cases hr

/-- The bits of other descriptors stay, and so does what they wait for. -/
theorem SelectRefines.of_other {a' : Interest} (h : SelectRefines m s a) (fd : Nat)
    (hr : Registers m s' a') (ha : ∀ fd', fd' ≠ fd → a'.waits fd' = a.waits fd')
    (hs : ∀ name event fd', fd' ≠ fd → s'.waits name event fd' = s.waits name event fd')
    (hlisted : ∀ event r, a'.waits fd event = some r → r.list ≠ .none)
    (hsets : ∀ name event, s'.waits name event fd = true ↔
      ∃ r, a'.waits fd event = some r ∧ r.list.pollName = name) : SelectRefines m s' a' := by
  refine ⟨hr, fun fd' event r hwaits => ?_, fun name event fd' => ?_⟩
  · by_cases hne : fd' = fd
    · rw [hne] at hwaits
      exact hlisted event r hwaits
    · rw [ha fd' hne] at hwaits
      exact h.listed fd' event r hwaits
  · by_cases hne : fd' = fd
    · rw [hne]
      exact hsets name event
    · rw [hs name event fd' hne, ha fd' hne]
      exact h.sets name event fd'

theorem SelectRefines.setselect {a' : Interest} {l : FdList} {type : SelEvent → Bool}
    {handler data : Option Nat} (h : SelectRefines m s a)
    (hstep : a.step m (.setselect fd l type handler data) = .ok a') :
    ∃ s', selectStep m s (.setselect fd l type handler data) = .ok s' ∧
      SelectRefines m s' a' := by
  rw [Interest.step] at hstep
  split at hstep
  · cases hstep
  · next hisOpen =>
      split at hstep
      · cases hstep
      · next hl =>
          split at hstep
          · cases hstep
          · next honly =>
              cases hstep
              have hopen : s.isOpen fd = true :=
                (h.registers.isOpen fd).symm.trans (not_not.mp hisOpen)
              have hon : ∀ event r, a.waits fd event = some r → r.list = l := by
                intro event r hr
                have hall := not_not.mp honly event
                rw [hr] at hall
                exact of_decide_eq_true hall
              obtain ⟨s', hs', hr⟩ := commSetselect_selected hopen l type handler data
              have hsame : s'.isOpen = s.isOpen := by
                funext fd'
                rw [isOpen, isOpen, hr.fds]
              have hwaits : ∀ event, Function.update a.waits fd (fun event =>
                  if type event then handler.map fun hdl => ⟨l, hdl, data⟩
                  else a.waits fd event) fd event =
                  if type event then handler.map fun hdl => ⟨l, hdl, data⟩
                  else a.waits fd event := fun event => by rw [Function.update_self]
              refine ⟨s', hs', h.of_other fd (h.registers.of_other fd
                (hr.fds.trans h.registers.fds) (hr.fds ▸ h.registers.exact)
                (fun fd' _ => congrFun hsame fd') hr.other
                (fun fd' hne => Function.update_of_ne hne ..) (fun hclosed => ?_) fun event => ?_)
                (fun fd' hne => Function.update_of_ne hne ..) hr.otherSets
                (fun event r hev => ?_) fun name event => ?_⟩
              · rw [hsame] at hclosed
                exact absurd hopen hclosed
              · refine (hwaits event).trans ?_
                rw [hr.handlers, hr.data, hr.list]
                cases htype : type event with
                | true => rfl
                | false =>
                    simp only [Bool.false_eq_true, if_false]
                    rw [h.registers.waits]
                    cases hold : (s.sel fd).handler event with
                    | none => rfl
                    | some hdl =>
                        have hlist := hon event ⟨(s.sel fd).list, hdl, (s.sel fd).data event⟩
                          (by rw [h.registers.waits, hold]; rfl)
                        exact congrArg (fun l' => some (Registration.mk l' hdl _)) hlist
              · have hev' := (hwaits event).symm.trans hev
                split at hev'
                · obtain ⟨hdl, -, rfl⟩ := Option.map_eq_some_iff.mp hev'
                  exact hl
                · exact h.listed fd event r hev'
              · show _ ↔ ∃ r, Function.update a.waits fd _ fd event = some r ∧ _
                rw [hr.sets hl, hwaits event]
                cases htype : type event with
                | true =>
                    by_cases hname : name = l.pollName
                    · cases handler with
                      | none => simp [hname]
                      | some hdl => simp [hname]
                    · rw [if_neg fun hand => hname hand.1, h.sets name event fd]
                      refine iff_of_false ?_ ?_
                      · rintro ⟨r, hwait, hlist⟩
                        rw [hon event r hwait] at hlist
                        exact hname hlist.symm
                      · rintro ⟨r, hwait, hlist⟩
                        obtain ⟨hdl, -, rfl⟩ := Option.map_eq_some_iff.mp hwait
                        exact hname hlist.symm
                | false =>
                    rw [if_neg fun hand => Bool.false_ne_true hand.2]
                    exact h.sets name event fd

theorem SelectRefines.take {a' : Interest} {event : SelEvent} (h : SelectRefines m s a)
    (hstep : a.step m (.take fd event) = .ok a') :
    ∃ s', s.take selectUpdateSelectfds fd event =
        .ok (s', (a.waits fd event).map fun r => (r.hdl, r.data)) ∧ SelectRefines m s' a' := by
  rw [Interest.step] at hstep
  split at hstep
  · cases hstep
  · next hisOpen =>
      cases hstep
      have hopen : s.isOpen fd = true := (h.registers.isOpen fd).symm.trans (not_not.mp hisOpen)
      let F : FdeSel := { s.sel fd with handler := Function.update (s.sel fd).handler event none }
      have hself : (s.setSel fd F).sel fd = F := setSel_self ..
      have hupdate := selectUpdate_eq fd (s.sel fd).list event false (s.setSel fd F)
      have hother : ∀ fd', fd' ≠ fd → (s.setSel fd F).sel fd' = s.sel fd' := fun fd' hne =>
        setSel_of_ne s F hne
      have hlists : ∀ event' r, a.waits fd event' = some r → r.list = (s.sel fd).list := by
        intro event' r hr
        rw [h.registers.waits] at hr
        obtain ⟨hdl, -, rfl⟩ := Option.map_eq_some_iff.mp hr
        rfl
      have hwaits : ∀ event', Function.update a.waits fd
          (Function.update (a.waits fd) event none) fd event' =
          if event' = event then none else a.waits fd event' := fun event' => by
        rw [Function.update_self, Function.update_apply]
      refine ⟨{ s.setSel fd F with
          waits := (s.setSel fd F).setSets fd (s.sel fd).list event false }, ?_,
        h.of_other fd (h.registers.of_other fd h.registers.fds h.registers.exact
          (fun _ _ => rfl) hother (fun fd' hne => Function.update_of_ne hne ..)
          (fun hclosed => absurd hopen hclosed) fun event' => ?_)
        (fun fd' hne => Function.update_of_ne hne ..) (fun name event' fd' hne => ?_)
        (fun event' r hev => ?_) fun name event' => ?_⟩
      · rw [NetioSt.take]
        refine (congrArg (Except.map _) hupdate).trans ?_
        simp only [Except.map, hself, h.registers.waits, Option.map_map]
        rfl
      · refine (hwaits event').trans ?_
        have hsel : ((s.setSel fd F).sel fd).handler event' =
            if event' = event then none else (s.sel fd).handler event' := by
          rw [hself]
          exact Function.update_apply ..
        rw [hsel, h.registers.waits]
        by_cases hevent : event' = event
        · rw [if_pos hevent, if_pos hevent]
          rfl
        · rw [if_neg hevent, if_neg hevent, hself]
      · exact if_neg fun hand => hne hand.1
      · have hev' := (hwaits event').symm.trans hev
        split at hev'
        · cases hev'
        · exact h.listed fd event' r hev'
      · show (if fd = fd ∧ ((s.sel fd).list = .none ∨
          name = (s.sel fd).list.pollName ∧ event' = event) then _ else s.waits name event' fd) =
            true ↔ ∃ r, Function.update a.waits fd _ fd event' = some r ∧ _
        rw [hwaits event', Bool.and_false]
        by_cases hevent : event' = event
        · rw [if_pos hevent]
          refine iff_of_false ?_ ?_
          · split
            · exact Bool.false_ne_true
            · next hnot =>
                rw [h.sets name event' fd]
                rintro ⟨r, hr, hname⟩
                rw [hlists event' r hr] at hname
                exact hnot ⟨rfl, .inr ⟨hname.symm, hevent⟩⟩
          · rintro ⟨r, hnone, -⟩
            cases hnone
        · rw [if_neg hevent]
          split
          · next hand =>
              refine iff_of_false Bool.false_ne_true ?_
              rintro ⟨r, hr, -⟩
              refine h.listed fd event' r hr ?_
              rw [hlists event' r hr]
              exact hand.2.resolve_right fun hand' => hevent hand'.2
          · exact h.sets name event' fd

/-- For a descriptor that is closed there is no handler, and no bit to clear. -/
theorem SelectRefines.take_closed (h : SelectRefines m s a) (hclosed : ¬ s.isOpen fd = true)
    (event : SelEvent) :
    ∃ s', s.take selectUpdateSelectfds fd event = .ok (s', none) ∧ SelectRefines m s' a := by
  let F : FdeSel := { s.sel fd with handler := Function.update (s.sel fd).handler event none }
  have hself : (s.setSel fd F).sel fd = F := setSel_self ..
  have hhandler : (s.sel fd).handler event = none := h.registers.closed fd hclosed event
  have hnone : ∀ event', a.waits fd event' = none := by
    intro event'
    rw [h.registers.waits, h.registers.closed fd hclosed]
    rfl
  have hF : ∀ event', F.handler event' = none := by
    intro event'
    show Function.update (s.sel fd).handler event none event' = none
    rw [Function.update_apply, h.registers.closed fd hclosed event', ite_self]
  refine ⟨{ s.setSel fd F with
      waits := (s.setSel fd F).setSets fd (s.sel fd).list event false }, ?_,
    h.of_other fd (h.registers.of_other fd h.registers.fds h.registers.exact
      (fun _ _ => rfl) (fun fd' hne => setSel_of_ne s F hne) (fun _ _ => rfl)
      (fun _ event' => by rw [hself, hF]) fun event' => ?_) (fun _ _ => rfl)
      (fun name event' fd' hne => ?_) (fun event' r hev => h.listed fd event' r hev)
      fun name event' => ?_⟩
  · rw [NetioSt.take]
    refine (congrArg (Except.map _) (selectUpdate_eq ..)).trans ?_
    simp only [Except.map, hhandler, Option.map_none]
    rfl
  · rw [hself, hF, hnone]
    rfl
  · exact if_neg fun hand => hne hand.1
  · rw [hnone]
    refine iff_of_false ?_ ?_
    · have hold := h.no_bits hnone name event'
      show ¬ (if fd = fd ∧ _ then _ else s.waits name event' fd) = true
      rw [Bool.and_false, hold, ite_self]
      exact Bool.false_ne_true
    · rintro ⟨r, hno, -⟩
      cases hno

theorem SelectRefines.fdClose {fds : FdCount} (h : SelectRefines m s a)
    (hclose : s.fds.fdClose m fd = .ok fds) :
    ∃ s', s.fdClose selectUpdateSelectfds m fd = .ok s' ∧ ¬ s'.isOpen fd = true ∧
      SelectRefines m s' { fds := fds, waits := Function.update a.waits fd fun _ => none } := by
  have hopen : s.isOpen fd = true := (FdCount.fdClose_ok hclose).1
  obtain ⟨k, hk, hr⟩ := commSetselect_selected hopen .none (fun _ => true) none none
  have hopens : ∀ fd', (k.cleared fd fds).isOpen fd' = true ↔ fd' ≠ fd ∧ s.isOpen fd' = true :=
    cleared_isOpen hclose
  refine ⟨_, fdClose_eq hk hr.fds hclose, fun hop => ((hopens fd).mp hop).1 rfl,
    h.of_other fd (h.registers.cleared hr.other hclose)
      (fun fd' hne => Function.update_of_ne hne ..) hr.otherSets (fun event r hev => ?_)
      fun name event => ?_⟩
  · have hnone : Function.update a.waits fd (fun _ => none) fd event = some r := hev
    rw [Function.update_self] at hnone
    cases hnone
  · refine iff_of_false ?_ ?_
    · have hgone := hr.noSets rfl name event
      rw [Bool.or_self, Bool.not_true, Bool.and_false] at hgone
      exact Bool.eq_false_iff.mp hgone
    · rintro ⟨r, hev, -⟩
      have hnone : Function.update a.waits fd (fun _ => none) fd event = some r := hev
      rw [Function.update_self] at hnone
      cases hnone

theorem SelectRefines.fdOpen_closed {fds : FdCount} {type : FdType} (h : SelectRefines m s a)
    (hfd : fd < m) (hclosed : ¬ s.isOpen fd = true) (hopen : s.fds.fdOpen m fd type = .ok fds) :
    ∃ s', s.fdOpen selectUpdateSelectfds m fd type = .ok s' ∧
      SelectRefines m s' { fds := fds, waits := Function.update a.waits fd fun _ => none } := by
  have hnone : ∀ event, a.waits fd event = none := by
    intro event
    rw [h.registers.waits, h.registers.closed fd hclosed]
    rfl
  have hwaits : ∀ event, Function.update a.waits fd (fun _ => none) fd event = none := by
    intro event
    rw [Function.update_self]
  refine ⟨_, fdOpen_eq hclosed hopen, h.of_other fd
    (h.registers.opened hfd hclosed hopen) (fun fd' hne => Function.update_of_ne hne ..)
    (fun _ _ _ _ => rfl) (fun event r hev => ?_) fun name event => ?_⟩
  · cases (hwaits event).symm.trans hev
  · refine iff_of_false ?_ ?_
    · exact Bool.eq_false_iff.mp (h.no_bits hnone name event)
    · rintro ⟨r, hev, -⟩
      cases (hwaits event).symm.trans hev

theorem SelectRefines.fdOpen {fds : FdCount} {type : FdType} (h : SelectRefines m s a)
    (hfd : fd < m) (hopen : s.fds.fdOpen m fd type = .ok fds) :
    ∃ s', s.fdOpen selectUpdateSelectfds m fd type = .ok s' ∧
      SelectRefines m s' { fds := fds, waits := Function.update a.waits fd fun _ => none } := by
  by_cases hisOpen : s.isOpen fd = true
  · obtain ⟨fds', hclose, hopen'⟩ := FdCount.fdOpen_ok_close hisOpen hopen
    obtain ⟨k, hk, hclosed, hk'⟩ := h.fdClose hclose
    have hkfds : k.fds = fds' := hk'.registers.fds
    obtain ⟨s', hs', hs''⟩ := hk'.fdOpen_closed hfd hclosed (hkfds ▸ hopen')
    refine ⟨s', (fdOpen_of_fdClose hisOpen hk hclosed).trans hs', ?_⟩
    simpa only [Function.update_idem] using hs''
  · exact h.fdOpen_closed hfd hisOpen hopen

theorem SelectRefines.step {a' : Interest} {op : NetioOp} (h : SelectRefines m s a)
    (hstep : a.step m op = .ok a') :
    ∃ s', selectStep m s op = .ok s' ∧ SelectRefines m s' a' := by
  cases op with
  | fdOpen fd type =>
      simp only [Interest.step, ← h.registers.fds] at hstep
      split at hstep
      · cases hstep
      · next hfd =>
          split at hstep
          · cases hstep
          · next fds hopen =>
              cases hstep
              exact h.fdOpen (not_not.mp hfd) hopen
  | fdClose fd =>
      simp only [Interest.step, ← h.registers.fds] at hstep
      split at hstep
      · cases hstep
      · next fds hclose =>
          cases hstep
          obtain ⟨s', hs', -, hrefines⟩ := h.fdClose hclose
          exact ⟨s', hs', hrefines⟩
  | setselect fd list type handler data => exact h.setselect hstep
  | take fd event =>
      obtain ⟨s', hs', hrefines⟩ := h.take hstep
      refine ⟨s', ?_, hrefines⟩
      rw [selectStep, NetioSt.step, hs']
      rfl

/-! ## Runs -/

theorem SelectRefines.run (ops : List NetioOp) (h : SelectRefines m s a) {a' : Interest}
    (hrun : run (Interest.step m) a ops = .ok a') :
    ∃ s', run (selectStep m) s ops = .ok s' ∧ SelectRefines m s' a' := by
  have hstep : ∀ a s o a', SelectRefines m s a → True → a.step m o = .ok a' →
      ∃ s', selectStep m s o = .ok s' ∧ SelectRefines m s' a' := fun _ _ _ _ h _ hs => h.step hs
  exact run_simulates hstep ops h (Meets.of_forall (fun _ _ => trivial) ops) hrun

theorem selectRun_refines {ops : List NetioOp}
    (hrun : run (Interest.step m) Interest.init ops = .ok a) :
    ∃ s, run (selectStep m) selectInit ops = .ok s ∧ SelectRefines m s a :=
  (selectInit_refines m).run ops hrun

/-- Whatever the server does to its descriptors, no assertion fails, and the bits that are set
are those of the handlers that wait. -/
theorem selectRun_asks {ops : List NetioOp}
    (hrun : run (Interest.step m) Interest.init ops = .ok a) :
    ∃ s, run (selectStep m) selectInit ops = .ok s ∧ s.fds = a.fds ∧
      (∀ name fd event, s.waits name event fd = true ↔
        ∃ r, a.waits fd event = some r ∧ r.list.pollName = name) ∧
      ∀ fd event, a.isOpen fd = true → ∃ s',
        s.take selectUpdateSelectfds fd event =
          .ok (s', (a.waits fd event).map fun r => (r.hdl, r.data)) := by
  obtain ⟨s, hs, h⟩ := selectRun_refines hrun
  refine ⟨s, hs, h.registers.fds, fun name fd event => h.sets name event fd,
    fun fd event hopen => ?_⟩
  obtain ⟨s', hs', -⟩ := @SelectRefines.take m fd s a _ event h (if_neg (not_not_intro hopen))
  exact ⟨s', hs'⟩

/-- Here the listener of the web server may be closed while it waits. -/
theorem selectRun_asks_closed :
    ∃ s, run (selectStep 8) selectInit (threeDescriptors ++ [.fdClose 4]) = .ok s ∧
      s.waits .pollfdList .write 3 = true ∧ ¬ s.waits .httpfdList .read 4 = true := by
  obtain ⟨s, hs, -, hsets, -⟩ := @selectRun_asks 8 _ (threeDescriptors ++ [.fdClose 4]) rfl
  refine ⟨s, hs, (hsets ..).mpr ⟨_, rfl, rfl⟩, fun h => ?_⟩
  obtain ⟨r, hr, -⟩ := (hsets ..).mp h
  cases hr

/-- Both builds get along with the same calls, and ask for the same. -/
theorem pollRun_selectRun {ops : List NetioOp}
    (hrun : run (Interest.step m) Interest.init ops = .ok a)
    (hquiet : Meets (Interest.step m) Interest.QuietClose Interest.init ops) :
    ∃ p s, run (pollStep m) pollInit ops = .ok p ∧ run (selectStep m) selectInit ops = .ok s ∧
      p.fds = s.fds ∧ (∀ fd, (p.sel fd).handler = (s.sel fd).handler) ∧
      ∀ name fd event, p.PollAsks name fd event ↔ s.waits name event fd = true := by
  obtain ⟨p, hp, hprefines⟩ := pollRun_refines hrun hquiet
  obtain ⟨s, hs, hsrefines⟩ := selectRun_refines hrun
  refine ⟨p, s, hp, hs, hprefines.registers.fds.trans hsrefines.registers.fds.symm, fun fd => ?_,
    fun name fd event =>
      (hprefines.asks_iff name fd event).trans (hsrefines.sets name event fd).symm⟩
  funext event
  have hwaits := (hprefines.registers.waits fd event).symm.trans
    (hsrefines.registers.waits fd event)
  have hhdl := congrArg (Option.map Registration.hdl) hwaits
  simpa only [Option.map_map, Function.comp_def, Option.map_id'] using hhdl

theorem pollRun_selectRun_three :
    ∃ p s, run (pollStep 8) pollInit threeDescriptors = .ok p ∧
      run (selectStep 8) selectInit threeDescriptors = .ok s ∧ p.fds = s.fds ∧
      (∀ fd, (p.sel fd).handler = (s.sel fd).handler) ∧
      ∀ name fd event, p.PollAsks name fd event ↔ s.waits name event fd = true :=
  @pollRun_selectRun 8 _ threeDescriptors rfl (by decide)

end NetioSt

end TrIrcd
