import TrIrcd.Proofs.PollSlots

/-!
# What `poll` is asked for

With `s_bsd_poll.c` the system is asked for exactly what has a handler, and each
descriptor stands in one slot (`pollRun_asks`). The one thing that the callers have to
see to is that no descriptor of the web server is closed while it waits: `fd_close` names
no list, so what it takes back it takes from the array of the server
(`fdClose_takes_other`).
-/

namespace TrIrcd

open TrIrcd.Lib

namespace NetioSt

variable {m fd : Nat} {s s' : NetioSt PollLists} {a : Interest}

/-- What the descriptor asks for, it asks for on this list. -/
def OnList (s : NetioSt PollLists) (fd : Nat) (list : FdList) : Prop :=
  ∀ event, s.armed fd event = true → (s.sel fd).list = list

/-- A descriptor that has a slot asks for something. -/
theorem Slotted.exists_armed (h : s.Slotted m) (hopen : s.isOpen fd = true) {i : Nat}
    (hcomm : (s.sel fd).commIndex = some i) : ∃ event, s.armed fd event = true := by
  obtain ⟨-, hslot⟩ := h.held fd i hopen hcomm
  obtain ⟨event, hevent⟩ := h.busy _ i fd hslot
  exact ⟨event, (armed_of_some hcomm event).trans hevent⟩

theorem Slotted.onList_name (h : s.Slotted m) (hopen : s.isOpen fd = true) {list : FdList}
    (hon : s.OnList fd list) (i : Nat) (hcomm : (s.sel fd).commIndex = some i) :
    (s.sel fd).list.pollName = list.pollName := by
  obtain ⟨event, harmed⟩ := h.exists_armed hopen hcomm
  rw [hon event harmed]

/-- The slots do not see another entry that has the same slot. -/
theorem Slotted.setSel (h : s.Slotted m) {F : FdeSel}
    (hcomm : F.commIndex = (s.sel fd).commIndex)
    (hname : ∀ i, (s.sel fd).commIndex = some i →
      F.list.pollName = (s.sel fd).list.pollName) : (s.setSel fd F).Slotted m := by
  have hsel : ∀ fd', ((s.setSel fd F).sel fd').commIndex = (s.sel fd').commIndex ∧
      ∀ i, (s.sel fd').commIndex = some i →
        ((s.setSel fd F).sel fd').list.pollName = (s.sel fd').list.pollName := by
    intro fd'
    by_cases hne : fd' = fd
    · subst hne
      rw [setSel_self]
      exact ⟨hcomm, hname⟩
    · rw [setSel_of_ne s F hne]
      exact ⟨rfl, fun _ _ => rfl⟩
  refine ⟨fun fd' i hopen hi => ?_, fun name i fd' hslot => ?_, h.busy, h.free, h.top⟩
  · rw [(hsel fd').1] at hi
    rw [(hsel fd').2 i hi]
    exact h.held fd' i hopen hi
  · obtain ⟨hopen, hi, hlist⟩ := h.used name i fd' hslot
    rw [(hsel fd').1, (hsel fd').2 i hi]
    exact ⟨hopen, hi, hlist⟩

theorem setSel_armed {F : FdeSel} (hcomm : F.commIndex = (s.sel fd).commIndex)
    (hname : ∀ i, (s.sel fd).commIndex = some i →
      F.list.pollName = (s.sel fd).list.pollName) (fd' : Nat) (event : SelEvent) :
    (s.setSel fd F).armed fd' event = s.armed fd' event := by
  by_cases hne : fd' = fd
  · subst hne
    cases hi : (s.sel fd').commIndex with
    | none => rw [armed_of_none hi, armed_of_none (by rw [setSel_self, hcomm, hi])]
    | some i =>
        rw [armed_of_some hi, armed_of_some (i := i) (by rw [setSel_self, hcomm, hi]),
          setSel_self, hname i hi]
        rfl
  · rw [armed, armed, setSel_of_ne s F hne]
    rfl

/-! ## `comm_setselect` -/

/-- What a call is to change: one descriptor, with the handlers for some events. -/
structure Reselected (fd : Nat) (list : FdList) (type : SelEvent → Bool)
    (handler data : Option Nat) (s s' : NetioSt PollLists) : Prop where
  fds : s'.fds = s.fds
  frame : Frame fd s s'
  handlers : ∀ event, (s'.sel fd).handler event =
    if type event then handler else (s.sel fd).handler event
  data : ∀ event, (s'.sel fd).data event = if type event then data else (s.sel fd).data event
  armed : ∀ event, s'.armed fd event =
    if type event then handler.isSome else s.armed fd event
  onList : s'.OnList fd list

theorem Slotted.setHandler (h : s.Slotted m) (hbound : ∀ fd, s.isOpen fd = true → fd < m)
    (hopen : s.isOpen fd = true) {list : FdList} (hon : s.OnList fd list) (event : SelEvent)
    (handler data : Option Nat) :
    ∃ s', s.setHandler (pollUpdatePollfds m) fd list event handler data = .ok s' ∧
      s'.Slotted m ∧ Reselected fd list (fun event' => decide (event' = event)) handler data
        s s' := by
  let F : FdeSel := { s.sel fd with
    handler := Function.update (s.sel fd).handler event handler
    data := Function.update (s.sel fd).data event data }
  have hF : (s.setSel fd F).Slotted m := h.setSel rfl fun _ _ => rfl
  have hself : (s.setSel fd F).sel fd = F := setSel_self ..
  have harmed := @setSel_armed fd s F rfl fun _ _ => rfl
  obtain ⟨s', hs', hslotted, hup⟩ := hF.pollUpdate hbound hopen list event handler.isSome
    fun i hi => by rw [hself] at hi ⊢; exact h.onList_name hopen hon i hi
  refine ⟨s', hs', hslotted, hup.fds, (setSel_frame s fd F).trans hup.frame,
    fun event' => ?_, fun event' => ?_, fun event' => ?_, fun event' hev => ?_⟩
  · rw [hup.handlers, hself]
    simp only [F, Function.update_apply, decide_eq_true_eq]
  · rw [hup.data, hself]
    simp only [F, Function.update_apply, decide_eq_true_eq]
  · rw [hup.armed, harmed]
    simp only [decide_eq_true_eq]
  · have hlist := hup.onList event' hev
    rw [hup.armed, harmed] at hev
    rw [hself] at hlist
    split at hlist
    · exact hlist
    · next hnone =>
        split at hev
        · exact absurd hev hnone
        · exact hlist.trans (hon event' hev)

/-- A call for some events after one for others. -/
theorem Reselected.trans {list : FdList} {T U : SelEvent → Bool} {handler data : Option Nat}
    {s'' : NetioSt PollLists} (h : Reselected fd list T handler data s s')
    (h' : Reselected fd list U handler data s' s'') :
    Reselected fd list (fun event => T event || U event) handler data s s'' where
  fds := h'.fds.trans h.fds
  frame := h.frame.trans h'.frame
  handlers event := by
    rw [h'.handlers, h.handlers]
    cases T event <;> cases U event <;> rfl
  data event := by
    rw [h'.data, h.data]
    cases T event <;> cases U event <;> rfl
  armed event := by
    rw [h'.armed, h.armed]
    cases T event <;> cases U event <;> rfl
  onList := h'.onList

/-- One half of `comm_setselect`. -/
theorem Slotted.half (h : s'.Slotted m) (hbound : ∀ fd, s.isOpen fd = true → fd < m)
    (hopen : s.isOpen fd = true) {list : FdList} {T : SelEvent → Bool}
    {handler data : Option Nat} (hr : Reselected fd list T handler data s s')
    (b : Bool) (event : SelEvent) :
    ∃ s'', (if b then s'.setHandler (pollUpdatePollfds m) fd list event handler data
        else .ok s') = .ok s'' ∧ s''.Slotted m ∧
      Reselected fd list (fun event' => T event' || (b && decide (event' = event))) handler data
        s s'' := by
  have hsame : s'.isOpen = s.isOpen := by
    funext fd'
    rw [isOpen, isOpen, hr.fds]
  cases b with
  | false =>
      refine ⟨s', rfl, h, ?_⟩
      simp only [Bool.false_and, Bool.or_false]
      exact hr
  | true =>
      obtain ⟨s'', hs'', hslotted, hr'⟩ :=
        h.setHandler (by rwa [hsame]) (by rwa [hsame]) hr.onList event handler data
      refine ⟨s'', hs'', hslotted, ?_⟩
      simp only [Bool.true_and]
      exact hr.trans hr'

/-- No assertion fails, if the descriptor has no slot in the other array. -/
theorem Slotted.commSetselect (h : s.Slotted m) (hbound : ∀ fd, s.isOpen fd = true → fd < m)
    (hopen : s.isOpen fd = true) {list : FdList}
    (hname : ∀ i, (s.sel fd).commIndex = some i → (s.sel fd).list.pollName = list.pollName)
    (type : SelEvent → Bool) (handler data : Option Nat) :
    ∃ s', s.commSetselect (pollUpdatePollfds m) fd list type handler data = .ok s' ∧
      s'.Slotted m ∧ Reselected fd list type handler data s s' := by
  let F : FdeSel := { s.sel fd with list := list }
  have hF : (s.setSel fd F).Slotted m := h.setSel rfl fun i hi => (hname i hi).symm
  have harmed := @setSel_armed fd s F rfl fun i hi => (hname i hi).symm
  have hself : (s.setSel fd F).sel fd = F := setSel_self ..
  have hstart : Reselected fd list (fun _ => false) handler data s (s.setSel fd F) :=
    ⟨rfl, setSel_frame s fd F, fun event => by rw [hself]; rfl, fun event => by rw [hself]; rfl,
      fun event => harmed fd event, fun event _ => by rw [hself]⟩
  obtain ⟨k, hk, hkslotted, hread⟩ := hF.half hbound hopen hstart (type .read) .read
  obtain ⟨s', hs', hslotted, hwrite⟩ := hkslotted.half hbound hopen hread (type .write) .write
  refine ⟨s', ?_, hslotted, ?_⟩
  · rw [NetioSt.commSetselect, if_neg (not_not_intro hopen)]
    exact (congrArg (Except.bind · _) hk).trans hs'
  · have hall : (fun event => (false || (type .read && decide (event = SelEvent.read))) ||
        (type .write && decide (event = SelEvent.write))) = type := by
      funext event
      cases event with
      | read => simp
      | write => simp
    rwa [hall] at hwrite

/-! ## The steps -/

/-- The entries hold the handlers that wait, and the slots ask for them. -/
structure PollRefines (m : Nat) (s : NetioSt PollLists) (a : Interest) : Prop where
  registers : Registers m s a
  slotted : s.Slotted m
  armed : ∀ fd, s.isOpen fd = true → ∀ event,
    s.armed fd event = ((s.sel fd).handler event).isSome

theorem pollInit_refines (m : Nat) : PollRefines m pollInit Interest.init where
  registers := ⟨rfl, FdCount.init_exact m, fun _ _ _ => rfl, fun _ _ => rfl⟩
  slotted := pollInit_slotted m
  armed _ h := nomatch h

theorem PollRefines.bound (h : PollRefines m s a) (fd : Nat) (hopen : s.isOpen fd = true) :
    fd < m :=
  h.registers.exact.bound fd hopen

/-- Nobody waits for the descriptor on another list, so its slot is that of the list. -/
theorem PollRefines.onList (h : PollRefines m s a) (hopen : s.isOpen fd = true) {list : FdList}
    (hon : a.OnlyOn fd list) : s.OnList fd list := by
  intro event harmed
  rw [h.armed fd hopen] at harmed
  exact h.registers.onlyOn hon harmed

theorem PollRefines.setselect {a' : Interest} {list : FdList} {type : SelEvent → Bool}
    {handler data : Option Nat} (h : PollRefines m s a)
    (hstep : a.step m (.setselect fd list type handler data) = .ok a') :
    ∃ s', pollStep m s (.setselect fd list type handler data) = .ok s' ∧ PollRefines m s' a' ∧
      Frame fd s s' := by
  rw [Interest.step] at hstep
  split at hstep
  · cases hstep
  · next hisOpen =>
      split at hstep
      · cases hstep
      · split at hstep
        · cases hstep
        · next honly =>
            cases hstep
            have hopen : s.isOpen fd = true :=
              (h.registers.isOpen fd).symm.trans (not_not.mp hisOpen)
            have hon := h.onList hopen (not_not.mp honly)
            obtain ⟨s', hs', hslotted, hr⟩ := h.slotted.commSetselect h.bound hopen
              (h.slotted.onList_name hopen hon) type handler data
            have hsame : s'.isOpen = s.isOpen := by
              funext fd'
              rw [isOpen, isOpen, hr.fds]
            have harmed : ∀ event, s'.armed fd event = ((s'.sel fd).handler event).isSome := by
              intro event
              rw [hr.armed, hr.handlers, h.armed fd hopen]
              exact (apply_ite Option.isSome _ _ _).symm
            refine ⟨s', hs', ⟨h.registers.of_other fd (hr.fds.trans h.registers.fds)
              (hr.fds ▸ h.registers.exact) (fun fd' _ => congrFun hsame fd') hr.frame.other
              (fun fd' hne => Function.update_of_ne hne ..) (fun hclosed => ?_) fun event => ?_,
              hslotted, fun fd' hopen' event => ?_⟩, hr.frame⟩
            · rw [hsame] at hclosed
              exact absurd hopen hclosed
            · show Function.update a.waits fd _ fd event = _
              rw [Function.update_self, hr.handlers, hr.data, h.registers.waits]
              have hlist := hr.onList event
              rw [hr.armed] at hlist
              cases htype : type event with
              | true =>
                  rw [htype, if_pos rfl] at hlist
                  cases handler with
                  | none => rfl
                  | some hdl => simp [hlist rfl]
              | false =>
                  rw [htype, if_neg Bool.false_ne_true, h.armed fd hopen] at hlist
                  cases hhandler : (s.sel fd).handler event with
                  | none => simp
                  | some hdl =>
                      rw [hhandler] at hlist
                      have hold := hon event (by rw [h.armed fd hopen, hhandler]; rfl)
                      simp [hlist rfl, hold]
            · rw [hsame] at hopen'
              by_cases hne : fd' = fd
              · rw [hne]
                exact harmed event
              · rw [h.slotted.frame_armed hr.frame hne hopen', hr.frame.other fd' hne]
                exact h.armed fd' hopen' event

theorem PollRefines.take {a' : Interest} {event : SelEvent} (h : PollRefines m s a)
    (hstep : a.step m (.take fd event) = .ok a') :
    ∃ s', s.take (pollUpdatePollfds m) fd event =
        .ok (s', (a.waits fd event).map fun r => (r.hdl, r.data)) ∧ PollRefines m s' a' ∧
      Frame fd s s' := by
  rw [Interest.step] at hstep
  split at hstep
  · cases hstep
  · next hisOpen =>
      cases hstep
      have hopen : s.isOpen fd = true := (h.registers.isOpen fd).symm.trans (not_not.mp hisOpen)
      let F : FdeSel := { s.sel fd with handler := Function.update (s.sel fd).handler event none }
      have hF : (s.setSel fd F).Slotted m := h.slotted.setSel rfl fun _ _ => rfl
      have hself : (s.setSel fd F).sel fd = F := setSel_self ..
      have harmedF := @setSel_armed fd s F rfl fun _ _ => rfl
      obtain ⟨s', hs', hslotted, hup⟩ := hF.pollUpdate h.bound hopen (s.sel fd).list event false
        fun i _ => by rw [hself]
      have hsame : s'.isOpen = s.isOpen := by
        funext fd'
        rw [isOpen, isOpen, hup.fds]
        rfl
      have hframe := (setSel_frame s fd F).trans hup.frame
      have hhandler : ∀ event', (s'.sel fd).handler event' =
          if event' = event then none else (s.sel fd).handler event' := by
        intro event'
        rw [hup.handlers, hself]
        exact Function.update_apply ..
      have harmed : ∀ event', s'.armed fd event' = ((s'.sel fd).handler event').isSome := by
        intro event'
        rw [hup.armed, harmedF, h.armed fd hopen, hhandler]
        split
        · rfl
        · rfl
      refine ⟨s', ?_, ⟨h.registers.of_other fd (hup.fds.trans h.registers.fds)
        (hup.fds ▸ h.registers.exact) (fun fd' _ => congrFun hsame fd') hframe.other
        (fun fd' hne => Function.update_of_ne hne ..) (fun hclosed => ?_) fun event' => ?_,
        hslotted, fun fd' hopen' event' => ?_⟩, hframe⟩
      · rw [NetioSt.take, hs', h.registers.waits]
        simp only [Except.map, hup.data, hself, Option.map_map]
        rfl
      · rw [hsame] at hclosed
        exact absurd hopen hclosed
      · show Function.update a.waits fd _ fd event' = _
        rw [Function.update_self, Function.update_apply, hhandler, hup.data, hself,
          h.registers.waits]
        by_cases hevent : event' = event
        · rw [if_pos hevent, if_pos hevent]
          rfl
        · rw [if_neg hevent, if_neg hevent]
          cases hold : (s.sel fd).handler event' with
          | none => rfl
          | some hdl =>
              have hlist := hup.onList event' (by
                rw [harmed, hhandler, if_neg hevent, hold]
                rfl)
              rw [if_neg Bool.false_ne_true, hself] at hlist
              rw [hlist]
      · rw [hsame] at hopen'
        by_cases hne : fd' = fd
        · rw [hne]
          exact harmed event'
        · rw [h.slotted.frame_armed hframe hne hopen', hframe.other fd' hne]
          exact h.armed fd' hopen' event'

/-- The descriptor has no slot, and it may be opened or closed. -/
theorem Slotted.retable (h : s.Slotted m) (hwaits : s'.waits = s.waits)
    (hsel : ∀ fd', fd' ≠ fd → s'.sel fd' = s.sel fd')
    (hopen : ∀ fd', fd' ≠ fd → s'.isOpen fd' = s.isOpen fd')
    (hno : ∀ name i, (s.slot name i).fd ≠ some fd)
    (hidle : s'.isOpen fd = true → (s'.sel fd).commIndex = none) : s'.Slotted m := by
  have hslots : s'.slot = s.slot := by
    funext name i
    rw [slot, slot, hwaits]
  refine ⟨fun fd' i hopen' hi => ?_, fun name i fd' hslot => ?_, ?_, ?_, fun name i hsome => ?_⟩
  · by_cases hne : fd' = fd
    · rw [hne] at hopen' hi
      rw [hidle hopen'] at hi
      cases hi
    · rw [hopen fd' hne] at hopen'
      rw [hsel fd' hne] at hi ⊢
      rw [hslots]
      exact h.held fd' i hopen' hi
  · rw [hslots] at hslot
    have hne : fd' ≠ fd := by
      rintro rfl
      exact hno name i hslot
    rw [hsel fd' hne, hopen fd' hne]
    exact h.used name i fd' hslot
  · rw [hslots]
    exact h.busy
  · rw [hslots]
    exact h.free
  · rw [hslots] at hsome
    rw [hwaits]
    exact h.top name i hsome

theorem armed_congr (hwaits : s'.waits = s.waits) (hsel : s'.sel fd = s.sel fd)
    (event : SelEvent) : s'.armed fd event = s.armed fd event := by
  rw [armed, armed, hsel]
  simp only [slot, hwaits]

/-- A descriptor that is open asks for nothing: it has no slot. -/
theorem Slotted.no_slot (h : s.Slotted m) (hidle : s.isOpen fd = true →
    ∀ event, s.armed fd event = false) (name : PollName) (i : Nat) :
    (s.slot name i).fd ≠ some fd := by
  intro hslot
  obtain ⟨hopen, hcomm, -⟩ := h.used name i fd hslot
  obtain ⟨event, harmed⟩ := h.exists_armed hopen hcomm
  rw [hidle hopen event] at harmed
  cases harmed

theorem cleared_frame (s : NetioSt PollLists) (fd : Nat) (fds : FdCount) :
    Frame fd s (s.cleared fd fds) :=
  ⟨fun _ hne => cleared_sel_of_ne s fds hne, fun _ _ _ _ _ => rfl,
    fun _ _ _ _ hj hev => ⟨hj, hev⟩⟩

theorem opened_frame (s : NetioSt PollLists) (fd : Nat) (fds : FdCount) :
    Frame fd s (s.opened fd fds) :=
  ⟨fun _ hne => opened_sel_of_ne s fds hne, fun _ _ _ _ _ => rfl,
    fun _ _ _ _ hj hev => ⟨hj, hev⟩⟩

theorem PollRefines.fdClose {fds : FdCount} (h : PollRefines m s a) (honly : a.OnlyOn fd .ircd)
    (hclose : s.fds.fdClose m fd = .ok fds) :
    ∃ s', s.fdClose (pollUpdatePollfds m) m fd = .ok s' ∧ ¬ s'.isOpen fd = true ∧
      PollRefines m s' { fds := fds, waits := Function.update a.waits fd fun _ => none } ∧
      s'.sel fd = FdeSel.zero ∧ Frame fd s s' := by
  have hopen : s.isOpen fd = true := (FdCount.fdClose_ok hclose).1
  have hname := h.slotted.onList_name hopen (h.onList hopen honly)
  obtain ⟨k, hk, hslotted, hr⟩ := @Slotted.commSetselect m fd s h.slotted h.bound hopen .none hname
    (fun _ => true) none none
  have hopens : ∀ fd', (k.cleared fd fds).isOpen fd' = true ↔ fd' ≠ fd ∧ s.isOpen fd' = true :=
    cleared_isOpen hclose
  have hsame : ∀ fd', fd' ≠ fd → (k.cleared fd fds).isOpen fd' = k.isOpen fd' := by
    intro fd' hne
    rw [Bool.eq_iff_iff, hopens, isOpen, isOpen, hr.fds]
    exact and_iff_right hne
  have hnot : ¬ (k.cleared fd fds).isOpen fd = true := fun hop => ((hopens fd).mp hop).1 rfl
  refine ⟨_, fdClose_eq hk hr.fds hclose, hnot, ⟨h.registers.cleared hr.frame.other hclose,
    hslotted.retable rfl (fun fd' hne => cleared_sel_of_ne k fds hne) hsame
      (hslotted.no_slot fun _ event => hr.armed event) fun hop => absurd hop hnot,
    fun fd' hop event => ?_⟩, setSel_self .., hr.frame.trans (cleared_frame k fd fds)⟩
  obtain ⟨hne, hop'⟩ := (hopens fd').mp hop
  have hsel := cleared_sel_of_ne k fds hne
  have hwaits : (k.cleared fd fds).waits = k.waits := rfl
  rw [armed_congr hwaits hsel, hsel, h.slotted.frame_armed hr.frame hne hop',
    hr.frame.other fd' hne]
  exact h.armed fd' hop' event

theorem PollRefines.fdOpen_closed {fds : FdCount} {type : FdType} (h : PollRefines m s a)
    (hfd : fd < m) (hclosed : ¬ s.isOpen fd = true) (hopen : s.fds.fdOpen m fd type = .ok fds) :
    ∃ s', s.fdOpen (pollUpdatePollfds m) m fd type = .ok s' ∧
      PollRefines m s' { fds := fds, waits := Function.update a.waits fd fun _ => none } ∧
      Frame fd s s' := by
  have hopens : ∀ fd', (s.opened fd fds).isOpen fd' = true ↔ fd' = fd ∨ s.isOpen fd' = true :=
    opened_isOpen hclosed hopen
  have hself : (s.opened fd fds).sel fd = { s.sel fd with commIndex := none, list := .none } :=
    setSel_self ..
  refine ⟨_, fdOpen_eq hclosed hopen, ⟨h.registers.opened hfd hclosed hopen,
    h.slotted.retable rfl (fun fd' hne => opened_sel_of_ne s fds hne) (fun fd' hne => ?_)
      (h.slotted.no_slot fun hop => absurd hop hclosed) (fun _ => by rw [hself]),
    fun fd' hop event => ?_⟩, opened_frame s fd fds⟩
  · rw [Bool.eq_iff_iff, hopens]
    exact or_iff_right hne
  · by_cases hne : fd' = fd
    · rw [hne, armed_of_none (by rw [hself]), hself]
      exact (congrArg Option.isSome (h.registers.closed fd hclosed event)).symm
    · have hsel := opened_sel_of_ne s fds hne
      have hwaits : (s.opened fd fds).waits = s.waits := rfl
      rw [armed_congr hwaits hsel, hsel]
      exact h.armed fd' (((hopens fd').mp hop).resolve_left hne) event

theorem PollRefines.fdOpen {fds : FdCount} {type : FdType} (h : PollRefines m s a)
    (honly : a.OnlyOn fd .ircd) (hfd : fd < m) (hopen : s.fds.fdOpen m fd type = .ok fds) :
    ∃ s', s.fdOpen (pollUpdatePollfds m) m fd type = .ok s' ∧
      PollRefines m s' { fds := fds, waits := Function.update a.waits fd fun _ => none } ∧
      Frame fd s s' := by
  by_cases hisOpen : s.isOpen fd = true
  · obtain ⟨fds', hclose, hopen'⟩ := FdCount.fdOpen_ok_close hisOpen hopen
    obtain ⟨k, hk, hclosed, hk', -, hframe⟩ := h.fdClose honly hclose
    have hkfds : k.fds = fds' := hk'.registers.fds
    obtain ⟨s', hs', hs'', hframe'⟩ := hk'.fdOpen_closed hfd hclosed (hkfds ▸ hopen')
    refine ⟨s', (fdOpen_of_fdClose hisOpen hk hclosed).trans hs', ?_, hframe.trans hframe'⟩
    simpa only [Function.update_idem] using hs''
  · exact h.fdOpen_closed hfd hisOpen hopen

end NetioSt

/-- A descriptor is not closed while it waits on the list of the web server. -/
def Interest.QuietClose (a : Interest) : NetioOp → Prop
  | .fdOpen fd _ => a.OnlyOn fd .ircd
  | .fdClose fd => a.OnlyOn fd .ircd
  | .setselect .. => True
  | .take .. => True

instance (a : Interest) : ∀ op, Decidable (a.QuietClose op)
  | .fdOpen fd _ => inferInstanceAs (Decidable (a.OnlyOn fd .ircd))
  | .fdClose fd => inferInstanceAs (Decidable (a.OnlyOn fd .ircd))
  | .setselect .. => .isTrue trivial
  | .take .. => .isTrue trivial

namespace NetioSt

variable {m fd : Nat} {s s' : NetioSt PollLists} {a : Interest}

theorem PollRefines.step {a' : Interest} {op : NetioOp} (h : PollRefines m s a)
    (hquiet : a.QuietClose op) (hstep : a.step m op = .ok a') :
    ∃ s', pollStep m s op = .ok s' ∧ PollRefines m s' a' ∧ Frame op.fd s s' := by
  cases op with
  | fdOpen fd type =>
      simp only [Interest.step, ← h.registers.fds] at hstep
      split at hstep
      · cases hstep
      · next hfd =>
          split at hstep
          · cases hstep
          · next fds hopen =>
              cases hstep
              exact h.fdOpen hquiet (not_not.mp hfd) hopen
  | fdClose fd =>
      simp only [Interest.step, ← h.registers.fds] at hstep
      split at hstep
      · cases hstep
      · next fds hclose =>
          cases hstep
          obtain ⟨s', hs', -, hrefines, -, hframe⟩ := h.fdClose hquiet hclose
          exact ⟨s', hs', hrefines, hframe⟩
  | setselect fd list type handler data => exact h.setselect hstep
  | take fd event =>
      obtain ⟨s', hs', hrefines⟩ := h.take hstep
      refine ⟨s', ?_, hrefines⟩
      rw [pollStep, NetioSt.step, hs']
      rfl

/-! ## What the system is asked -/

/-- The system is shown a slot that asks for the event. -/
def PollAsks (s : NetioSt PollLists) (name : PollName) (fd : Nat) (event : SelEvent) : Prop :=
  ∃ i : Nat, (i : Int) < (s.waits name).maxindex + 1 ∧ (s.slot name i).fd = some fd ∧
    (s.slot name i).events event = true

theorem PollRefines.asks_iff (h : PollRefines m s a) (name : PollName) (fd : Nat)
    (event : SelEvent) : s.PollAsks name fd event ↔
      ∃ r, a.waits fd event = some r ∧ r.list.pollName = name := by
  rw [h.registers.waits]
  constructor
  · rintro ⟨i, -, hslot, hevent⟩
    obtain ⟨hopen, hcomm, hname⟩ := h.slotted.used name i fd hslot
    have harmed : s.armed fd event = true := by
      rw [armed_of_some hcomm, hname, hevent]
    rw [h.armed fd hopen] at harmed
    obtain ⟨hdl, hhdl⟩ := Option.isSome_iff_exists.mp harmed
    exact ⟨⟨(s.sel fd).list, hdl, (s.sel fd).data event⟩, by rw [hhdl]; rfl, hname⟩
  · rintro ⟨r, hr, hname⟩
    obtain ⟨hdl, hhdl, rfl⟩ := Option.map_eq_some_iff.mp hr
    have hopen : s.isOpen fd = true := by
      by_contra hclosed
      rw [h.registers.closed fd hclosed] at hhdl
      cases hhdl
    have harmed : s.armed fd event = true := by
      rw [h.armed fd hopen, hhdl]
      rfl
    cases hcomm : (s.sel fd).commIndex with
    | none =>
        rw [armed_of_none hcomm] at harmed
        cases harmed
    | some i =>
        obtain ⟨-, hslot⟩ := h.slotted.held fd i hopen hcomm
        rw [armed_of_some hcomm] at harmed
        have hname' : (s.sel fd).list.pollName = name := hname
        rw [hname'] at hslot harmed
        have htop := h.slotted.top name i (by rw [hslot]; rfl)
        exact ⟨i, by omega, hslot, harmed⟩

/-- A descriptor stands in one slot. -/
theorem Slotted.slot_unique (h : s.Slotted m) {name name' : PollName} {i j : Nat}
    (hi : (s.slot name i).fd = some fd) (hj : (s.slot name' j).fd = some fd) :
    name = name' ∧ i = j := by
  obtain ⟨-, hcomm, hname⟩ := h.used name i fd hi
  obtain ⟨-, hcomm', hname'⟩ := h.used name' j fd hj
  exact ⟨hname.symm.trans hname', Option.some.inj (hcomm.symm.trans hcomm')⟩

theorem pollRun_refines {ops : List NetioOp}
    (hrun : run (Interest.step m) Interest.init ops = .ok a)
    (hquiet : Meets (Interest.step m) Interest.QuietClose Interest.init ops) :
    ∃ s, run (pollStep m) pollInit ops = .ok s ∧ PollRefines m s a := by
  have hstep : ∀ a s o a', PollRefines m s a → a.QuietClose o → a.step m o = .ok a' →
      ∃ s', pollStep m s o = .ok s' ∧ PollRefines m s' a' := by
    intro a s o a' h hq hs
    obtain ⟨s', hs', hrefines, -⟩ := h.step hq hs
    exact ⟨s', hs', hrefines⟩
  exact run_simulates hstep ops (pollInit_refines m) hquiet hrun

/-- Whatever the server does to its descriptors, as long as none is closed that waits on the
list of the web server: no assertion fails, the system is asked for exactly the handlers
that wait, and for each descriptor once, and a handler is found with its data. -/
theorem pollRun_asks {ops : List NetioOp}
    (hrun : run (Interest.step m) Interest.init ops = .ok a)
    (hquiet : Meets (Interest.step m) Interest.QuietClose Interest.init ops) :
    ∃ s, run (pollStep m) pollInit ops = .ok s ∧ s.fds = a.fds ∧
      (∀ name fd event, s.PollAsks name fd event ↔
        ∃ r, a.waits fd event = some r ∧ r.list.pollName = name) ∧
      (∀ name name' i j fd, (s.slot name i).fd = some fd → (s.slot name' j).fd = some fd →
        name = name' ∧ i = j) ∧
      ∀ fd event, a.isOpen fd = true → ∃ s',
        s.take (pollUpdatePollfds m) fd event =
          .ok (s', (a.waits fd event).map fun r => (r.hdl, r.data)) := by
  obtain ⟨s, hs, h⟩ := pollRun_refines hrun hquiet
  refine ⟨s, hs, h.registers.fds, h.asks_iff, fun _ _ _ _ _ => h.slotted.slot_unique,
    fun fd event hopen => ?_⟩
  obtain ⟨s', hs', -⟩ := @PollRefines.take m fd s a _ event h (if_neg (not_not_intro hopen))
  exact ⟨s', hs'⟩

/-- Two clients and a listener of the web server: one client is served, the other exits. -/
def threeDescriptors : List NetioOp :=
  [.fdOpen 3 .socket, .setselect 3 .ircd (fun _ => true) (some 70) (some 1),
    .fdOpen 4 .socket, .setselect 4 .httpd (fun e => e = .read) (some 80) none,
    .fdOpen 5 .socket, .setselect 5 .ircd (fun e => e = .read) (some 90) (some 2),
    .take 3 .read, .fdClose 5]

theorem pollRun_asks_three :
    ∃ s, run (pollStep 8) pollInit threeDescriptors = .ok s ∧
      s.PollAsks .pollfdList 3 .write ∧ ¬ s.PollAsks .pollfdList 3 .read ∧
      s.PollAsks .httpfdList 4 .read ∧ ¬ s.PollAsks .pollfdList 5 .read := by
  obtain ⟨s, hs, -, hasks, -⟩ := @pollRun_asks 8 _ threeDescriptors rfl (by decide)
  refine ⟨s, hs, (hasks ..).mpr ⟨_, rfl, rfl⟩, fun h => ?_, (hasks ..).mpr ⟨_, rfl, rfl⟩,
    fun h => ?_⟩
  · obtain ⟨r, hr, -⟩ := (hasks ..).mp h
    cases hr
  · obtain ⟨r, hr, -⟩ := (hasks ..).mp h
    cases hr

end NetioSt

end TrIrcd
