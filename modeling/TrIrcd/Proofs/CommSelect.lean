import TrIrcd.Proofs.PollInterest
import TrIrcd.Proofs.SelectInterest

/-!
# One round of `comm_select`

While the loop goes through the array, the handlers change it: slots become free, are taken
by others, and `maxindex` goes up and down. What a slot has been reported for is lost when
it is given back, so a handler is called only for what `poll` has reported; and who is left
alone until its turn comes has its slot still, at or before `maxindex`, so nobody who was
reported is passed over (`pollCommSelect_serves`). A handler that reads must not close its
descriptor if the loop goes on with it, to write (`WellBehaved`).
-/

namespace TrIrcd

open TrIrcd.Lib

namespace NetioSt

variable {m fd : Nat} {s s' : NetioSt PollLists} {a a' : Interest}

/-- The entry and the slot of a descriptor are what they were. -/
structure Kept (fd : Nat) (s s' : NetioSt PollLists) : Prop where
  sel : s'.sel fd = s.sel fd
  slot : ∀ name j, (s.slot name j).fd = some fd → s'.slot name j = s.slot name j

theorem Kept.refl (fd : Nat) (s : NetioSt PollLists) : Kept fd s s := ⟨rfl, fun _ _ _ => rfl⟩

theorem Kept.trans {s'' : NetioSt PollLists} (h : Kept fd s s') (h' : Kept fd s' s'') :
    Kept fd s s'' where
  sel := h'.sel.trans h.sel
  slot name j hj := by
    have hkeep := h.slot name j hj
    rw [h'.slot name j (hkeep ▸ hj), hkeep]

theorem Frame.kept (h : Frame fd s s') {fd' : Nat} (hne : fd' ≠ fd) : Kept fd' s s' :=
  ⟨h.other fd' hne, fun name j hj => h.keeps name j fd' hne hj⟩

/-- Who is kept waits for what it waited for. -/
theorem Kept.waits (h : Kept fd s s') (hs : PollRefines m s a) (hs' : PollRefines m s' a')
    (event : SelEvent) : a'.waits fd event = a.waits fd event := by
  rw [hs'.registers.waits, hs.registers.waits, h.sel]

/-- Every report is one of before, on the same descriptor. -/
def Reported (s s' : NetioSt PollLists) : Prop :=
  ∀ name j fd event, (s'.slot name j).fd = some fd → (s'.slot name j).revents event = true →
    (s.slot name j).fd = some fd ∧ (s.slot name j).revents event = true

theorem Reported.trans {s'' : NetioSt PollLists} (h : Reported s s') (h' : Reported s' s'') :
    Reported s s'' := by
  intro name j fd event hj hev
  obtain ⟨hj', hev'⟩ := h' name j fd event hj hev
  exact h name j fd event hj' hev'

theorem PollRefines.run (ops : List NetioOp) {s : NetioSt PollLists} {a a' : Interest}
    (h : PollRefines m s a) (hrun : run (Interest.step m) a ops = .ok a')
    (hquiet : Meets (Interest.step m) Interest.QuietClose a ops) :
    ∃ s', run (pollStep m) s ops = .ok s' ∧ PollRefines m s' a' ∧ Reported s s' ∧
      ∀ fd, (∀ op ∈ ops, op.fd ≠ fd) → Kept fd s s' := by
  induction ops generalizing s a with
  | nil =>
      cases hrun
      exact ⟨s, rfl, h, fun _ _ _ _ hj hev => ⟨hj, hev⟩, fun fd _ => .refl fd s⟩
  | cons o os ih =>
      obtain ⟨k, hk, hrest⟩ := run_cons_ok.mp hrun
      obtain ⟨l, hl, hlrefines, hframe⟩ := h.step hquiet.1 hk
      obtain ⟨s', hs', hrefines, hreported, hkept⟩ := ih hlrefines hrest (hquiet.2 k hk)
      refine ⟨s', run_cons_ok.mpr ⟨l, hl, hs'⟩, hrefines, Reported.trans hframe.stale hreported,
        fun fd hfd => ?_⟩
      rw [List.forall_mem_cons] at hfd
      exact (hframe.kept hfd.1.symm).trans (hkept fd hfd.2)

end NetioSt

namespace SelectSt

open NetioSt

variable {σ : Type} {m fd : Nat} {a : Interest} {act : NetHandlers PollLists σ}
  {answer : Nat → SelEvent → Bool} {s : SelectSt PollLists σ}

/-- A handler does what `Interest.step` allows, closes nothing that waits on the list of the
web server, and leaves its descriptor open if `comm_select` goes on with it. -/
def WellBehaved (m : Nat) (act : NetHandlers PollLists σ) (answer : Nat → SelEvent → Bool) :
    Prop :=
  ∀ c net rest a, PollRefines m net a → net.isOpen c.fd = true →
    ∃ a', run (Interest.step m) a (act c net rest).1 = .ok a' ∧
      Meets (Interest.step m) Interest.QuietClose a (act c net rest).1 ∧
      (c.event = .read → answer c.fd .write = true → a'.isOpen c.fd = true)

/-- The other handlers do nothing to the descriptor. -/
def LeftAlone {β : Type} (act : NetHandlers β σ) (fd : Nat) (event : SelEvent) : Prop :=
  ∀ c net rest, (c.fd ≠ fd ∨ c.event ≠ event) → ∀ op ∈ (act c net rest).1, op.fd ≠ fd

/-- The call that a handler waits for. -/
def dueCall (a : Interest) (fd : Nat) (event : SelEvent) : Option SelCall :=
  (a.waits fd event).map fun r => ⟨fd, event, r.hdl, r.data⟩

/-- What the loop does for one event: the handler that waits is called, if there is one. -/
structure Served (m : Nat) (act : NetHandlers PollLists σ) (fd : Nat) (event : SelEvent)
    (a : Interest) (s s' : SelectSt PollLists σ) (a' : Interest) : Prop where
  refines : PollRefines m s'.net a'
  calls : s'.calls = s.calls ++ (dueCall a fd event).toList
  reported : Reported s.net s'.net
  kept : ∀ fd' event', fd' ≠ fd → LeftAlone act fd' event' → Kept fd' s.net s'.net
  waits : ∀ event', event' ≠ event → LeftAlone act fd event' →
    a'.waits fd event' = a.waits fd event'

theorem serve_served (hact : WellBehaved m act answer) (h : PollRefines m s.net a)
    (hopen : s.net.isOpen fd = true) (event : SelEvent) :
    ∃ s' a', s.serve (pollUpdatePollfds m) act m fd event = .ok s' ∧
      Served m act fd event a s s' a' ∧
      (event = .read → answer fd .write = true → s'.net.isOpen fd = true) := by
  have htake : a.step m (.take fd event) = .ok { a with
      waits := Function.update a.waits fd (Function.update (a.waits fd) event none) } :=
    if_neg (not_not_intro ((h.registers.isOpen fd).trans hopen))
  obtain ⟨k, hk, hkrefines, hframe⟩ := h.take htake
  have hkopen : k.isOpen fd = true := by
    have hkfds : k.fds = s.net.fds := hkrefines.registers.fds.trans h.registers.fds.symm
    rwa [isOpen, hkfds]
  have hkwaits : ∀ event', event' ≠ event → Interest.waits { a with
      waits := Function.update a.waits fd (Function.update (a.waits fd) event none) } fd event' =
      a.waits fd event' := by
    intro event' hne
    show Function.update a.waits fd _ fd event' = _
    rw [Function.update_self, Function.update_of_ne hne]
  cases hr : a.waits fd event with
  | none =>
      refine ⟨{ s with net := k, done := s.done ++ [.take fd event] }, _, ?_,
        ⟨hkrefines, ?_, hframe.stale, fun fd' _ hne _ => hframe.kept hne,
          fun event' hne _ => hkwaits event' hne⟩, fun _ _ => hkopen⟩
      · simp only [serve, hk, hr, Except.bind, Option.map_none]
      · rw [dueCall, hr]
        exact (List.append_nil _).symm
  | some r =>
      let c : SelCall := ⟨fd, event, r.hdl, r.data⟩
      obtain ⟨a', hrun, hquiet, hown⟩ := hact c k s.rest _ hkrefines hkopen
      obtain ⟨k', hk', hrefines, hreported, hkept⟩ := hkrefines.run _ hrun hquiet
      refine ⟨⟨k', (act c k s.rest).2, s.calls ++ [c],
        s.done ++ [.take fd event] ++ (act c k s.rest).1⟩, a', ?_,
        ⟨hrefines, ?_, Reported.trans hframe.stale hreported, fun fd' event' hne halone => ?_,
          fun event' hne halone => ?_⟩, fun hread hwrite => ?_⟩
      · simp only [serve, hk, hr, Except.bind, Option.map_some, SelectSt.call]
        exact congrArg (Except.map _) hk'
      · rw [dueCall, hr]
        rfl
      · exact (hframe.kept hne).trans (hkept fd' (halone c k s.rest (.inl hne.symm)))
      · have hleft := hkept fd (halone c k s.rest (.inr hne.symm))
        rw [hleft.waits hkrefines hrefines, hkwaits event' hne]
      · rw [← hrefines.registers.isOpen]
        exact hown hread hwrite

theorem mem_dueCall {event : SelEvent} {c : SelCall} (h : c ∈ (dueCall a fd event).toList) :
    c.fd = fd ∧ c.event = event := by
  rw [Option.mem_toList, dueCall, Option.map_eq_some_iff] at h
  obtain ⟨r, -, rfl⟩ := h
  exact ⟨rfl, rfl⟩

/-- What the loop does for a descriptor: the new calls are for it, and for what was
reported. -/
structure ServedBoth (m : Nat) (act : NetHandlers PollLists σ) (fd : Nat)
    (ready : SelEvent → Bool) (a : Interest) (s s' : SelectSt PollLists σ) (a' : Interest)
    (new : List SelCall) : Prop where
  refines : PollRefines m s'.net a'
  calls : s'.calls = s.calls ++ new
  mem : ∀ c ∈ new, c.fd = fd ∧ ready c.event = true
  due : ∀ event r, ready event = true → a.waits fd event = some r → LeftAlone act fd event →
    ⟨fd, event, r.hdl, r.data⟩ ∈ new
  reported : Reported s.net s'.net
  kept : ∀ fd' event', fd' ≠ fd → LeftAlone act fd' event' → Kept fd' s.net s'.net

theorem Served.both {s' : SelectSt PollLists σ} {a' : Interest} {event : SelEvent}
    {ready : SelEvent → Bool} (h : Served m act fd event a s s' a')
    (hready : ready event = true) (honly : ∀ event', ready event' = true → event' = event) :
    ServedBoth m act fd ready a s s' a' (dueCall a fd event).toList := by
  refine ⟨h.refines, h.calls, fun c hc => ?_, fun event' r hevent hr _ => ?_, h.reported,
    h.kept⟩
  · obtain ⟨hfd, hevent⟩ := mem_dueCall hc
    exact ⟨hfd, hevent ▸ hready⟩
  · obtain rfl := honly event' hevent
    rw [Option.mem_toList, dueCall, hr]
    rfl

theorem serveBoth_served {ready : SelEvent → Bool} (hact : WellBehaved m act answer)
    (h : PollRefines m s.net a) (hopen : s.net.isOpen fd = true)
    (hready : ∀ event, ready event = true → answer fd event = true) :
    ∃ s' a' new, s.serveBoth (pollUpdatePollfds m) act m fd ready = .ok s' ∧
      ServedBoth m act fd ready a s s' a' new := by
  cases hread : ready .read with
  | false =>
      cases hwrite : ready .write with
      | false =>
          refine ⟨s, a, [], ?_, h, (List.append_nil _).symm, fun _ hc => ?_,
            fun event r hevent => ?_, fun _ _ _ _ hj hev => ⟨hj, hev⟩,
            fun fd' _ _ _ => .refl fd' s.net⟩
          · rw [serveBoth, hread, hwrite]
            rfl
          · cases hc
          · cases event with
            | read => cases hread.symm.trans hevent
            | write => cases hwrite.symm.trans hevent
      | true =>
          obtain ⟨s', a', hs', hserved, -⟩ := serve_served hact h hopen .write
          refine ⟨s', a', _, ?_, hserved.both hwrite fun event' hevent' => ?_⟩
          · rw [serveBoth, hread, hwrite]
            exact hs'
          · cases event' with
            | read => cases hread.symm.trans hevent'
            | write => rfl
  | true =>
      obtain ⟨k, b, hk, hkserved, hkopen⟩ := serve_served hact h hopen .read
      cases hwrite : ready .write with
      | false =>
          refine ⟨k, b, _, ?_, hkserved.both hread fun event' hevent' => ?_⟩
          · rw [serveBoth, hread, hwrite]
            exact (congrArg (Except.bind · _) hk).trans rfl
          · cases event' with
            | read => rfl
            | write => cases hwrite.symm.trans hevent'
      | true =>
          obtain ⟨s', a', hs', hserved, -⟩ := serve_served hact hkserved.refines
            (hkopen rfl (hready .write hwrite)) .write
          refine ⟨s', a', (dueCall a fd .read).toList ++ (dueCall b fd .write).toList, ?_,
            hserved.refines, ?_, fun c hc => ?_, fun event r _ hr halone => ?_,
            hkserved.reported.trans hserved.reported, fun fd' event' hne halone =>
              (hkserved.kept fd' event' hne halone).trans (hserved.kept fd' event' hne halone)⟩
          · rw [serveBoth, hread, hwrite]
            exact (congrArg (Except.bind · _) hk).trans hs'
          · rw [hserved.calls, hkserved.calls, List.append_assoc]
          · rcases List.mem_append.mp hc with hc | hc
            · obtain ⟨hfd, hevent⟩ := mem_dueCall hc
              exact ⟨hfd, hevent ▸ hread⟩
            · obtain ⟨hfd, hevent⟩ := mem_dueCall hc
              exact ⟨hfd, hevent ▸ hwrite⟩
          · rw [List.mem_append, Option.mem_toList, Option.mem_toList]
            cases event with
            | read =>
                rw [dueCall, hr]
                exact .inl rfl
            | write =>
                have hsame := hkserved.waits .write (fun hno => by cases hno) halone
                refine .inr ?_
                rw [dueCall, hsame, hr]
                rfl

/-! ## The loop -/

theorem pollLoop_serves (hact : WellBehaved m act answer) (name : PollName) (n ci : Nat)
    {s : SelectSt PollLists σ} {a : Interest} (h : PollRefines m s.net a)
    (hfresh : ∀ j f event, (s.net.slot name j).fd = some f →
      (s.net.slot name j).revents event = true → answer f event = true) :
    ∃ s' a' new, s.pollLoop m act name n ci = .ok s' ∧ PollRefines m s'.net a' ∧
      s'.calls = s.calls ++ new ∧ (∀ c ∈ new, answer c.fd c.event = true) ∧
      ∀ fd event r i, ci ≤ i → i < ci + n → (s.net.slot name i).fd = some fd →
        (s.net.slot name i).revents event = true → a.waits fd event = some r →
        LeftAlone act fd event → ⟨fd, event, r.hdl, r.data⟩ ∈ new := by
  induction n generalizing s a ci with
  | zero =>
      refine ⟨s, a, [], rfl, h, (List.append_nil _).symm, fun _ hc => ?_,
        fun _ _ _ i hle hlt => ?_⟩
      · cases hc
      · omega
  | succ n ih =>
      rw [pollLoop]
      by_cases hci : (ci : Int) < (s.net.waits name).maxindex + 1
      · rw [if_pos hci]
        cases hslot : (s.net.slot name ci).fd with
        | none =>
            obtain ⟨s', a', new, hs', hrefines, hcalls, hmem, hdue⟩ := ih (ci + 1) h hfresh
            have hskip : s.pollSlot m act name ci = .ok s := by
              have hnone : ((s.net.waits name).pollfds ci).fd = none := hslot
              simp only [pollSlot, hnone]
            refine ⟨s', a', new, ?_, hrefines, hcalls, hmem,
              fun fd event r i hle hlt hi => ?_⟩
            · rw [hskip]
              exact hs'
            · have hne : i ≠ ci := by
                rintro rfl
                rw [hslot] at hi
                cases hi
              exact hdue fd event r i (by omega) (by omega) hi
        | some f =>
            obtain ⟨hopen, -⟩ := h.slotted.used name ci f hslot
            obtain ⟨k, b, new, hk, hserved⟩ := serveBoth_served hact h hopen
              fun event hev => hfresh ci f event hslot hev
            obtain ⟨s', a', new', hs', hrefines, hcalls, hmem, hdue⟩ := ih (ci + 1)
              hserved.refines fun j g event hj hev => by
                obtain ⟨hj', hev'⟩ := hserved.reported name j g event hj hev
                exact hfresh j g event hj' hev'
            have hstep : s.pollSlot m act name ci = .ok k := by
              have hsome : ((s.net.waits name).pollfds ci).fd = some f := hslot
              simp only [pollSlot, hsome]
              exact hk
            refine ⟨s', a', new ++ new', ?_, hrefines, ?_, fun c hc => ?_,
              fun fd event r i hle hlt hi hev hr halone => ?_⟩
            · rw [hstep]
              exact hs'
            · rw [hcalls, hserved.calls, List.append_assoc]
            · rcases List.mem_append.mp hc with hc | hc
              · obtain ⟨rfl, hev⟩ := hserved.mem c hc
                exact hfresh ci c.fd c.event hslot hev
              · exact hmem c hc
            · rw [List.mem_append]
              by_cases heq : i = ci
              · rw [heq] at hi hev
                obtain rfl : f = fd := Option.some.inj (hslot.symm.trans hi)
                exact .inl (hserved.due event r hev hr halone)
              · have hne : fd ≠ f := by
                  rintro rfl
                  exact heq (h.slotted.slot_unique hi hslot).2
                have hkept := hserved.kept fd event hne halone
                have hsame := hkept.slot name i hi
                refine .inr (hdue fd event r i (by omega) (by omega) ?_ ?_ ?_ halone)
                · rw [hsame, hi]
                · rw [hsame, hev]
                · rw [hkept.waits h hserved.refines, hr]
      · rw [if_neg hci]
        refine ⟨s, a, [], rfl, h, (List.append_nil _).symm, fun _ hc => ?_,
          fun fd event r i hle hlt hi => ?_⟩
        · cases hc
        · have htop := h.slotted.top name i (by rw [hi]; rfl)
          omega

/-! ## `comm_select` -/

/-- `poll` writes its answer into an array. -/
def answered (s : NetioSt PollLists) (name : PollName) (answer : Nat → SelEvent → Bool) :
    NetioSt PollLists :=
  { s with waits := Function.update s.waits name ((s.waits name).answered answer) }

theorem answered_slot {s : NetioSt PollLists} (h : s.Slotted m) (name name' : PollName) (j : Nat) :
    (answered s name answer).slot name' j =
      match (s.slot name' j).fd with
      | none => s.slot name' j
      | some fd =>
          if name' = name then { s.slot name' j with revents := answer fd }
          else s.slot name' j := by
  by_cases hname : name' = name
  · subst hname
    have hwaits : (answered s name' answer).waits name' = (s.waits name').answered answer :=
      Function.update_self ..
    rw [slot, hwaits, PollfdList.answered]
    cases hslot : (s.slot name' j).fd with
    | none =>
        have hnone : ((s.waits name').pollfds j).fd = none := hslot
        simp only [hnone]
        split
        · have hfree : (s.waits name').pollfds j = PollfdList.free := h.free name' j hslot
          rw [slot, hfree]
          rfl
        · rfl
    | some fd =>
        have hsome : ((s.waits name').pollfds j).fd = some fd := hslot
        have htop := h.top name' j (by rw [hslot]; rfl)
        simp only [hsome, if_true, hslot]
        exact if_pos (by omega)
  · have hwaits : (answered s name answer).waits name' = s.waits name' :=
      Function.update_of_ne hname ..
    have hsame : (answered s name answer).slot name' j = s.slot name' j :=
      congrArg (·.pollfds j) hwaits
    rw [hsame]
    cases hslot : (s.slot name' j).fd with
    | none => rfl
    | some fd => simp only [hname, if_false]

theorem answered_refines {s : NetioSt PollLists} (h : PollRefines m s a) (name : PollName) :
    PollRefines m (answered s name answer) a := by
  have hfd : ∀ name' j, ((answered s name answer).slot name' j).fd = (s.slot name' j).fd := by
    intro name' j
    rw [answered_slot h.slotted]
    cases hslot : (s.slot name' j).fd with
    | none => exact hslot
    | some fd =>
        by_cases hname : name' = name
        · subst hname
          simp [hslot]
        · simp [hname, hslot]
  have hevents : ∀ name' j, ((answered s name answer).slot name' j).events =
      (s.slot name' j).events := by
    intro name' j
    rw [answered_slot h.slotted]
    cases hslot : (s.slot name' j).fd with
    | none => rfl
    | some fd =>
        by_cases hname : name' = name
        · simp [hname]
        · simp [hname]
  have hmax : ∀ name', ((answered s name answer).waits name').maxindex =
      (s.waits name').maxindex := by
    intro name'
    by_cases hname : name' = name
    · show (Function.update s.waits name _ name').maxindex = _
      rw [hname, Function.update_self]
      rfl
    · exact congrArg PollfdList.maxindex (Function.update_of_ne hname ..)
  refine ⟨⟨h.registers.fds, h.registers.exact, h.registers.closed, h.registers.waits⟩,
    ⟨fun fd i hopen hi => ?_, fun name' i fd hi => ?_, fun name' i fd hi => ?_,
      fun name' i hi => ?_, fun name' i hi => ?_⟩, fun fd hopen event => ?_⟩
  · rw [hfd]
    exact h.slotted.held fd i hopen hi
  · rw [hfd] at hi
    exact h.slotted.used name' i fd hi
  · rw [hfd] at hi
    rw [hevents]
    exact h.slotted.busy name' i fd hi
  · rw [hfd] at hi
    rw [answered_slot h.slotted, hi]
    exact h.slotted.free name' i hi
  · rw [hfd] at hi
    rw [hmax]
    exact h.slotted.top name' i hi
  · show (answered s name answer).armed fd event = ((s.sel fd).handler event).isSome
    rw [← h.armed fd hopen event, armed, armed]
    simp only [hevents]
    rfl

/-- Where what the server has done so far is in order, and the handlers behave, no assertion
fails in a round of `comm_select` and all is in order after it. Handlers are called only for
what `poll` has reported; and every handler that waits on the list for what `poll` has reported
is called with its data, if the others leave its descriptor alone. -/
theorem pollCommSelect_serves (hact : WellBehaved m act answer) (h : PollRefines m s.net a)
    (name : PollName) :
    ∃ s' a' new, s.pollCommSelect m act name answer = .ok s' ∧ PollRefines m s'.net a' ∧
      s'.calls = s.calls ++ new ∧ (∀ c ∈ new, answer c.fd c.event = true) ∧
      ∀ fd event r, a.waits fd event = some r → r.list.pollName = name →
        answer fd event = true → LeftAlone act fd event →
        ⟨fd, event, r.hdl, r.data⟩ ∈ new := by
  have hstart := @answered_refines m a answer _ h name
  have hrevents : ∀ j f, (s.net.slot name j).fd = some f →
      (answered s.net name answer).slot name j =
        { s.net.slot name j with revents := answer f } := by
    intro j f hj
    rw [answered_slot h.slotted, hj]
    exact if_pos rfl
  have hfd : ∀ j f, ((answered s.net name answer).slot name j).fd = some f →
      (s.net.slot name j).fd = some f := by
    intro j f hj
    cases hslot : (s.net.slot name j).fd with
    | none =>
        rw [answered_slot h.slotted, hslot] at hj
        exact hslot.symm.trans hj
    | some g =>
        rw [hrevents j g hslot] at hj
        exact hslot.symm.trans hj
  obtain ⟨s', a', new, hs', hrefines, hcalls, hmem, hdue⟩ := @pollLoop_serves σ m act answer hact
    name m 0 { s with net := answered s.net name answer } a hstart
    (fun j f event hj hev => by
      have hold := hfd j f hj
      have hev' := hev
      rw [hrevents j f hold] at hev'
      exact hev')
  refine ⟨s', a', new, hs', hrefines, hcalls, hmem,
    fun fd event r hr hname hanswer halone => ?_⟩
  obtain ⟨i, -, hslot, -⟩ := (h.asks_iff name fd event).mpr ⟨r, hr, hname⟩
  obtain ⟨hopen, hcomm, -⟩ := h.slotted.used name i fd hslot
  obtain ⟨hi, -⟩ := h.slotted.held fd i hopen hcomm
  have hat := hrevents i fd hslot
  refine hdue fd event r i (Nat.zero_le i) (by omega) ?_ ?_ hr halone
  · exact (congrArg Pollfd.fd hat).trans hslot
  · exact (congrArg (fun p : Pollfd => p.revents event) hat).trans hanswer

/-! ## Handlers that close and open -/

/-- A socket that nobody waits for any more. -/
def Idle (net : NetioSt PollLists) (fd : Nat) : Prop :=
  (net.fds.fds.fdTable fd).type = .socket ∧ (net.sel fd).handler .read = none ∧
    (net.sel fd).handler .write = none

instance (net : NetioSt PollLists) (fd : Nat) : Decidable (Idle net fd) :=
  inferInstanceAs (Decidable (_ ∧ _))

/-- It may be closed. -/
theorem Idle.fdClose {net : NetioSt PollLists} (hidle : Idle net fd) (h : PollRefines m net a)
    (hopen : net.isOpen fd = true) :
    ∃ fds, a.step m (.fdClose fd) =
        .ok { fds := fds, waits := Function.update a.waits fd fun _ => none } ∧
      a.QuietClose (.fdClose fd) ∧ fds.Exact m ∧
      ∀ fd', (fds.fds.fdTable fd').isOpen = true ↔ fd' ≠ fd ∧ net.isOpen fd' = true := by
  have htype : (net.fds.fds.fdTable fd).type ≠ .file := by
    rw [hidle.1]
    decide
  obtain ⟨fds, hclose, hexact⟩ := h.registers.exact.fdClose hopen htype
  refine ⟨fds, ?_, fun event => ?_, hexact, FdCount.fdClose_isOpen hclose⟩
  · rw [Interest.step, ← h.registers.fds, hclose]
  · rw [h.registers.waits]
    cases event with
    | read =>
        rw [hidle.2.1]
        rfl
    | write =>
        rw [hidle.2.2]
        rfl

/-- A descriptor that is closed may be opened, to read. -/
theorem open_read (hexact : a.fds.Exact m) (hfd : fd < m) (hclosed : ¬ a.isOpen fd = true)
    (hnone : ∀ event, a.waits fd event = none) (hdl : Nat) :
    ∃ a', run (Interest.step m) a
        [.fdOpen fd .socket, .setselect fd .ircd (fun e => e = .read) (some hdl) none] = .ok a' ∧
      Meets (Interest.step m) Interest.QuietClose a
        [.fdOpen fd .socket, .setselect fd .ircd (fun e => e = .read) (some hdl) none] := by
  obtain ⟨fds, hopen, -⟩ := hexact.fdOpen_closed hfd hclosed .socket
  have hisOpen : Interest.isOpen
      { fds := fds, waits := Function.update a.waits fd fun _ => none } fd = true :=
    (FdCount.fdOpen_isOpen hopen hclosed fd).mpr (.inl rfl)
  have hfirst : a.step m (.fdOpen fd .socket) =
      .ok { fds := fds, waits := Function.update a.waits fd fun _ => none } := by
    rw [Interest.step, if_neg (not_not_intro hfd)]
    simp only [hopen]
  have honly : Interest.OnlyOn
      { fds := fds, waits := Function.update a.waits fd fun _ => none } fd .ircd := by
    intro event
    show ((Function.update a.waits fd fun _ => none) fd event).all _ = true
    rw [Function.update_self]
    rfl
  have hsecond : ∃ a', Interest.step m
      { fds := fds, waits := Function.update a.waits fd fun _ => none }
      (.setselect fd .ircd (fun e => e = .read) (some hdl) none) = .ok a' := by
    rw [Interest.step, if_neg (not_not_intro hisOpen), if_neg (by decide),
      if_neg (not_not_intro honly)]
    exact ⟨_, rfl⟩
  obtain ⟨a', hsecond⟩ := hsecond
  refine ⟨a', run_cons_ok.mpr ⟨_, hfirst, run_singleton.trans hsecond⟩, fun event => ?_,
    fun _ _ => ⟨trivial, fun _ _ => trivial⟩⟩
  rw [hnone]
  rfl

/-- The writer of 3 closes it, and opens 6 to read; the reader of 5 closes that. -/
def closeAndOpen : NetHandlers PollLists Unit := fun c net rest =>
  (if c.fd = 3 ∧ c.event = .write ∧ Idle net 3 ∧ ¬ net.isOpen 6 = true then
      [.fdClose 3, .fdOpen 6 .socket, .setselect 6 .ircd (fun e => e = .read) (some 60) none]
    else if c.fd = 5 ∧ c.event = .read ∧ Idle net 5 then [.fdClose 5]
    else [], rest)

/-- `poll` reports the writer of 3 and the reader of 5. -/
def threeAndFive (fd : Nat) (event : SelEvent) : Bool :=
  (fd = 3 ∧ event = .write) ∨ (fd = 5 ∧ event = .read)

theorem closeAndOpen_wellBehaved : WellBehaved 8 closeAndOpen threeAndFive := by
  intro c net rest a h hopen
  rw [closeAndOpen]
  simp only
  split
  · next hc =>
      obtain ⟨hthree, hwrite, hidle, hsix⟩ := hc
      rw [hthree] at hopen
      obtain ⟨fds, hclose, hquiet, hexact, hopens⟩ := hidle.fdClose h hopen
      have hnone : ∀ event, Function.update a.waits 3 (fun _ => none) 6 event = none := by
        intro event
        rw [Function.update_of_ne (by decide), h.registers.waits, h.registers.closed 6 hsix]
        rfl
      obtain ⟨a', hrun, hmeets⟩ := @open_read 8 6
        { fds := fds, waits := Function.update a.waits 3 fun _ => none } hexact (by decide)
        (fun h6 => hsix ((hopens 6).mp h6).2) hnone 60
      refine ⟨a', run_cons_ok.mpr ⟨_, hclose, hrun⟩, ⟨hquiet, fun k hk => ?_⟩, fun hread => ?_⟩
      · obtain rfl := Except.ok.inj (hclose.symm.trans hk)
        exact hmeets
      · rw [hwrite] at hread
        cases hread
  · split
    · next hc =>
        obtain ⟨hfive, -, hidle⟩ := hc
        rw [hfive] at hopen
        obtain ⟨fds, hclose, hquiet, -⟩ := hidle.fdClose h hopen
        refine ⟨_, run_singleton.trans hclose, ⟨hquiet, fun _ _ => trivial⟩, fun _ hanswer => ?_⟩
        rw [hfive] at hanswer
        exact absurd hanswer (by decide)
    · refine ⟨a, rfl, trivial, fun _ _ => ?_⟩
      rw [h.registers.isOpen, hopen]

theorem closeAndOpen_fd (c : SelCall) (net : NetioSt PollLists) (rest : Unit) :
    ∀ op ∈ (closeAndOpen c net rest).1,
      c.fd = 3 ∧ c.event = .write ∧ op.fd ≠ 5 ∨ c.fd = 5 ∧ c.event = .read ∧ op.fd = 5 := by
  intro op hop
  rw [closeAndOpen] at hop
  simp only at hop
  split at hop
  · next hc =>
      refine .inl ⟨hc.1, hc.2.1, ?_⟩
      simp only [List.mem_cons, List.not_mem_nil, or_false] at hop
      rcases hop with rfl | rfl | rfl
      · exact (by decide : 3 ≠ 5)
      · exact (by decide : 6 ≠ 5)
      · exact (by decide : 6 ≠ 5)
  · split at hop
    · next hc =>
        obtain rfl := List.mem_singleton.mp hop
        exact .inr ⟨hc.1, hc.2.1, rfl⟩
    · cases hop

/-- Both are called, though 6 takes the slot that 3 has left. -/
theorem pollCommSelect_serves_three :
    ∃ (s : NetioSt PollLists) (s' : SelectSt PollLists Unit),
      run (pollStep 8) pollInit (threeDescriptors.take 7) = .ok s ∧
      pollCommSelect 8 closeAndOpen .pollfdList threeAndFive ⟨s, (), [], []⟩ = .ok s' ∧
      s'.done.map NetioOp.fd = [3, 3, 6, 6, 5, 5] ∧
      ⟨3, .write, 70, some 1⟩ ∈ s'.calls ∧ ⟨5, .read, 90, some 2⟩ ∈ s'.calls := by
  obtain ⟨s, hs, h⟩ := @pollRun_refines 8 _ (threeDescriptors.take 7) rfl (by decide)
  obtain ⟨s', -, new, hs', -, hcalls, -, hdue⟩ := @pollCommSelect_serves Unit 8 _ closeAndOpen
    threeAndFive ⟨s, (), [], []⟩ closeAndOpen_wellBehaved h .pollfdList
  have hdone : (((run (pollStep 8) pollInit (threeDescriptors.take 7)).bind fun net =>
      pollCommSelect 8 closeAndOpen .pollfdList threeAndFive ⟨net, (), [], []⟩).toOption.map
        fun s => s.done.map NetioOp.fd) = some [3, 3, 6, 6, 5, 5] := by decide +kernel
  rw [hs] at hdone
  simp only [Except.bind, hs'] at hdone
  refine ⟨s, s', hs, hs', Option.some.inj hdone, ?_, ?_⟩
  · rw [hcalls]
    refine hdue 3 .write ⟨.ircd, 70, some 1⟩ rfl rfl rfl fun c net rest hne op hop => ?_
    rcases closeAndOpen_fd c net rest op hop with ⟨hfd, hev, -⟩ | ⟨-, -, hfd⟩
    · exact absurd hev (hne.resolve_left (not_not_intro hfd))
    · rw [hfd]
      decide
  · rw [hcalls]
    refine hdue 5 .read ⟨.ircd, 90, some 2⟩ rfl rfl rfl fun c net rest hne op hop => ?_
    rcases closeAndOpen_fd c net rest op hop with ⟨-, -, hfd⟩ | ⟨hfd, hev, -⟩
    · exact hfd
    · exact absurd hev (hne.resolve_left (not_not_intro hfd))

end SelectSt

/-!
## One round of `comm_select`, with `select`

The loop goes by the copies of the sets, which the handlers do not change, and up to
`highest_fd`, which they do. A descriptor that has been closed meanwhile has no handler,
and nothing is taken back for it: here a read handler may close its descriptor. Who is left
alone stays open, so `highest_fd` does not fall below it (`selectCommSelect_serves`). A
descriptor that is closed and opened again in the same round finds the copies of before,
which is why a call is said to be for a bit that was set, and not for a handler that was
there then.
-/

namespace SelectSt

open NetioSt

variable {σ : Type} {m fd : Nat} {a : Interest} {act : NetHandlers SelectSets σ}
  {s : SelectSt SelectSets σ}

/-- A handler does what `Interest.step` allows. -/
def Allowed (m : Nat) (act : NetHandlers SelectSets σ) : Prop :=
  ∀ c net rest a, SelectRefines m net a → net.isOpen c.fd = true →
    ∃ a', run (Interest.step m) a (act c net rest).1 = .ok a'

/-- What the loop does for one event: the handler that waits is called, if there is one. -/
structure SetServed (m : Nat) (act : NetHandlers SelectSets σ) (fd : Nat) (event : SelEvent)
    (a : Interest) (s s' : SelectSt SelectSets σ) (a' : Interest) : Prop where
  refines : SelectRefines m s'.net a'
  calls : s'.calls = s.calls ++ (dueCall a fd event).toList
  waits : ∀ fd' event', (fd' ≠ fd ∨ event' ≠ event) → LeftAlone act fd' event' →
    a'.waits fd' event' = a.waits fd' event'

theorem serve_setServed (hact : Allowed m act) (h : SelectRefines m s.net a) (fd : Nat)
    (event : SelEvent) :
    ∃ s' a', s.serve selectUpdateSelectfds act m fd event = .ok s' ∧
      SetServed m act fd event a s s' a' := by
  by_cases hopen : s.net.isOpen fd = true
  · have htake : a.step m (.take fd event) = .ok { a with
        waits := Function.update a.waits fd (Function.update (a.waits fd) event none) } :=
      if_neg (not_not_intro ((h.registers.isOpen fd).trans hopen))
    obtain ⟨k, hk, hkrefines⟩ := h.take htake
    have hkopen : k.isOpen fd = true := by
      have hkfds : k.fds = s.net.fds := hkrefines.registers.fds.trans h.registers.fds.symm
      rwa [isOpen, hkfds]
    have hkwaits : ∀ fd' event', (fd' ≠ fd ∨ event' ≠ event) →
        Interest.waits { a with
          waits := Function.update a.waits fd (Function.update (a.waits fd) event none) } fd'
            event' = a.waits fd' event' := by
      intro fd' event' hne
      show Function.update a.waits fd _ fd' event' = _
      by_cases hfd : fd' = fd
      · rw [hfd, Function.update_self,
          Function.update_of_ne (hne.resolve_left (not_not_intro hfd))]
      · rw [Function.update_of_ne hfd]
    cases hr : a.waits fd event with
    | none =>
        refine ⟨{ s with net := k, done := s.done ++ [.take fd event] }, _, ?_,
          ⟨hkrefines, ?_, fun fd' event' hne _ => hkwaits fd' event' hne⟩⟩
        · simp only [serve, hk, hr, Except.bind, Option.map_none]
        · rw [dueCall, hr]
          exact (List.append_nil _).symm
    | some r =>
        let c : SelCall := ⟨fd, event, r.hdl, r.data⟩
        obtain ⟨a', hrun⟩ := hact c k s.rest _ hkrefines hkopen
        obtain ⟨k', hk', hrefines⟩ := hkrefines.run _ hrun
        refine ⟨⟨k', (act c k s.rest).2, s.calls ++ [c],
          s.done ++ [.take fd event] ++ (act c k s.rest).1⟩, a', ?_,
          ⟨hrefines, ?_, fun fd' event' hne halone => ?_⟩⟩
        · simp only [serve, hk, hr, Except.bind, Option.map_some, SelectSt.call]
          exact congrArg (Except.map _) hk'
        · rw [dueCall, hr]
          rfl
        · have hleft := Interest.run_waits _ hrun
            (halone c k s.rest (hne.imp Ne.symm Ne.symm))
          rw [hleft, hkwaits fd' event' hne]
  · obtain ⟨k, hk, hkrefines⟩ := h.take_closed hopen event
    refine ⟨{ s with net := k, done := s.done ++ [.take fd event] }, a, ?_,
      ⟨hkrefines, ?_, fun _ _ _ _ => rfl⟩⟩
    · simp only [serve, hk, Except.bind]
    · rw [dueCall, h.registers.waits, h.registers.closed fd hopen]
      exact (List.append_nil _).symm

/-- What the loop does for a descriptor. -/
structure SetServedBoth (m : Nat) (act : NetHandlers SelectSets σ) (fd : Nat)
    (ready : SelEvent → Bool) (a : Interest) (s s' : SelectSt SelectSets σ) (a' : Interest)
    (new : List SelCall) : Prop where
  refines : SelectRefines m s'.net a'
  calls : s'.calls = s.calls ++ new
  mem : ∀ c ∈ new, c.fd = fd ∧ ready c.event = true
  due : ∀ event r, ready event = true → a.waits fd event = some r → LeftAlone act fd event →
    ⟨fd, event, r.hdl, r.data⟩ ∈ new
  waits : ∀ fd' event', fd' ≠ fd → LeftAlone act fd' event' →
    a'.waits fd' event' = a.waits fd' event'

/-- One half of the body of the loop. -/
theorem half_setServed {ready : SelEvent → Bool} (hact : Allowed m act)
    (h : SelectRefines m s.net a) (fd : Nat) (event : SelEvent) :
    ∃ s' a' new, (if ready event then s.serve selectUpdateSelectfds act m fd event
        else .ok s) = .ok s' ∧ SelectRefines m s'.net a' ∧ s'.calls = s.calls ++ new ∧
      (∀ c ∈ new, c.fd = fd ∧ c.event = event ∧ ready c.event = true) ∧
      (∀ r, ready event = true → a.waits fd event = some r →
        ⟨fd, event, r.hdl, r.data⟩ ∈ new) ∧
      ∀ fd' event', (fd' ≠ fd ∨ event' ≠ event) → LeftAlone act fd' event' →
        a'.waits fd' event' = a.waits fd' event' := by
  cases hready : ready event with
  | false =>
      refine ⟨s, a, [], rfl, h, (List.append_nil _).symm, fun _ hc => ?_, fun _ hno => ?_,
        fun _ _ _ _ => rfl⟩
      · cases hc
      · cases hno
  | true =>
      obtain ⟨s', a', hs', hserved⟩ := serve_setServed hact h fd event
      refine ⟨s', a', _, hs', hserved.refines, hserved.calls, fun c hc => ?_, fun r _ hr => ?_,
        hserved.waits⟩
      · obtain ⟨hfd, hevent⟩ := mem_dueCall hc
        exact ⟨hfd, hevent, hevent ▸ hready⟩
      · rw [Option.mem_toList, dueCall, hr]
        rfl

theorem serveBoth_setServed (ready : SelEvent → Bool) (hact : Allowed m act)
    (h : SelectRefines m s.net a) (fd : Nat) :
    ∃ s' a' new, s.serveBoth selectUpdateSelectfds act m fd ready = .ok s' ∧
      SetServedBoth m act fd ready a s s' a' new := by
  obtain ⟨k, b, new, hk, hkrefines, hkcalls, hkmem, hkdue, hkwaits⟩ :=
    @half_setServed σ m a act s ready hact h fd .read
  obtain ⟨s', a', new', hs', hrefines, hcalls, hmem, hdue, hwaits⟩ :=
    @half_setServed σ m b act k ready hact hkrefines fd .write
  refine ⟨s', a', new ++ new', (congrArg (Except.bind · _) hk).trans hs', hrefines, ?_,
    fun c hc => ?_, fun event r hev hr halone => ?_, fun fd' event' hne halone => ?_⟩
  · rw [hcalls, hkcalls, List.append_assoc]
  · rcases List.mem_append.mp hc with hc | hc
    · exact ⟨(hkmem c hc).1, (hkmem c hc).2.2⟩
    · exact ⟨(hmem c hc).1, (hmem c hc).2.2⟩
  · rw [List.mem_append]
    cases event with
    | read => exact .inl (hkdue r hev hr)
    | write =>
        have hsame := hkwaits fd .write (.inr fun hno => by cases hno) halone
        exact .inr (hdue r hev (hsame.trans hr))
  · rw [hwaits fd' event' (.inl hne) halone, hkwaits fd' event' (.inl hne) halone]

/-! ## The loop -/

theorem selectLoop_serves {tmp : SelEvent → Nat → Bool} (hact : Allowed m act) (n lo : Nat)
    {s : SelectSt SelectSets σ} {a : Interest} (h : SelectRefines m s.net a) :
    ∃ s' a' new, s.selectLoop m act tmp n lo = .ok s' ∧ SelectRefines m s'.net a' ∧
      s'.calls = s.calls ++ new ∧ (∀ c ∈ new, tmp c.event c.fd = true) ∧
      ∀ fd event r, lo ≤ fd → fd < lo + n → tmp event fd = true → a.waits fd event = some r →
        LeftAlone act fd event → ⟨fd, event, r.hdl, r.data⟩ ∈ new := by
  induction n generalizing s a lo with
  | zero =>
      refine ⟨s, a, [], rfl, h, (List.append_nil _).symm, fun _ hc => ?_,
        fun fd _ _ hle hlt => ?_⟩
      · cases hc
      · omega
  | succ n ih =>
      rw [selectLoop]
      by_cases hlo : (lo : Int) < s.net.fds.fds.highestFd + 1
      · rw [if_pos hlo]
        obtain ⟨k, b, new, hk, hserved⟩ := serveBoth_setServed (fun event => tmp event lo) hact h lo
        obtain ⟨s', a', new', hs', hrefines, hcalls, hmem, hdue⟩ := ih (lo + 1) hserved.refines
        refine ⟨s', a', new ++ new', (congrArg (Except.bind · _) hk).trans hs', hrefines, ?_,
          fun c hc => ?_, fun fd event r hle hlt htmp hr halone => ?_⟩
        · rw [hcalls, hserved.calls, List.append_assoc]
        · rcases List.mem_append.mp hc with hc | hc
          · obtain ⟨hfd, hev⟩ := hserved.mem c hc
            rwa [← hfd] at hev
          · exact hmem c hc
        · rw [List.mem_append]
          by_cases heq : fd = lo
          · rw [heq] at htmp hr halone ⊢
            exact .inl (hserved.due event r htmp hr halone)
          · refine .inr (hdue fd event r (by omega) (by omega) htmp ?_ halone)
            rw [hserved.waits fd event heq halone, hr]
      · rw [if_neg hlo]
        refine ⟨s, a, [], rfl, h, (List.append_nil _).symm, fun _ hc => ?_,
          fun fd event r hle _ _ hr _ => ?_⟩
        · cases hc
        · have hopen : (s.net.fds.fds.fdTable fd).isOpen = true := by
            by_contra hclosed
            rw [h.registers.waits, h.registers.closed fd hclosed] at hr
            cases hr
          have hupper := h.registers.exact.highest.upper fd hopen
          omega

/-- Where what the server has done so far is in order, and the handlers do what is allowed, no
assertion fails in a round of `comm_select` and all is in order after it. Handlers are called
only for bits that were set and that `select` has left; and every handler that waits on the
list for what `select` has left is called with its data, if the others leave its descriptor
alone. -/
theorem selectCommSelect_serves {answer : Nat → SelEvent → Bool} (hact : Allowed m act)
    (h : SelectRefines m s.net a) (name : PollName) :
    ∃ s' a' new, s.selectCommSelect m act name answer = .ok s' ∧ SelectRefines m s'.net a' ∧
      s'.calls = s.calls ++ new ∧
      (∀ c ∈ new, s.net.waits name c.event c.fd = true ∧ answer c.fd c.event = true) ∧
      ∀ fd event r, a.waits fd event = some r → r.list.pollName = name →
        answer fd event = true → LeftAlone act fd event →
        ⟨fd, event, r.hdl, r.data⟩ ∈ new := by
  obtain ⟨s', a', new, hs', hrefines, hcalls, hmem, hdue⟩ := @selectLoop_serves σ m act
    (fun event fd => s.net.waits name event fd && answer fd event) hact m 0 s a h
  refine ⟨s', a', new, hs', hrefines, hcalls, fun c hc => ?_,
    fun fd event r hr hname hanswer halone => ?_⟩
  · exact Bool.and_eq_true_iff.mp (hmem c hc)
  · have hbit := (h.sets name event fd).mpr ⟨r, hr, hname⟩
    have hopen : s.net.isOpen fd = true := by
      by_contra hclosed
      rw [h.registers.waits, h.registers.closed fd hclosed] at hr
      cases hr
    have hfd := h.registers.exact.bound fd hopen
    refine hdue fd event r (Nat.zero_le fd) (by omega) ?_ hr halone
    exact Bool.and_eq_true_iff.mpr ⟨hbit, hanswer⟩

/-- The reader of 5 closes it, and is called all the same. -/
theorem selectCommSelect_serves_closing :
    ∃ (act : NetHandlers SelectSets Unit) (s : NetioSt SelectSets) (s' : SelectSt SelectSets Unit),
      run (selectStep 8) selectInit (threeDescriptors.take 7) = .ok s ∧
      (act ⟨5, .read, 90, some 2⟩ s ()).1.map NetioOp.fd = [5] ∧
      selectCommSelect 8 act .pollfdList (fun _ _ => true) ⟨s, (), [], []⟩ = .ok s' ∧
      ⟨5, .read, 90, some 2⟩ ∈ s'.calls ∧ ⟨3, .write, 70, some 1⟩ ∈ s'.calls := by
  let act : NetHandlers SelectSets Unit := fun c net rest =>
    (if c.fd = 5 ∧ c.event = .read ∧ (net.fds.fds.fdTable 5).type = .socket then [.fdClose 5]
      else [], rest)
  have hact : Allowed 8 act := by
    intro c net rest a h hopen
    by_cases hc : c.fd = 5 ∧ c.event = .read ∧ (net.fds.fds.fdTable 5).type = .socket
    · have htype : (net.fds.fds.fdTable 5).type ≠ .file := by
        rw [hc.2.2]
        decide
      obtain ⟨fds, hclose, -⟩ := h.registers.exact.fdClose (hc.1 ▸ hopen) htype
      refine ⟨⟨fds, Function.update a.waits 5 fun _ => none⟩, ?_⟩
      rw [show (act c net rest).1 = [.fdClose 5] from if_pos hc, run_singleton, Interest.step,
        ← h.registers.fds, hclose]
    · exact ⟨a, by rw [show (act c net rest).1 = [] from if_neg hc]; rfl⟩
  obtain ⟨s, hs, h⟩ := @selectRun_refines 8 _ (threeDescriptors.take 7) rfl
  obtain ⟨s', -, new, hs', -, hcalls, -, hdue⟩ :=
    @selectCommSelect_serves Unit 8 _ act ⟨s, (), [], []⟩ (fun _ _ => true) hact h .pollfdList
  have hothers : ∀ fd event, fd = 5 ∧ event = .read ∨ fd ≠ 5 → LeftAlone act fd event := by
    intro fd event hor c net rest hne op hop
    have hmem : op ∈ if c.fd = 5 ∧ c.event = .read ∧ (net.fds.fds.fdTable 5).type = .socket
        then [NetioOp.fdClose 5] else [] := hop
    split at hmem
    · next hc =>
        obtain rfl := List.mem_singleton.mp hmem
        rintro rfl
        rcases hor with ⟨-, rfl⟩ | h5
        · exact hne.elim (fun hno => hno hc.1) fun hno => hno hc.2.1
        · exact h5 rfl
    · cases hmem
  refine ⟨act, s, s', hs, ?_, hs', ?_, ?_⟩
  · cases hs
    rfl
  · rw [hcalls]
    exact hdue 5 .read ⟨.ircd, 90, some 2⟩ rfl rfl rfl (hothers 5 .read (.inl ⟨rfl, rfl⟩))
  · rw [hcalls]
    exact hdue 3 .write ⟨.ircd, 70, some 1⟩ rfl rfl rfl (hothers 3 .write (.inr (by decide)))

end SelectSt

end TrIrcd
