import TrIrcd.Proofs.PollInterest

/-!
# Slots of `s_bsd_poll.c` that are another's

In two places `poll_update_pollfds` works on a slot that is not the descriptor's.
`fd_close` names no list, which stands for the array of the server: a descriptor of the web
server that waits has its number of a slot from the other array, and it is taken from
whoever has the slot of that number here (`fdClose_takes_other`). And `comm_select` goes on
with a descriptor that its read handler has closed, if `poll` has reported an error or a
hang-up; the entry has been cleared then, which makes it that of slot 0
(`serveBoth_takes_other`). Who loses a slot so keeps its handler, and is not waited for.
-/

namespace TrIrcd

namespace NetioSt

variable {m fd g : Nat} {s s' : NetioSt PollLists} {a : Interest}

/-! ## Taking back an event -/

/-- The slot asks for nothing else: it is given back. -/
theorem pollUpdate_last {list : FdList} {event : SelEvent} {i : Nat}
    (hi : ((s.sel fd).commIndex <|> (s.waits list.pollName).findslot m) = some i)
    (hlast : ∀ event', event' ≠ event → (s.slot list.pollName i).events event' = false) :
    pollUpdatePollfds m fd list event false s =
      .ok (s.write fd { s.sel fd with commIndex := none, list := .none } list.pollName i
        PollfdList.free ((s.waits list.pollName).giveBack i).maxindex) := by
  have hnone : ∀ event', Function.update (s.slot list.pollName i).events event false event' =
      false := by
    intro event'
    rw [Function.update_apply]
    split
    · rfl
    · next hne => exact hlast event' hne
  simp only [pollUpdatePollfds, hi]
  rw [if_neg Bool.false_ne_true, if_neg, PollfdList.giveBack_eq]
  · rfl
  · rintro (hread | hwrite)
    · exact absurd (hnone .read) (Bool.eq_false_iff.not.mpr (not_not_intro hread))
    · exact absurd (hnone .write) (Bool.eq_false_iff.not.mpr (not_not_intro hwrite))

/-- The slot still asks for another event. -/
theorem pollUpdate_other {list : FdList} {event event' : SelEvent} {i : Nat}
    (hi : ((s.sel fd).commIndex <|> (s.waits list.pollName).findslot m) = some i)
    (hne : event' ≠ event) (hother : (s.slot list.pollName i).events event' = true) :
    pollUpdatePollfds m fd list event false s =
      .ok (s.write fd { s.sel fd with commIndex := some i } list.pollName i
        { s.slot list.pollName i with
          events := Function.update (s.slot list.pollName i).events event false }
        (s.waits list.pollName).maxindex) := by
  have hsome : Function.update (s.slot list.pollName i).events event false event' = true := by
    rw [Function.update_of_ne hne, hother]
  simp only [pollUpdatePollfds, hi]
  rw [if_neg Bool.false_ne_true, if_pos]
  · rfl
  · cases event' with
    | read => exact .inl hsome
    | write => exact .inr hsome

/-- Slots of the array of the server lose descriptors and events. -/
structure Weaker (fd : Nat) (s s' : NetioSt PollLists) : Prop where
  fds : s'.fds = s.fds
  other : ∀ fd', fd' ≠ fd → s'.sel fd' = s.sel fd'
  httpd : ∀ j, s'.slot .httpfdList j = s.slot .httpfdList j
  fewer : ∀ j g, (s'.slot .pollfdList j).fd = some g → (s.slot .pollfdList j).fd = some g ∧
    ∀ event, (s'.slot .pollfdList j).events event = true →
      (s.slot .pollfdList j).events event = true
  free : (∀ j, (s.slot .pollfdList j).fd = none →
      ∀ event, (s.slot .pollfdList j).events event = false) →
    ∀ j, (s'.slot .pollfdList j).fd = none →
      ∀ event, (s'.slot .pollfdList j).events event = false

theorem Weaker.trans {s'' : NetioSt PollLists} (h : Weaker fd s s') (h' : Weaker fd s' s'') :
    Weaker fd s s'' where
  fds := h'.fds.trans h.fds
  other fd' hne := (h'.other fd' hne).trans (h.other fd' hne)
  httpd j := (h'.httpd j).trans (h.httpd j)
  fewer j g hg := by
    obtain ⟨hg', hev'⟩ := h'.fewer j g hg
    obtain ⟨hg'', hev''⟩ := h.fewer j g hg'
    exact ⟨hg'', fun event hevent => hev'' event (hev' event hevent)⟩
  free hfree := h'.free (h.free hfree)

theorem setSel_weaker (s : NetioSt PollLists) (fd : Nat) (F : FdeSel) :
    Weaker fd s (s.setSel fd F) :=
  ⟨rfl, fun _ hne => setSel_of_ne s F hne, fun _ => rfl, fun _ _ hg => ⟨hg, fun _ h => h⟩,
    fun hfree => hfree⟩

/-- A slot of the array of the server is given less to ask for, or is given back. -/
theorem write_weaker {F : FdeSel} {i : Nat} {p : Pollfd} {maxindex : Int}
    (hp : p = PollfdList.free ∨ p.fd = (s.slot .pollfdList i).fd ∧
      ∀ event, p.events event = true → (s.slot .pollfdList i).events event = true) :
    Weaker fd s (s.write fd F .pollfdList i p maxindex) := by
  refine ⟨rfl, fun fd' hne => setSel_of_ne s F hne, fun j => ?_, fun j g hg => ?_,
    fun hold j hj event => ?_⟩
  · rw [write_slot, if_neg]
    rintro ⟨hn, -⟩
    cases hn
  · rw [write_slot] at hg ⊢
    by_cases hj : PollName.pollfdList = .pollfdList ∧ j = i
    · rw [if_pos hj] at hg ⊢
      rw [hj.2]
      rcases hp with rfl | ⟨hsame, hless⟩
      · cases hg
      · exact ⟨hsame.symm.trans hg, hless⟩
    · rw [if_neg hj] at hg ⊢
      exact ⟨hg, fun _ h => h⟩
  · rw [write_slot] at hj ⊢
    by_cases hij : PollName.pollfdList = .pollfdList ∧ j = i
    · rw [if_pos hij] at hj ⊢
      rcases hp with rfl | ⟨hsame, hless⟩
      · rfl
      · have hnone := hold i (hsame.symm.trans hj) event
        exact Bool.eq_false_iff.mpr fun htrue => Bool.eq_false_iff.mp hnone (hless event htrue)
    · rw [if_neg hij] at hj ⊢
      exact hold j hj event

/-- Whosever the slot is, it does not ask for the event afterwards. -/
theorem pollUpdate_weaker {i : Nat} (event : SelEvent)
    (hi : ((s.sel fd).commIndex <|> (s.waits .pollfdList).findslot m) = some i) :
    ∃ s', pollUpdatePollfds m fd .none event false s = .ok s' ∧ Weaker fd s s' ∧
      (s'.slot .pollfdList i).events event = false ∧
      ((s'.sel fd).commIndex = some i ∨
        (s'.sel fd).commIndex = none ∧ (s'.slot .pollfdList i).fd = none) := by
  by_cases hlast : ∀ event', event' ≠ event → (s.slot .pollfdList i).events event' = false
  · refine ⟨_, pollUpdate_last hi hlast, write_weaker (.inl rfl), ?_, .inr ⟨?_, ?_⟩⟩
    · rw [write_slot, if_pos ⟨rfl, rfl⟩]
      rfl
    · rw [write]
      exact congrArg FdeSel.commIndex (setSel_self ..)
    · rw [write_slot, if_pos ⟨rfl, rfl⟩]
      rfl
  · have hex : ∃ event', event' ≠ event ∧ (s.slot .pollfdList i).events event' = true := by
      by_contra hno
      refine hlast fun event' hne => ?_
      exact Bool.eq_false_iff.mpr fun htrue => hno ⟨event', hne, htrue⟩
    obtain ⟨event', hne, hother⟩ := hex
    refine ⟨_, pollUpdate_other hi hne hother, write_weaker (.inr ⟨rfl, fun ev hev => ?_⟩), ?_,
      .inl ?_⟩
    · have hold : Function.update (s.slot .pollfdList i).events event false ev = true := hev
      rw [Function.update_apply] at hold
      split at hold
      · cases hold
      · exact hold
    · rw [write_slot, if_pos ⟨rfl, rfl⟩]
      exact Function.update_self ..
    · rw [write]
      exact congrArg FdeSel.commIndex (setSel_self ..)

/-- An event is taken back from the slot. -/
theorem setHandler_weaker {i : Nat} (event : SelEvent)
    (hi : ((s.sel fd).commIndex <|> (s.waits .pollfdList).findslot m) = some i) :
    ∃ s', s.setHandler (pollUpdatePollfds m) fd .none event none none = .ok s' ∧ Weaker fd s s' ∧
      (s'.slot .pollfdList i).events event = false ∧
      ((s'.sel fd).commIndex = some i ∨
        (s'.sel fd).commIndex = none ∧ (s'.slot .pollfdList i).fd = none) := by
  let F : FdeSel := { s.sel fd with
    handler := Function.update (s.sel fd).handler event none
    data := Function.update (s.sel fd).data event none }
  have hself : (s.setSel fd F).sel fd = F := setSel_self ..
  obtain ⟨s', hs', hweak, hgone, hindex⟩ := @pollUpdate_weaker m fd (s.setSel fd F) i event
    (by rw [hself]; exact hi)
  exact ⟨s', hs', (setSel_weaker s fd F).trans hweak, hgone, hindex⟩

/-- `fd_close` empties the slot of its number in the array of the server. -/
theorem commSetselect_weaker {i : Nat} (hopen : s.isOpen fd = true) (him : i < m)
    (hcomm : (s.sel fd).commIndex = some i)
    (hfree : ∀ j, (s.slot .pollfdList j).fd = none →
      ∀ event, (s.slot .pollfdList j).events event = false) :
    ∃ s', s.commSetselect (pollUpdatePollfds m) fd .none (fun _ => true) none none = .ok s' ∧
      Weaker fd s s' ∧ ∀ event, (s'.slot .pollfdList i).events event = false := by
  let F : FdeSel := { s.sel fd with list := .none }
  have hself : (s.setSel fd F).sel fd = F := setSel_self ..
  have hstart := setSel_weaker s fd F
  obtain ⟨k, hk, hkweak, hread, hindex⟩ := @setHandler_weaker m fd (s.setSel fd F) i .read
    (by rw [hself]; exact congrArg (· <|> _) hcomm)
  have hsecond : ∃ j s', k.setHandler (pollUpdatePollfds m) fd .none .write none none = .ok s' ∧
      Weaker fd k s' ∧ (s'.slot .pollfdList j).events .write = false ∧
      (j = i ∨ (k.slot .pollfdList i).fd = none) := by
    rcases hindex with hsome | ⟨hnone, hslot⟩
    · obtain ⟨s', hs', hweak, hwrite, -⟩ := @setHandler_weaker m fd k i .write (by rw [hsome]; rfl)
      exact ⟨i, s', hs', hweak, hwrite, .inl rfl⟩
    · obtain ⟨j, hj⟩ := PollfdList.findslot_isSome him hslot
      obtain ⟨s', hs', hweak, hwrite, -⟩ := @setHandler_weaker m fd k j .write
        (by rw [hnone]; exact hj)
      exact ⟨j, s', hs', hweak, hwrite, .inr hslot⟩
  obtain ⟨j, s', hs', hweak, hwrite, hor⟩ := hsecond
  have hall := (hstart.trans hkweak).trans hweak
  refine ⟨s', ?_, hall, fun event => ?_⟩
  · rw [NetioSt.commSetselect, if_neg (not_not_intro hopen)]
    exact (congrArg (Except.bind · _) hk).trans hs'
  · cases hslot : (s'.slot .pollfdList i).fd with
    | none => exact hall.free hfree i hslot event
    | some g =>
        obtain ⟨hg, hless⟩ := hweak.fewer i g hslot
        cases event with
        | read =>
            exact Bool.eq_false_iff.mpr fun htrue => Bool.eq_false_iff.mp hread (hless .read htrue)
        | write =>
            rcases hor with rfl | hnone
            · exact hwrite
            · rw [hnone] at hg
              cases hg

/-- A descriptor of the web server is closed while it waits. Whoever has the slot of the same
number in the array of the server keeps its handlers, but the system is not asked for it any
more, and goes on being asked for the descriptor that is closed. -/
theorem fdClose_takes_other {i : Nat} (h : PollRefines m s a)
    (htype : (s.fds.fds.fdTable fd).type ≠ .file) (hfd : (s.slot .httpfdList i).fd = some fd)
    (hg : (s.slot .pollfdList i).fd = some g) :
    ∃ s', s.fdClose (pollUpdatePollfds m) m fd = .ok s' ∧ s'.isOpen g = true ∧
      s'.sel g = s.sel g ∧ (∃ event, ((s'.sel g).handler event).isSome = true) ∧
      (∀ name event, ¬ s'.PollAsks name g event) ∧ s'.isOpen fd = false ∧
      ∃ event, (s'.slot .httpfdList i).fd = some fd ∧
        (s'.slot .httpfdList i).events event = true := by
  obtain ⟨hopen, hcomm, hlist⟩ := h.slotted.used _ i fd hfd
  obtain ⟨hgopen, hgcomm, hglist⟩ := h.slotted.used _ i g hg
  have hne : g ≠ fd := by
    rintro rfl
    rw [hlist] at hglist
    cases hglist
  obtain ⟨him, -⟩ := h.slotted.held g i hgopen hgcomm
  obtain ⟨k, hk, hweak, hgone⟩ := commSetselect_weaker hopen him hcomm
    fun j hj event => by rw [h.slotted.free .pollfdList j hj]; rfl
  obtain ⟨fds, hclose, -⟩ := h.registers.exact.fdClose hopen htype
  have hopens : ∀ fd', (k.cleared fd fds).isOpen fd' = true ↔ fd' ≠ fd ∧ s.isOpen fd' = true :=
    cleared_isOpen hclose
  have hsel : (k.cleared fd fds).sel g = s.sel g := by
    rw [cleared_sel_of_ne k fds hne, hweak.other g hne]
  refine ⟨_, fdClose_eq hk hweak.fds hclose, (hopens g).mpr ⟨hne, hgopen⟩, hsel, ?_, ?_,
    Bool.eq_false_iff.mpr fun hop => ((hopens fd).mp hop).1 rfl, ?_⟩
  · obtain ⟨event, harmed⟩ := h.slotted.exists_armed hgopen hgcomm
    rw [h.armed g hgopen] at harmed
    exact ⟨event, hsel ▸ harmed⟩
  · rintro name event ⟨j, -, hj, hevent⟩
    have hj' : (k.slot name j).fd = some g := hj
    have hevent' : (k.slot name j).events event = true := hevent
    cases name with
    | pollfdList =>
        obtain ⟨hold, -⟩ := hweak.fewer j g hj'
        obtain ⟨-, rfl⟩ := h.slotted.slot_unique hold hg
        rw [hgone event] at hevent'
        cases hevent'
    | httpfdList =>
        rw [hweak.httpd] at hj'
        obtain ⟨hname, -⟩ := h.slotted.slot_unique hj' hg
        cases hname
  · obtain ⟨event, hevent⟩ := h.slotted.busy _ i fd hfd
    have hsame : (k.cleared fd fds).slot .httpfdList i = s.slot .httpfdList i := hweak.httpd i
    rw [hsame]
    exact ⟨event, hfd, hevent⟩

/-- The listener of the web server is closed, and a client is not read from any more. -/
theorem fdClose_takes_other_listener :
    ∃ s s', Lib.run (pollStep 8) pollInit (threeDescriptors.take 4) = .ok s ∧
      s.PollAsks .pollfdList 3 .read ∧ s.fdClose (pollUpdatePollfds 8) 8 4 = .ok s' ∧
      ((s'.sel 3).handler .read).isSome = true ∧ ∀ name event, ¬ s'.PollAsks name 3 event := by
  obtain ⟨s, hs, h⟩ := @pollRun_refines 8 _ (threeDescriptors.take 4) rfl (by decide)
  have hslots : (s.fds.fds.fdTable 4).type = .socket ∧ (s.slot .httpfdList 0).fd = some 4 ∧
      (s.slot .pollfdList 0).fd = some 3 ∧ ((s.sel 3).handler .read).isSome = true := by
    cases hs
    exact ⟨rfl, rfl, rfl, rfl⟩
  obtain ⟨htype, hfd, hg, hhandler⟩ := hslots
  obtain ⟨s', hs', -, hsel, -, hgone, -⟩ := fdClose_takes_other h (by rw [htype]; decide) hfd hg
  exact ⟨s, s', hs, (h.asks_iff ..).mpr ⟨_, rfl, rfl⟩, hs', by rw [hsel, hhandler], hgone⟩

/-! ## A read handler that closes its descriptor -/

/-- What `fd_close` leaves is the number of slot 0, and `comm_select` takes an event back from
there. -/
theorem take_closed (h : PollRefines m s a) (hsel : s.sel fd = FdeSel.zero)
    (hg : (s.slot .pollfdList 0).fd = some g) (event : SelEvent) :
    ∃ s', s.take (pollUpdatePollfds m) fd event = .ok (s', none) ∧ Weaker fd s s' ∧
      ∀ name, ¬ s'.PollAsks name g event := by
  let F : FdeSel := { s.sel fd with handler := Function.update (s.sel fd).handler event none }
  have hself : (s.setSel fd F).sel fd = F := setSel_self ..
  have hcomm : F.commIndex = some 0 := congrArg FdeSel.commIndex hsel
  have hlist : (s.sel fd).list = .none := congrArg FdeSel.list hsel
  obtain ⟨s', hs', hweak, hgone, -⟩ := @pollUpdate_weaker m fd (s.setSel fd F) 0 event
    (by rw [hself, hcomm]; rfl)
  have hall := (setSel_weaker s fd F).trans hweak
  have hupdate : pollUpdatePollfds m fd (s.sel fd).list event false (s.setSel fd F) = .ok s' := by
    rw [hlist]
    exact hs'
  refine ⟨s', ?_, hall, ?_⟩
  · show Except.map _ (pollUpdatePollfds m fd (s.sel fd).list event false (s.setSel fd F)) = _
    rw [hupdate, hsel]
    rfl
  · rintro name ⟨j, -, hj, hevent⟩
    cases name with
    | pollfdList =>
        obtain ⟨hold, -⟩ := hall.fewer j g hj
        obtain ⟨-, rfl⟩ := h.slotted.slot_unique hold hg
        rw [hgone] at hevent
        cases hevent
    | httpfdList =>
        rw [hall.httpd] at hj
        obtain ⟨hname, -⟩ := h.slotted.slot_unique hj hg
        cases hname

end NetioSt

namespace SelectSt

open NetioSt

variable {σ : Type} {m fd g : Nat} {a : Interest} {act : NetHandlers PollLists σ}
  {s : SelectSt PollLists σ} {r : Registration} {ready : SelEvent → Bool}

/-- The read handler closes its descriptor, and `poll` has reported what stands for both
events. Whoever has slot 0 and waits to write goes on waiting, but the system is not asked
for it any more. -/
theorem serveBoth_takes_other (h : PollRefines m s.net a) (hread : ready .read = true)
    (hwrite : ready .write = true) (hr : a.waits fd .read = some r)
    (honly : a.OnlyOn fd .ircd) (htype : (s.net.fds.fds.fdTable fd).type ≠ .file)
    (hact : ∀ net rest, (act ⟨fd, .read, r.hdl, r.data⟩ net rest).1 = [.fdClose fd])
    (hg : (s.net.slot .pollfdList 0).fd = some g) (hne : g ≠ fd)
    (hwaits : ((s.net.sel g).handler .write).isSome = true) :
    ∃ s', s.serveBoth (pollUpdatePollfds m) act m fd ready = .ok s' ∧
      s'.net.isOpen g = true ∧ ((s'.net.sel g).handler .write).isSome = true ∧
      ∀ name, ¬ s'.net.PollAsks name g .write := by
  have hopen : s.net.isOpen fd = true := by
    by_contra hclosed
    rw [h.registers.waits, h.registers.closed fd hclosed] at hr
    cases hr
  obtain ⟨hgopen, hgcomm, hglist⟩ := h.slotted.used _ 0 g hg
  have htake : a.step m (.take fd .read) = .ok { a with
      waits := Function.update a.waits fd (Function.update (a.waits fd) .read none) } :=
    if_neg (not_not_intro ((h.registers.isOpen fd).trans hopen))
  obtain ⟨k, hk, hkrefines, hkframe⟩ := h.take htake
  have hkfds : k.fds = s.net.fds := hkrefines.registers.fds.trans h.registers.fds.symm
  have hkonly : Interest.OnlyOn { a with
      waits := Function.update a.waits fd (Function.update (a.waits fd) .read none) } fd .ircd := by
    intro event
    show (Function.update a.waits fd _ fd event).all _ = true
    rw [Function.update_self, Function.update_apply]
    split
    · rfl
    · exact honly event
  obtain ⟨fds, hclose, -⟩ := h.registers.exact.fdClose hopen htype
  obtain ⟨k', hk', -, hkrefines', hkzero, hkframe'⟩ := hkrefines.fdClose hkonly (hkfds ▸ hclose)
  have hgsel : k'.sel g = s.net.sel g := by
    rw [hkframe'.other g hne, hkframe.other g hne]
  have hgopen' : k'.isOpen g = true := by
    have hfds' : k'.fds = fds := hkrefines'.registers.fds
    rw [isOpen, hfds']
    exact (FdCount.fdClose_isOpen hclose g).mpr ⟨hne, hgopen⟩
  have hslot : (k'.slot .pollfdList 0).fd = some g := by
    have hheld := hkrefines'.slotted.held g 0 hgopen' (by rw [hgsel, hgcomm])
    rw [hgsel, hglist] at hheld
    exact hheld.2
  obtain ⟨s', hs', hweak, hgone⟩ := take_closed hkrefines' hkzero hslot .write
  refine ⟨⟨s', (act ⟨fd, .read, r.hdl, r.data⟩ k s.rest).2,
    s.calls ++ [⟨fd, .read, r.hdl, r.data⟩],
    s.done ++ [.take fd .read] ++ [.fdClose fd] ++ [.take fd .write]⟩, ?_, ?_, ?_, hgone⟩
  · have hcall : SelectSt.call (pollUpdatePollfds m) act m ⟨fd, .read, r.hdl, r.data⟩
        ⟨k, s.rest, s.calls, s.done ++ [.take fd .read]⟩ =
        .ok ⟨k', (act ⟨fd, .read, r.hdl, r.data⟩ k s.rest).2,
          s.calls ++ [⟨fd, .read, r.hdl, r.data⟩],
          s.done ++ [.take fd .read] ++ [.fdClose fd]⟩ := by
      have hrun : Lib.run (NetioSt.step (pollUpdatePollfds m) m) k [.fdClose fd] = .ok k' :=
        Lib.run_singleton.trans hk'
      simp only [SelectSt.call, hact, hrun, Except.map]
    simp only [serveBoth, serve, hread, hwrite, hk, hr, hcall, hs', Except.bind, Option.map_some,
      if_true]
  · rw [isOpen, hweak.fds]
    exact hgopen'
  · rw [hweak.other g hne, hgsel]
    exact hwaits

/-- The reader of 5 closes it when its peer hangs up, and 3 is not asked for any more. -/
theorem serveBoth_takes_other_writer :
    ∃ (s : NetioSt PollLists) (s' : SelectSt PollLists Unit),
      Lib.run (pollStep 8) pollInit (threeDescriptors.take 7) = .ok s ∧
      s.PollAsks .pollfdList 3 .write ∧
      serveBoth (pollUpdatePollfds 8) (fun _ _ rest => ([.fdClose 5], rest)) 8 5 (fun _ => true)
        ⟨s, (), [], []⟩ = .ok s' ∧
      ((s'.net.sel 3).handler .write).isSome = true ∧
      ∀ name, ¬ s'.net.PollAsks name 3 .write := by
  obtain ⟨s, hs, h⟩ := @pollRun_refines 8 _ (threeDescriptors.take 7) rfl (by decide)
  have hslots : (s.fds.fds.fdTable 5).type = .socket ∧ (s.slot .pollfdList 0).fd = some 3 ∧
      ((s.sel 3).handler .write).isSome = true := by
    cases hs
    exact ⟨rfl, rfl, rfl⟩
  obtain ⟨htype, hg, hwaits⟩ := hslots
  obtain ⟨s', hs', -, hhandler, hgone⟩ :=
    @serveBoth_takes_other Unit 8 5 3 _ (fun _ _ rest => ([.fdClose 5], rest)) ⟨s, (), [], []⟩
      ⟨.ircd, 90, some 2⟩ (fun _ => true) h rfl rfl rfl (by decide) (by rw [htype]; decide)
      (fun _ _ => rfl) hg (by decide) hwaits
  exact ⟨s, s', hs, (h.asks_iff ..).mpr ⟨_, rfl, rfl⟩, hs', hhandler, hgone⟩

end SelectSt

end TrIrcd
