import Mathlib.Data.Finset.Card
import TrIrcd.Proofs.NetInterest

/-!
# The slots of `s_bsd_poll.c`

A descriptor has a slot in one of the two arrays as long as it waits for something, and
`comm_index` says which (`Slotted`). `poll_update_pollfds` works on one slot, and that is
the descriptor's own or a free one (`Slotted.place`). There is a free one: the slots in
use are those of other open descriptors, and of these there are fewer than
`MAXCONNECTIONS`. The array is chosen by the list that the caller names, so the caller
has to name that of the slot.
-/

namespace TrIrcd

open TrIrcd.Lib

/-- Fewer than `m` are left to fill `m` places, if each fills one at most. -/
theorem exists_place {m x : Nat} {f : Nat → Option Nat} (hx : x < m)
    (hf : ∀ i y, f i = some y → y < m ∧ y ≠ x)
    (hinj : ∀ i j y, f i = some y → f j = some y → i = j) : ∃ i < m, f i = none := by
  by_contra hnone
  have hsome : ∀ i < m, ∃ y, f i = some y := by
    intro i hi
    cases hfi : f i with
    | none => exact absurd ⟨i, hi, hfi⟩ hnone
    | some y => exact ⟨y, rfl⟩
  have hcard : ((Finset.range m).erase x).card < (Finset.range m).card :=
    Finset.card_erase_lt_of_mem (Finset.mem_range.mpr hx)
  have hmaps : ∀ i ∈ Finset.range m, (f i).getD 0 ∈ (Finset.range m).erase x := by
    intro i hi
    obtain ⟨y, hy⟩ := hsome i (Finset.mem_range.mp hi)
    rw [hy, Option.getD_some, Finset.mem_erase, Finset.mem_range]
    exact ⟨(hf i y hy).2, (hf i y hy).1⟩
  obtain ⟨i, hi, j, hj, hne, heq⟩ := Finset.exists_ne_map_eq_of_card_lt_of_maps_to hcard hmaps
  obtain ⟨y, hy⟩ := hsome i (Finset.mem_range.mp hi)
  obtain ⟨z, hz⟩ := hsome j (Finset.mem_range.mp hj)
  rw [hy, hz, Option.getD_some, Option.getD_some] at heq
  exact hne (hinj i j y hy (heq ▸ hz))

namespace PollfdList

variable {l : PollfdList} {i j n m : Nat}

theorem le_lastUsed (hj : j < n) (hused : (l.pollfds j).fd.isSome = true) :
    (j : Int) ≤ l.lastUsed n := by
  induction n with
  | zero => cases hj
  | succ n ih =>
      rw [lastUsed]
      split
      · omega
      · next hfree =>
          have hne : j ≠ n := by
            intro heq
            rw [heq] at hused
            exact hfree hused
          exact ih (by omega)

/-- What the loop of `poll_findslot` finds is free. -/
theorem findslot_free (h : l.findslot m = some i) : i < m ∧ (l.pollfds i).fd = none := by
  have hmem := List.mem_of_find?_eq_some h
  have hfree := List.find?_some h
  exact ⟨List.mem_range.mp hmem, Option.isNone_iff_eq_none.mp hfree⟩

theorem giveBack_eq (l : PollfdList) (i : Nat) : l.giveBack i =
    { pollfds := Function.update l.pollfds i free
      maxindex := if (i : Int) = l.maxindex then lastUsed (l.setSlot i free) (i + 1)
        else l.maxindex } := by
  rw [giveBack]
  by_cases hi : (i : Int) = l.maxindex
  · rw [if_pos hi]
    exact if_pos hi
  · rw [if_neg hi]
    exact if_neg hi

/-- The slots that are left are not behind the new `maxindex`. -/
theorem le_giveBack_maxindex (hj : j ≠ i) (hused : (l.pollfds j).fd.isSome = true)
    (htop : (j : Int) ≤ l.maxindex) : (j : Int) ≤ (l.giveBack i).maxindex := by
  rw [giveBack_eq]
  split
  · have hsame : ((l.setSlot i free).pollfds j).fd.isSome = true := by
      rwa [show (l.setSlot i free).pollfds j = l.pollfds j from Function.update_of_ne hj ..]
    exact le_lastUsed (by omega) hsame
  · exact htop

theorem findslot_isSome (hi : i < m) (hfree : (l.pollfds i).fd = none) :
    ∃ j, l.findslot m = some j := by
  cases hfind : l.findslot m with
  | some j => exact ⟨j, rfl⟩
  | none =>
      have hused := List.find?_eq_none.mp hfind i (List.mem_range.mpr hi)
      rw [hfree] at hused
      exact absurd rfl hused

end PollfdList

namespace NetioSt

variable {m fd : Nat} {s : NetioSt PollLists}

/-- A slot of one of the arrays. -/
def slot (s : NetioSt PollLists) (name : PollName) (i : Nat) : Pollfd := (s.waits name).pollfds i

/-- The slot of an open descriptor asks for the event. -/
def armed (s : NetioSt PollLists) (fd : Nat) (event : SelEvent) : Bool :=
  match (s.sel fd).commIndex with
  | none => false
  | some i => (s.slot (s.sel fd).list.pollName i).events event

/-- The slots in use and the open descriptors that have one know each other. -/
structure Slotted (m : Nat) (s : NetioSt PollLists) : Prop where
  held : ∀ fd i, s.isOpen fd = true → (s.sel fd).commIndex = some i →
    i < m ∧ (s.slot (s.sel fd).list.pollName i).fd = some fd
  used : ∀ name i fd, (s.slot name i).fd = some fd →
    s.isOpen fd = true ∧ (s.sel fd).commIndex = some i ∧ (s.sel fd).list.pollName = name
  busy : ∀ name i fd, (s.slot name i).fd = some fd → ∃ event, (s.slot name i).events event = true
  free : ∀ name i, (s.slot name i).fd = none → s.slot name i = PollfdList.free
  top : ∀ name i, (s.slot name i).fd.isSome = true → (i : Int) ≤ (s.waits name).maxindex

theorem pollInit_slotted (m : Nat) : pollInit.Slotted m where
  held _ _ h := nomatch h
  used _ _ _ h := nomatch h
  busy _ _ _ h := nomatch h
  free _ _ _ := rfl
  top _ _ h := nomatch h

/-- The slot that `poll_update_pollfds` works on is nobody else's, and the descriptor has
no other. -/
structure Place (m : Nat) (s : NetioSt PollLists) (fd : Nat) (name : PollName) (i : Nat) :
    Prop where
  bound : i < m
  mine : ∀ fd', (s.slot name i).fd = some fd' → fd' = fd
  only : ∀ name' j, (s.slot name' j).fd = some fd → name' = name ∧ j = i
  events : ∀ event, (s.slot name i).events event = s.armed fd event

/-- The assertion of `poll_findslot` holds. -/
theorem Slotted.place (h : s.Slotted m) (hbound : ∀ fd, s.isOpen fd = true → fd < m)
    (hopen : s.isOpen fd = true) {name : PollName}
    (hname : ∀ i, (s.sel fd).commIndex = some i → (s.sel fd).list.pollName = name) :
    ∃ i, ((s.sel fd).commIndex <|> (s.waits name).findslot m) = some i ∧
      s.Place m fd name i := by
  cases hindex : (s.sel fd).commIndex with
  | some i =>
      have hn := hname i hindex
      obtain ⟨hi, hslot⟩ := h.held fd i hopen hindex
      rw [hn] at hslot
      refine ⟨i, rfl, hi, fun fd' hfd' => ?_, fun name' j hj => ?_, fun event => ?_⟩
      · exact Option.some.inj (hfd'.symm.trans hslot)
      · obtain ⟨-, hcomm, hlist⟩ := h.used name' j fd hj
        exact ⟨hlist.symm.trans hn, Option.some.inj (hcomm.symm.trans hindex)⟩
      · simp only [armed, hindex, hn]
  | none =>
      have hexists : ∃ i < m, (s.slot name i).fd = none := by
        refine exists_place (hbound fd hopen) (fun i y hy => ?_) fun i j y hi hj => ?_
        · obtain ⟨hyopen, hcomm, -⟩ := h.used name i y hy
          refine ⟨hbound y hyopen, ?_⟩
          rintro rfl
          rw [hindex] at hcomm
          cases hcomm
        · have hcommi := (h.used name i y hi).2.1
          have hcommj := (h.used name j y hj).2.1
          exact Option.some.inj (hcommi.symm.trans hcommj)
      obtain ⟨k, hk, hfree⟩ := hexists
      obtain ⟨i, hi⟩ := PollfdList.findslot_isSome hk hfree
      obtain ⟨him, hifree⟩ := PollfdList.findslot_free hi
      refine ⟨i, hi, him, fun fd' hfd' => ?_, fun name' j hj => ?_, fun event => ?_⟩
      · have hnone : (s.slot name i).fd = none := hifree
        rw [hnone] at hfd'
        cases hfd'
      · have hcomm := (h.used name' j fd hj).2.1
        rw [hindex] at hcomm
        cases hcomm
      · rw [h.free name i hifree]
        simp only [armed, hindex]
        rfl

/-! ## One slot is written -/

/-- The entry of a descriptor and a slot of an array are written. -/
def write (s : NetioSt PollLists) (fd : Nat) (F : FdeSel) (name : PollName) (i : Nat) (p : Pollfd)
    (maxindex : Int) : NetioSt PollLists :=
  { s.setSel fd F with
    waits := Function.update s.waits name
      { pollfds := Function.update (s.waits name).pollfds i p, maxindex := maxindex } }

variable {F : FdeSel} {name : PollName} {i : Nat} {p : Pollfd} {maxindex : Int}

theorem write_slot (name' : PollName) (j : Nat) :
    (s.write fd F name i p maxindex).slot name' j =
      if name' = name ∧ j = i then p else s.slot name' j := by
  rw [slot, write]
  by_cases hn : name' = name
  · subst hn
    by_cases hj : j = i
    · simp [hj]
    · simp [hj, slot]
  · simp [hn, slot]

theorem write_maxindex (name' : PollName) :
    ((s.write fd F name i p maxindex).waits name').maxindex =
      if name' = name then maxindex else (s.waits name').maxindex := by
  rw [write]
  by_cases hn : name' = name
  · subst hn
    simp
  · simp [hn]

/-- What is written into the slot is about the descriptor, or the slot is given back. -/
inductive Written (fd : Nat) (name : PollName) (i : Nat) (F : FdeSel) (p : Pollfd) : Prop
  | kept (hp : p.fd = some fd) (hF : F.commIndex = some i) (hlist : F.list.pollName = name)
      (hbusy : ∃ event, p.events event = true)
  | givenBack (hp : p = PollfdList.free) (hF : F.commIndex = none)

theorem Slotted.write (h : s.Slotted m) (hopen : s.isOpen fd = true) (hplace : s.Place m fd name i)
    (hw : Written fd name i F p)
    (htop : ∀ j, (Function.update (s.waits name).pollfds i p j).fd.isSome = true →
      (j : Int) ≤ maxindex) : (s.write fd F name i p maxindex).Slotted m := by
  have hself : (s.write fd F name i p maxindex).sel fd = F := setSel_self ..
  have hother : ∀ fd', fd' ≠ fd → (s.write fd F name i p maxindex).sel fd' = s.sel fd' :=
    fun fd' hne => setSel_of_ne s F hne
  have hpfd : ∀ fd', p.fd = some fd' → fd' = fd := by
    intro fd' hfd'
    cases hw with
    | kept hp => exact Option.some.inj (hfd'.symm.trans hp)
    | givenBack hp =>
        rw [hp] at hfd'
        cases hfd'
  refine ⟨fun fd' j hopen' hcomm => ?_, fun name' j fd' hfd' => ?_, fun name' j fd' hfd' => ?_,
    fun name' j hnone => ?_, fun name' j hsome => ?_⟩
  · by_cases hne : fd' = fd
    · subst hne
      rw [hself] at hcomm ⊢
      cases hw with
      | kept hp hF hlist =>
          obtain rfl : i = j := Option.some.inj (hF.symm.trans hcomm)
          rw [write_slot, if_pos ⟨hlist, rfl⟩]
          exact ⟨hplace.bound, hp⟩
      | givenBack hp hF =>
          rw [hF] at hcomm
          cases hcomm
    · rw [hother fd' hne] at hcomm ⊢
      obtain ⟨hj, hslot⟩ := h.held fd' j hopen' hcomm
      refine ⟨hj, ?_⟩
      rw [write_slot, if_neg, hslot]
      rintro ⟨hn, rfl⟩
      rw [hn] at hslot
      exact hne (hplace.mine fd' hslot)
  · rw [write_slot] at hfd'
    split at hfd'
    · next hat =>
        obtain rfl := hpfd fd' hfd'
        rw [hself, hat.1, hat.2]
        cases hw with
        | kept hp hF hlist => exact ⟨hopen, hF, hlist⟩
        | givenBack hp =>
            rw [hp] at hfd'
            cases hfd'
    · next hat =>
        have hne : fd' ≠ fd := by
          rintro rfl
          exact hat (hplace.only name' j hfd')
        rw [hother fd' hne]
        exact h.used name' j fd' hfd'
  · rw [write_slot] at hfd' ⊢
    split at hfd'
    · next hat =>
        rw [if_pos hat]
        cases hw with
        | kept hp hF hlist hbusy => exact hbusy
        | givenBack hp =>
            rw [hp] at hfd'
            cases hfd'
    · next hat =>
        rw [if_neg hat]
        exact h.busy name' j fd' hfd'
  · rw [write_slot] at hnone ⊢
    split at hnone
    · next hat =>
        rw [if_pos hat]
        cases hw with
        | kept hp =>
            rw [hp] at hnone
            cases hnone
        | givenBack hp => exact hp
    · next hat =>
        rw [if_neg hat]
        exact h.free name' j hnone
  · rw [write_slot] at hsome
    rw [write_maxindex]
    by_cases hn : name' = name
    · rw [if_pos hn]
      refine htop j ?_
      by_cases hj : j = i
      · rw [if_pos ⟨hn, hj⟩] at hsome
        rwa [hj, Function.update_self]
      · rw [if_neg fun hat => hj hat.2, hn] at hsome
        rwa [Function.update_of_ne hj]
    · rw [if_neg hn]
      rw [if_neg fun hat => hn hat.1] at hsome
      exact h.top name' j hsome

/-! ## What stays -/

/-- The entries and slots of other descriptors stay, and what `poll` has reported in a slot is
about the descriptor that had the slot then. -/
structure Frame (fd : Nat) (s s' : NetioSt PollLists) : Prop where
  other : ∀ fd', fd' ≠ fd → s'.sel fd' = s.sel fd'
  keeps : ∀ name j fd', fd' ≠ fd → (s.slot name j).fd = some fd' →
    s'.slot name j = s.slot name j
  stale : ∀ name j fd' event, (s'.slot name j).fd = some fd' →
    (s'.slot name j).revents event = true →
      (s.slot name j).fd = some fd' ∧ (s.slot name j).revents event = true

theorem Frame.trans {s' s'' : NetioSt PollLists} (h : Frame fd s s') (h' : Frame fd s' s'') :
    Frame fd s s'' where
  other fd' hne := (h'.other fd' hne).trans (h.other fd' hne)
  keeps name j fd' hne hj := by
    have hkeep := h.keeps name j fd' hne hj
    rw [h'.keeps name j fd' hne (hkeep ▸ hj), hkeep]
  stale name j fd' event hj hev := by
    obtain ⟨hj', hev'⟩ := h'.stale name j fd' event hj hev
    exact h.stale name j fd' event hj' hev'

theorem setSel_frame (s : NetioSt PollLists) (fd : Nat) (F : FdeSel) : Frame fd s (s.setSel fd F) :=
  ⟨fun _ hne => setSel_of_ne s F hne, fun _ _ _ _ _ => rfl, fun _ _ _ _ hj hev => ⟨hj, hev⟩⟩

theorem armed_of_none (hcomm : (s.sel fd).commIndex = none) (event : SelEvent) :
    s.armed fd event = false := by
  simp only [armed, hcomm]

theorem armed_of_some {i : Nat} (hcomm : (s.sel fd).commIndex = some i) (event : SelEvent) :
    s.armed fd event = (s.slot (s.sel fd).list.pollName i).events event := by
  simp only [armed, hcomm]

/-- What the other descriptors ask for stays. -/
theorem Slotted.frame_armed {s' : NetioSt PollLists} (h : s.Slotted m) (hframe : Frame fd s s')
    {fd' : Nat} (hne : fd' ≠ fd) (hopen' : s.isOpen fd' = true) (event : SelEvent) :
    s'.armed fd' event = s.armed fd' event := by
  have hsel := hframe.other fd' hne
  cases hcomm : (s.sel fd').commIndex with
  | none => rw [armed_of_none hcomm, armed_of_none (by rw [hsel, hcomm])]
  | some j =>
      obtain ⟨-, hslot⟩ := h.held fd' j hopen' hcomm
      rw [armed_of_some hcomm, armed_of_some (i := j) (by rw [hsel, hcomm]), hsel,
        hframe.keeps _ j fd' hne hslot]

/-- A slot that is written keeps what was reported in it, or is given back. -/
theorem Slotted.write_frame (h : s.Slotted m) (hplace : s.Place m fd name i)
    (hp : p = PollfdList.free ∨ p.fd = some fd ∧ p.revents = (s.slot name i).revents) :
    Frame fd s (s.write fd F name i p maxindex) := by
  refine ⟨fun fd' hne => setSel_of_ne s F hne, fun name' j fd' hne hj => ?_,
    fun name' j fd' event hj hev => ?_⟩
  · rw [write_slot, if_neg]
    rintro ⟨rfl, rfl⟩
    exact hne (hplace.mine fd' hj)
  · rw [write_slot] at hj hev
    by_cases hat : name' = name ∧ j = i
    · rw [if_pos hat] at hj hev
      rw [hat.1, hat.2]
      rcases hp with rfl | ⟨hfd, hrevents⟩
      · cases hj
      · obtain rfl : fd = fd' := Option.some.inj (hfd.symm.trans hj)
        rw [hrevents] at hev
        refine ⟨?_, hev⟩
        cases hslot : (s.slot name i).fd with
        | none =>
            rw [h.free name i hslot] at hev
            cases hev
        | some fd' => rw [hplace.mine fd' hslot]
    · rw [if_neg hat] at hj hev
      exact ⟨hj, hev⟩

/-! ## `poll_update_pollfds` -/

/-- What `poll_update_pollfds` does for an open descriptor. -/
structure Updated (fd : Nat) (list : FdList) (event : SelEvent) (handler : Bool)
    (s s' : NetioSt PollLists) : Prop where
  fds : s'.fds = s.fds
  frame : Frame fd s s'
  handlers : (s'.sel fd).handler = (s.sel fd).handler
  data : (s'.sel fd).data = (s.sel fd).data
  armed : ∀ event', s'.armed fd event' = if event' = event then handler else s.armed fd event'
  onList : ∀ event', s'.armed fd event' = true →
    (s'.sel fd).list = if handler then list else (s.sel fd).list

theorem Place.update_events (hplace : s.Place m fd name i) (event : SelEvent) (b : Bool)
    (event' : SelEvent) : Function.update (s.slot name i).events event b event' =
      if event' = event then b else s.armed fd event' := by
  rw [Function.update_apply, hplace.events]

/-- Who still asks for something has a slot. -/
theorem exists_comm {events : SelEvent → Bool} {event : SelEvent}
    (hevents : ∀ event', events event' = if event' = event then false else s.armed fd event')
    (hbusy : ∃ event', events event' = true) : ∃ i, (s.sel fd).commIndex = some i := by
  obtain ⟨event', harmed⟩ := hbusy
  rw [hevents] at harmed
  split at harmed
  · cases harmed
  · cases hcomm : (s.sel fd).commIndex with
    | none =>
        rw [armed_of_none hcomm] at harmed
        cases harmed
    | some k => exact ⟨k, rfl⟩

/-- The slot asks for the events of `p`. -/
theorem Slotted.write_kept (h : s.Slotted m) (hopen : s.isOpen fd = true)
    (hplace : s.Place m fd name i) {events : SelEvent → Bool} {list l : FdList}
    {event : SelEvent} {handler : Bool}
    (hevents : ∀ event', events event' = if event' = event then handler else s.armed fd event')
    (hbusy : ∃ event', events event' = true) (hlist : list.pollName = name)
    (htop : (i : Int) ≤ maxindex) (hmax : (s.waits name).maxindex ≤ maxindex)
    (hF : F.handler = (s.sel fd).handler) (hdata : F.data = (s.sel fd).data)
    (hcomm : F.commIndex = some i) (honList : F.list = list)
    (hl : list = if handler then l else (s.sel fd).list) :
    (s.write fd F name i ⟨some fd, events, (s.slot name i).revents⟩ maxindex).Slotted m ∧
      Updated fd l event handler s
        (s.write fd F name i ⟨some fd, events, (s.slot name i).revents⟩ maxindex) := by
  let p : Pollfd := ⟨some fd, events, (s.slot name i).revents⟩
  have hw : Written fd name i F p := .kept rfl hcomm (by rw [honList, hlist]) hbusy
  have hself : (s.write fd F name i p maxindex).sel fd = F := setSel_self ..
  refine ⟨h.write hopen hplace hw fun j hj => ?_, rfl, h.write_frame hplace (.inr ⟨rfl, rfl⟩),
    ?_, ?_, fun event' => ?_, fun event' _ => ?_⟩
  · by_cases hji : j = i
    · omega
    · rw [Function.update_of_ne hji] at hj
      have := h.top name j hj
      omega
  · rw [hself, hF]
  · rw [hself, hdata]
  · rw [armed_of_some (i := i) (by rw [hself, hcomm]), hself, honList, hlist, write_slot,
      if_pos ⟨rfl, rfl⟩]
    exact hevents event'
  · rw [hself, honList]
    exact hl

/-- The slot is given back, and nothing is asked for. -/
theorem Slotted.write_free (h : s.Slotted m) (hopen : s.isOpen fd = true)
    (hplace : s.Place m fd name i) {list : FdList} {event : SelEvent}
    (hidle : ∀ event', event' ≠ event → s.armed fd event' = false)
    (htop : ∀ j, j ≠ i → (s.slot name j).fd.isSome = true → (j : Int) ≤ maxindex)
    (hF : F.handler = (s.sel fd).handler) (hdata : F.data = (s.sel fd).data)
    (hcomm : F.commIndex = none) :
    (s.write fd F name i PollfdList.free maxindex).Slotted m ∧
      Updated fd list event false s (s.write fd F name i PollfdList.free maxindex) := by
  have hself : (s.write fd F name i PollfdList.free maxindex).sel fd = F := setSel_self ..
  have hnone : ((s.write fd F name i PollfdList.free maxindex).sel fd).commIndex = none := by
    rw [hself, hcomm]
  refine ⟨h.write hopen hplace (.givenBack rfl hcomm) fun j hj => ?_, rfl,
    h.write_frame hplace (.inl rfl), ?_, ?_, fun event' => ?_, fun event' harmed => ?_⟩
  · by_cases hji : j = i
    · rw [hji, Function.update_self] at hj
      cases hj
    · rw [Function.update_of_ne hji] at hj
      exact htop j hji hj
  · rw [hself, hF]
  · rw [hself, hdata]
  · rw [armed_of_none hnone]
    split
    · rfl
    · next hne => exact (hidle event' hne).symm
  · rw [armed_of_none hnone] at harmed
    cases harmed

/-- No assertion fails for an open descriptor, if a slot that it has is in the array of the
list that is named. -/
theorem Slotted.pollUpdate (h : s.Slotted m) (hbound : ∀ fd, s.isOpen fd = true → fd < m)
    (hopen : s.isOpen fd = true) (list : FdList) (event : SelEvent) (handler : Bool)
    (hname : ∀ i, (s.sel fd).commIndex = some i → (s.sel fd).list.pollName = list.pollName) :
    ∃ s', pollUpdatePollfds m fd list event handler s = .ok s' ∧ s'.Slotted m ∧
      Updated fd list event handler s s' := by
  obtain ⟨i, hi, hplace⟩ := h.place hbound hopen hname
  simp only [pollUpdatePollfds, hi]
  have hevents := hplace.update_events event
  cases handler with
  | true =>
      refine ⟨_, if_pos rfl, ?_⟩
      refine h.write_kept (F := { s.sel fd with commIndex := some i, list := list }) hopen hplace
        (hevents true) ⟨event, Function.update_self ..⟩ rfl ?_ ?_ rfl rfl rfl rfl rfl
      · split
        · omega
        · omega
      · split
        · omega
        · omega
  | false =>
      rw [if_neg Bool.false_ne_true]
      split
      · next hsome =>
          have hbusy : ∃ event', Function.update ((s.slot list.pollName i).events) event false
              event' = true := by
            rcases hsome with hread | hwrite
            · exact ⟨.read, hread⟩
            · exact ⟨.write, hwrite⟩
          obtain ⟨k, hcomm⟩ := exists_comm (hevents false) hbusy
          obtain ⟨-, hslot⟩ := h.held fd k hopen hcomm
          rw [hname k hcomm] at hslot
          obtain ⟨-, rfl⟩ := hplace.only _ k hslot
          have hwritten := h.write_kept (F := { s.sel fd with commIndex := some k }) (l := list)
            hopen hplace
            (hevents false) hbusy (hname k hcomm) (h.top _ _ (by rw [hslot]; rfl))
            (Int.le_refl _) rfl rfl rfl rfl rfl
          have hsame : (⟨some fd, Function.update ((s.slot list.pollName k).events) event false,
              (s.slot list.pollName k).revents⟩ : Pollfd) =
              { (s.waits list.pollName).pollfds k with
                events := Function.update ((s.waits list.pollName).pollfds k).events event
                  false } := by
            rw [← hslot]
            rfl
          rw [hsame] at hwritten
          exact ⟨_, rfl, hwritten⟩
      · next hidle =>
          have hoff : ∀ event', ¬ Function.update ((s.slot list.pollName i).events) event false
              event' = true := by
            intro event'
            cases event' with
            | read => exact fun hread => hidle (.inl hread)
            | write => exact fun hwrite => hidle (.inr hwrite)
          refine ⟨_, rfl, ?_⟩
          rw [PollfdList.giveBack_eq]
          refine h.write_free (F := { s.sel fd with commIndex := none, list := .none }) hopen hplace
            (fun event' hne => ?_) (fun j hj hused => ?_) rfl rfl rfl
          · have hnot := hoff event'
            rw [hevents, if_neg hne] at hnot
            exact Bool.eq_false_iff.mpr hnot
          · have hle := PollfdList.le_giveBack_maxindex hj hused (h.top _ j hused)
            rwa [PollfdList.giveBack_eq] at hle

end NetioSt

end TrIrcd
