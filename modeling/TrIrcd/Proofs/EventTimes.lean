import TrIrcd.Lib.Run
import TrIrcd.Src.Event

/-!
# Slots of the event table are handed out once

`eventAdd` takes the slot at `event_max` and moves `event_max` on;
`eventDelete` clears a slot and leaves `event_max` where it is. So in every
run `event_max` is the number of events ever added, whatever was deleted in
between, and a run gets through exactly when it adds at most `MAX_EVENTS`
events over its whole life (`eventRun_ok_iff`). A timer that is added and
deleted again and again uses the table up with one event active at a time.
-/

namespace TrIrcd

open TrIrcd.Lib

/-- One call, with the clock and the random number it sees. -/
inductive EventOp
  | add (timeofday : Int) (name : String) (func arg : Option Nat) (when : Int)
  | addIsh (timeofday : Int) (random : Nat) (name : String) (func arg : Option Nat)
      (deltaIsh : Int)
  | delete (func arg : Option Nat)

namespace EventOp

def isAdd : EventOp → Bool
  | .add .. => true
  | .addIsh .. => true
  | .delete .. => false

/-- How many slots the call takes. -/
def slots (op : EventOp) : Nat := if op.isAdd then 1 else 0

end EventOp

namespace EventSt

def step (s : EventSt) : EventOp → Except EventFault EventSt
  | .add timeofday name func arg when => eventAdd timeofday name func arg when s
  | .addIsh timeofday random name func arg deltaIsh =>
      eventAddIsh timeofday random name func arg deltaIsh s
  | .delete func arg => .ok (eventDelete func arg s)

/-- The call leaves at most `MAX_EVENTS` events active: a free slot exists
for an event that is added. -/
def KeepsRoom (s : EventSt) (op : EventOp) : Prop :=
  op.isAdd = true → s.activeEvents < maxEvents

instance (s : EventSt) (op : EventOp) : Decidable (s.KeepsRoom op) :=
  inferInstanceAs (Decidable (_ → _))

/-- `event_max` stays within the array, which keeps its size. -/
structure Inv (s : EventSt) : Prop where
  length : s.eventTable.length = maxEvents
  le : s.eventMax ≤ maxEvents

theorem init_inv : Inv init := ⟨rfl, Nat.zero_le _⟩

theorem eventDelete_eventMax (func arg : Option Nat) (s : EventSt) :
    (eventDelete func arg s).eventMax = s.eventMax := by
  simp only [eventDelete]
  split <;> rfl

theorem eventDelete_length (func arg : Option Nat) (s : EventSt) :
    (eventDelete func arg s).eventTable.length = s.eventTable.length := by
  simp only [eventDelete]
  split
  · rfl
  · exact List.length_modify ..

/-- While a slot is left, an added event gets the next one. -/
theorem eventAdd_ok {s : EventSt} (hI : Inv s) (hlt : s.eventMax < maxEvents)
    (timeofday : Int) (name : String) (func arg : Option Nat) (when : Int) :
    ∃ s', eventAdd timeofday name func arg when s = .ok s' ∧ Inv s' ∧
      s'.eventMax = s.eventMax + 1 := by
  simp only [eventAdd, hI.length, if_neg (Nat.not_lt.mpr hI.le), if_pos hlt]
  exact ⟨_, rfl, ⟨by rw [List.length_set]; exact hI.length, hlt⟩, rfl⟩

/-- The test before the write lets `event_max = MAX_EVENTS` through. -/
theorem eventAdd_full {s : EventSt} (hI : Inv s) (hge : ¬ s.eventMax < maxEvents)
    (timeofday : Int) (name : String) (func arg : Option Nat) (when : Int) :
    eventAdd timeofday name func arg when s = .error .outOfBounds := by
  simp only [eventAdd, hI.length, if_neg (Nat.not_lt.mpr hI.le), if_neg hge]

/-- The call gets through, and moves `event_max` by what it adds. -/
theorem step_ok {s : EventSt} (hI : Inv s) (op : EventOp)
    (hle : s.eventMax + op.slots ≤ maxEvents) :
    ∃ s', step s op = .ok s' ∧ Inv s' ∧ s'.eventMax = s.eventMax + op.slots := by
  cases op with
  | add timeofday name func arg when =>
      exact eventAdd_ok hI hle timeofday name func arg when
  | addIsh timeofday random name func arg deltaIsh =>
      exact eventAdd_ok hI hle timeofday name func arg _
  | delete func arg =>
      have hm := eventDelete_eventMax func arg s
      refine ⟨_, rfl, ⟨?_, ?_⟩, hm⟩
      · rw [eventDelete_length]; exact hI.length
      · rw [hm]; exact hI.le

theorem step_full {s : EventSt} (hI : Inv s) (op : EventOp)
    (hgt : ¬ s.eventMax + op.slots ≤ maxEvents) :
    step s op = .error .outOfBounds := by
  cases op with
  | add timeofday name func arg when =>
      exact eventAdd_full hI hgt timeofday name func arg when
  | addIsh timeofday random name func arg deltaIsh =>
      exact eventAdd_full hI hgt timeofday name func arg _
  | delete func arg => exact absurd hI.le hgt

/-- A run from `s` gets through if and only if its additions fit into what
`event_max` has left. -/
theorem run_ok_iff_of_inv (ops : List EventOp) {s : EventSt} (hI : Inv s) :
    (∃ s', run step s ops = .ok s') ↔
      s.eventMax + ops.countP EventOp.isAdd ≤ maxEvents := by
  induction ops generalizing s with
  | nil => exact iff_of_true ⟨s, rfl⟩ hI.le
  | cons op ops ih =>
      have hcount : (op :: ops).countP EventOp.isAdd =
          op.slots + ops.countP EventOp.isAdd := by
        rw [List.countP_cons, EventOp.slots, Nat.add_comm]
      rw [run, hcount]
      by_cases hle : s.eventMax + op.slots ≤ maxEvents
      · obtain ⟨m, hm, hIm, hmax⟩ := step_ok hI op hle
        simp only [hm]
        rw [ih hIm, hmax, Nat.add_assoc]
      · rw [step_full hI op hle]
        exact iff_of_false (by rintro ⟨s', hs'⟩; cases hs') (by omega)

/-- Every call of a run writes inside the table and returns if and only if
the run adds at most `MAX_EVENTS` events in all. -/
theorem eventRun_ok_iff (ops : List EventOp) :
    (∃ s, run step init ops = .ok s) ↔ ops.countP EventOp.isAdd ≤ maxEvents := by
  rw [run_ok_iff_of_inv ops init_inv]
  simp only [init, Nat.zero_add]

/-- A lost server schedules `check_splitmode`, and the timer deletes itself
when it runs. -/
def splitCycle : List EventOp :=
  [.addIsh 0 0 "check_splitmode" checkSplitmodePtr none 1800,
    .delete checkSplitmodePtr none]

/-- With never more than one event active, the fifty-first of these cycles
writes past the end of the table. -/
theorem splitCycle_overruns :
    Meets step KeepsRoom init (List.replicate 51 splitCycle).flatten ∧
      run step init (List.replicate 51 splitCycle).flatten = .error .outOfBounds := by
  decide +kernel

end EventSt

/-!
## When the event loop is told to wake

`event_time_min` is meant to be the time of the next event, or -1 where that
has to be looked up. Deleting an event can only make it too early, and
`eventRun` forgets it after every event it runs, whatever the event did to the
table. Two functions can leave it too late: `eventAdd` takes the time of the
new event for the next one when the next one is not known, and
`set_back_events` moves the events and not the minimum. A time of -1 is taken
for no time at all.

A run in which no step does one of these is on time throughout
(`eventNextTime_le`).
-/

namespace EventSt

/-- The entries handed out that wait to be run. -/
def waiting (s : EventSt) : List EvEntry := (s.eventTable.take s.eventMax).filter EvEntry.active

/-- The cached minimum is no later than any event, if there is one cached. -/
def OnTime (s : EventSt) : Prop :=
  s.eventTimeMin = -1 ∨ ∀ e ∈ s.waiting, s.eventTimeMin ≤ e.when

theorem mem_waiting {s : EventSt} {e : EvEntry} :
    e ∈ s.waiting ↔ (∃ i < s.eventMax, s.eventTable[i]? = some e) ∧ e.active = true := by
  rw [waiting, List.mem_filter, List.mem_iff_getElem?]
  refine and_congr_left fun _ => exists_congr fun i => ?_
  by_cases h : i < s.eventMax
  · rw [List.getElem?_take_of_lt h, and_iff_right h]
  · rw [List.getElem?_take_eq_none (Nat.not_lt.mp h)]
    exact iff_of_false (by simp) fun he => h he.1

end EventSt

/-! ## The loop of `eventNextTime` -/

/-- Where no event has the time -1, the loop finds a time that is no later than
those it has seen. -/
theorem scanTimes_le (entries : List EvEntry)
    (h : ∀ e ∈ entries, e.active = true → e.when ≠ -1) (eventTimeMin : Int) :
    (∀ e ∈ entries, e.active = true → scanTimes eventTimeMin entries ≤ e.when) ∧
      (eventTimeMin ≠ -1 → scanTimes eventTimeMin entries ≤ eventTimeMin) := by
  induction entries generalizing eventTimeMin with
  | nil => exact ⟨fun e he => absurd he List.not_mem_nil, fun _ => Int.le_refl _⟩
  | cons e entries ih =>
      have hrest := ih fun e' he' => h e' (List.mem_cons_of_mem _ he')
      rw [scanTimes, List.foldl_cons]
      split
      · next hlater =>
          obtain ⟨hall, hmin⟩ := hrest e.when
          have hwhen := hmin (h e List.mem_cons_self hlater.1)
          refine ⟨List.forall_mem_cons.mpr ⟨fun _ => hwhen, hall⟩, fun hne => ?_⟩
          have hlt : e.when < eventTimeMin := hlater.2.resolve_right hne
          exact Int.le_trans hwhen (Int.le_of_lt hlt)
      · next hnot =>
          obtain ⟨hall, hmin⟩ := hrest eventTimeMin
          refine ⟨List.forall_mem_cons.mpr ⟨fun hactive => ?_, hall⟩, hmin⟩
          have hkeep : ¬(e.when < eventTimeMin ∨ eventTimeMin = -1) :=
            fun hlater => hnot ⟨hactive, hlater⟩
          rw [not_or] at hkeep
          exact Int.le_trans (hmin hkeep.2) (Int.not_lt.mp hkeep.1)

/-- What `eventNextTime` answers is no later than any event, unless it takes a
time for no time. -/
theorem eventNextTime_le_of_onTime (timeofday : Int) {s : EventSt} (h : s.OnTime)
    (hclear : s.eventTimeMin = -1 → ∀ e ∈ s.waiting, e.when ≠ -1) :
    ∀ e ∈ s.waiting, (eventNextTime timeofday s).1 ≤ e.when := by
  intro e he
  obtain ⟨⟨i, hi, -⟩, -⟩ := EventSt.mem_waiting.mp he
  rw [eventNextTime, if_neg (Nat.ne_zero_of_lt hi)]
  split
  · next hunknown =>
      have hmem := List.mem_filter.mp he
      refine (scanTimes_le _ ?_ _).1 e hmem.1 hmem.2
      exact fun e' he' hactive => hclear hunknown e' (List.mem_filter.mpr ⟨he', hactive⟩)
  · next hknown => exact h.resolve_left hknown e he

theorem eventNextTime_onTime (timeofday : Int) {s : EventSt} (h : s.OnTime)
    (hclear : s.eventTimeMin = -1 → ∀ e ∈ s.waiting, e.when ≠ -1) :
    (eventNextTime timeofday s).2.OnTime := by
  have hle := eventNextTime_le_of_onTime timeofday h hclear
  rw [eventNextTime] at hle ⊢
  split
  · exact h
  · next hmax =>
      rw [if_neg hmax] at hle
      exact .inr hle

/-! ## The functions that change the table -/

/-- A deleted event no longer waits, and nothing else changes. -/
theorem eventDelete_onTime (func arg : Option Nat) {s : EventSt} (h : s.OnTime) :
    (eventDelete func arg s).OnTime := by
  rw [eventDelete]
  split
  · exact h
  · next i _ =>
      refine h.imp_right fun hall e he => ?_
      obtain ⟨⟨j, hj, hget⟩, hactive⟩ := EventSt.mem_waiting.mp he
      have hget : (s.eventTable.modify i _)[j]? = some e := hget
      rw [List.getElem?_modify] at hget
      split at hget
      · obtain ⟨e', -, rfl⟩ := Option.map_eq_some_iff.mp hget
        exact Bool.noConfusion hactive
      · have hget : s.eventTable[j]? = some e := by simpa using hget
        exact hall e (EventSt.mem_waiting.mpr ⟨⟨j, hj, hget⟩, hactive⟩)

/-- The new event waits as well as those that waited before. -/
theorem eventAdd_waiting {timeofday when : Int} {name : String} {func arg : Option Nat}
    {s s' : EventSt} (hadd : eventAdd timeofday name func arg when s = .ok s') :
    ∃ entry : EvEntry, entry.when = timeofday + when ∧ s'.waiting = s.waiting ++ [entry] ∧
      s'.eventTimeMin =
        if timeofday + when < s.eventTimeMin ∨ s.eventTimeMin = -1 then timeofday + when
        else s.eventTimeMin := by
  rw [eventAdd] at hadd
  split at hadd
  · cases hadd
  · split at hadd
    · next hlt =>
        cases hadd
        refine ⟨⟨func, arg, some name, when, timeofday + when, true⟩, rfl, ?_, rfl⟩
        simp only [EventSt.waiting]
        rw [List.take_add_one, List.take_set_of_le (Nat.le_refl _), List.filter_append,
          List.getElem?_set_self hlt]
        rfl
    · cases hadd

/-- Where nothing is cached, the new event is cached whatever waits before it. -/
theorem eventAdd_onTime_iff {timeofday when : Int} {name : String} {func arg : Option Nat}
    {s s' : EventSt} (hadd : eventAdd timeofday name func arg when s = .ok s')
    (h : s.OnTime) :
    s'.OnTime ↔ (s.eventTimeMin = -1 → timeofday + when = -1 ∨
      ∀ e ∈ s.waiting, timeofday + when ≤ e.when) := by
  obtain ⟨entry, hwhen, hwaiting, hmin⟩ := eventAdd_waiting hadd
  have hall : ∀ m : Int, (∀ e ∈ s'.waiting, m ≤ e.when) ↔
      (∀ e ∈ s.waiting, m ≤ e.when) ∧ m ≤ timeofday + when := by
    intro m
    rw [hwaiting, List.forall_mem_append, List.forall_mem_singleton, hwhen]
  rw [EventSt.OnTime, hall, hmin]
  by_cases hunknown : s.eventTimeMin = -1
  · rw [if_pos (.inr hunknown)]
    simp [hunknown]
  · have hcached := h.resolve_left hunknown
    refine iff_of_true (.inr ?_) fun hnot => absurd hnot hunknown
    split
    · next hlt =>
        have hlt := hlt.resolve_right hunknown
        exact ⟨fun e he => Int.le_trans (Int.le_of_lt hlt) (hcached e he), Int.le_refl _⟩
    · next hnot => exact ⟨hcached, Int.not_lt.mp (not_or.mp hnot).1⟩

/-- The time of an event after `set_back_events`. -/
def setBack (back when : Int) : Int := if when > back then when - back else 0

theorem setBackEvents_waiting (back : Int) (s : EventSt) :
    (setBackEvents back s).waiting =
      s.waiting.map fun e => { e with when := setBack back e.when } := by
  have htake : (setBackEvents back s).eventTable.take s.eventMax =
      (s.eventTable.take s.eventMax).map fun e => { e with when := setBack back e.when } := by
    rw [setBackEvents]
    by_cases hmax : s.eventMax ≤ s.eventTable.length
    · rw [List.take_left' (by rw [List.length_map, List.length_take, Nat.min_eq_left hmax])]
      rfl
    · rw [List.drop_eq_nil_of_le (by omega), List.append_nil, List.take_of_length_le]
      · rfl
      · rw [List.length_map, List.length_take]
        exact Nat.min_le_left ..
  have hwaiting : (setBackEvents back s).waiting =
      ((setBackEvents back s).eventTable.take s.eventMax).filter EvEntry.active := rfl
  rw [hwaiting, htake, List.filter_map]
  rfl

theorem le_setBack_iff (m back when : Int) :
    m ≤ setBack back when ↔ (back < when → m + back ≤ when) ∧ (when ≤ back → m ≤ 0) := by
  rw [setBack]
  split
  · omega
  · omega

/-- The events move and the cached minimum stays. -/
theorem setBackEvents_onTime_iff (back : Int) (s : EventSt) :
    (setBackEvents back s).OnTime ↔ (s.eventTimeMin = -1 ∨ ∀ e ∈ s.waiting,
      (back < e.when → s.eventTimeMin + back ≤ e.when) ∧
        (e.when ≤ back → s.eventTimeMin ≤ 0)) := by
  rw [EventSt.OnTime, setBackEvents_waiting]
  simp only [List.forall_mem_map, ← le_setBack_iff]
  rfl

/-! ## A run of the event loop -/

/-- A call of one of the functions that change the table. -/
inductive TableOp
  | slot (op : EventOp)
  | setBack (back : Int)

/-- A call of one of the functions of `event.c`. What the functions that
`eventRun` calls do to the table, slot by slot, comes with the clock that they
leave. -/
inductive TimerOp
  | table (op : TableOp)
  | run (timeofday : Int) (calls : Nat → List TableOp × Int)
  | nextTime (timeofday : Int)

namespace EventSt

def tableStep (s : EventSt) : TableOp → Except EventFault EventSt
  | .slot op => s.step op
  | .setBack back => .ok (setBackEvents back s)

/-- A function in the table, by what it does there. -/
def callback (calls : Nat → List TableOp × Int) (i : Nat) (_ : Int) (s : EventSt) :
    Except EventFault (Int × EventSt) :=
  (Lib.run tableStep s (calls i).1).map fun s => ((calls i).2, s)

def timerStep (s : EventSt) : TimerOp → Except EventFault EventSt
  | .table op => s.tableStep op
  | .run timeofday calls => eventRun (callback calls) timeofday s
  | .nextTime timeofday => .ok (eventNextTime timeofday s).2

end EventSt

/-- The time that an added event is due at. -/
def EventOp.due : EventOp → Option Int
  | .add timeofday _ _ _ when => some (timeofday + when)
  | .addIsh timeofday random _ _ _ deltaIsh =>
      let twoThird := (2 * deltaIsh).tdiv 3
      some (timeofday + if deltaIsh ≥ 3 then
        twoThird + (((random % 1000 : Nat) : Int) * twoThird).tdiv 1000 else deltaIsh)
  | .delete .. => none

/-- The step does none of the three things that go wrong: it adds no event
behind another while nothing is cached, it sets no event back before the time
that is cached, and it looks up no time of -1. -/
def KeepsTime (s : EventSt) : TimerOp → Prop
  | .table (.slot op) => s.eventTimeMin = -1 → ∀ due ∈ op.due,
      due = -1 ∨ ∀ e ∈ s.waiting, due ≤ e.when
  | .table (.setBack back) => s.eventTimeMin = -1 ∨ ∀ e ∈ s.waiting,
      (back < e.when → s.eventTimeMin + back ≤ e.when) ∧ (e.when ≤ back → s.eventTimeMin ≤ 0)
  | .run .. => True
  | .nextTime _ => s.eventTimeMin = -1 → ∀ e ∈ s.waiting, e.when ≠ -1

instance KeepsTime.decidable (s : EventSt) : ∀ op, Decidable (KeepsTime s op)
  | .table (.slot op) => inferInstanceAs (Decidable (s.eventTimeMin = -1 → ∀ due ∈ op.due,
      due = -1 ∨ ∀ e ∈ s.waiting, due ≤ e.when))
  | .table (.setBack back) => inferInstanceAs (Decidable (s.eventTimeMin = -1 ∨
      ∀ e ∈ s.waiting, (back < e.when → s.eventTimeMin + back ≤ e.when) ∧
        (e.when ≤ back → s.eventTimeMin ≤ 0)))
  | .run .. => inferInstanceAs (Decidable True)
  | .nextTime _ =>
      inferInstanceAs (Decidable (s.eventTimeMin = -1 → ∀ e ∈ s.waiting, e.when ≠ -1))

/-- `eventRun` forgets the minimum when it runs something. -/
theorem eventRunSlot_onTime {call : Nat → Int → EventSt → Except EventFault (Int × EventSt)}
    {i : Nat} {timeofday timeofday' : Int} {s s' : EventSt}
    (hslot : eventRunSlot call i timeofday s = .ok (timeofday', s')) (h : s.OnTime) :
    s'.OnTime := by
  rw [eventRunSlot] at hslot
  split at hslot
  · cases hslot
  · split at hslot
    · obtain ⟨r, -, heq⟩ := map_ok_iff.mp hslot
      cases heq
      exact .inl rfl
    · cases hslot
      exact h

theorem eventRunLoop_onTime (call : Nat → Int → EventSt → Except EventFault (Int × EventSt))
    (slots : Nat) : ∀ {i : Nat} {timeofday : Int} {s s' : EventSt}, s.OnTime →
      eventRunLoop call slots i timeofday s = .ok s' → s'.OnTime := by
  induction slots with
  | zero =>
      intro i timeofday s s' h hloop
      rw [eventRunLoop] at hloop
      split at hloop
      · cases hloop
      · cases hloop
        exact h
  | succ slots ih =>
      intro i timeofday s s' h hloop
      rw [eventRunLoop] at hloop
      split at hloop
      · obtain ⟨r, hslot, hrest⟩ := bind_ok_iff.mp hloop
        exact ih (eventRunSlot_onTime hslot h) hrest
      · cases hloop
        exact h

theorem eventRun_onTime {call : Nat → Int → EventSt → Except EventFault (Int × EventSt)}
    {timeofday : Int} {s s' : EventSt} (h : s.OnTime)
    (hrun : eventRun call timeofday s = .ok s') : s'.OnTime := by
  rw [eventRun] at hrun
  split at hrun
  · cases hrun
    exact h
  · exact eventRunLoop_onTime call _ h hrun

theorem timerStep_onTime (s : EventSt) (op : TimerOp) (s' : EventSt) (h : s.OnTime)
    (hop : KeepsTime s op) (hstep : s.timerStep op = .ok s') : s'.OnTime := by
  match op with
  | .table (.slot (.add timeofday name func arg when)) =>
      exact (eventAdd_onTime_iff hstep h).mpr fun hunknown => hop hunknown _ rfl
  | .table (.slot (.addIsh timeofday random name func arg deltaIsh)) =>
      exact (eventAdd_onTime_iff hstep h).mpr fun hunknown => hop hunknown _ rfl
  | .table (.slot (.delete func arg)) =>
      cases hstep
      exact eventDelete_onTime func arg h
  | .table (.setBack back) =>
      cases hstep
      exact (setBackEvents_onTime_iff back s).mpr hop
  | .run timeofday calls => exact eventRun_onTime h hstep
  | .nextTime timeofday =>
      cases hstep
      exact eventNextTime_onTime timeofday h hop

/-- In every run whose steps keep time, `eventNextTime` answers a time no later
than any event that waits. -/
theorem eventNextTime_le (ops : List TimerOp) (timeofday : Int) (s : EventSt)
    (hmeets : Meets EventSt.timerStep KeepsTime EventSt.init (ops ++ [.nextTime timeofday]))
    (hrun : Lib.run EventSt.timerStep EventSt.init ops = .ok s) :
    ∀ e ∈ s.waiting, (eventNextTime timeofday s).1 ≤ e.when := by
  obtain ⟨hmeets, hlast⟩ := hmeets.of_append
  have hinit : EventSt.init.OnTime := .inl rfl
  have h := run_invariant_of_meets timerStep_onTime ops hinit hmeets hrun
  exact eventNextTime_le_of_onTime timeofday h (hlast s hrun).1

/-- Two timers, the second of which deletes itself when it runs. -/
def twoTimers : List TimerOp :=
  [.table (.slot (.add 100 "recheck_clock" (some 2) none 60)),
    .table (.slot (.add 100 "check_splitmode" checkSplitmodePtr none 10)),
    .nextTime 100,
    .run 110 fun i => if i = 1 then ([.slot (.delete checkSplitmodePtr none)], 110) else ([], 110)]

theorem eventNextTime_le_twoTimers :
    Answers (fun s : EventSt => ∀ e ∈ s.waiting, (eventNextTime 110 s).1 ≤ e.when)
      (fun _ => False) (Lib.run EventSt.timerStep EventSt.init twoTimers) := by
  have hmeets : Meets EventSt.timerStep KeepsTime EventSt.init (twoTimers ++ [.nextTime 110]) := by
    decide
  cases hrun : Lib.run EventSt.timerStep EventSt.init twoTimers with
  | error e =>
      have hok : Answers (fun _ => True) (fun _ => False)
        (Lib.run EventSt.timerStep EventSt.init twoTimers) := by decide
      rw [hrun] at hok
      exact hok
  | ok s => exact eventNextTime_le twoTimers 110 s hmeets hrun

/-- An event that has just run waits for 120, but the next time is said to be
that of the event added after it. A clock that is set back finds the event loop
waiting for the old time. -/
theorem eventNextTime_late :
    Answers (fun s : EventSt => ∃ e ∈ s.waiting, ¬(eventNextTime 110 s).1 ≤ e.when)
        (fun _ => False)
        (Lib.run EventSt.timerStep EventSt.init
          [.table (.slot (.add 100 "recheck_clock" (some 2) none 10)),
            .run 110 fun _ => ([], 110),
            .table (.slot (.add 110 "check_splitmode" checkSplitmodePtr none 60))]) ∧
      Answers (fun s : EventSt => ∃ e ∈ s.waiting, ¬(eventNextTime 50 s).1 ≤ e.when)
        (fun _ => False)
        (Lib.run EventSt.timerStep EventSt.init
          [.table (.slot (.add 100 "check_splitmode" checkSplitmodePtr none 10)),
            .table (.setBack 50)]) := by
  decide

end TrIrcd
