import TrIrcd.Lib.Keyed
import TrIrcd.Lib.Run
import TrIrcd.Proofs.Dlinks
import TrIrcd.Src.Hook

/-!
# The functions an event calls

`hook_call_event` calls what is on the list of its event, in order, up to the
first function that does not return zero (`hookCallEvent_eq`). So it calls what
is hooked if and only if the list has what is hooked.

Adding puts a function on the list, once more if it is there. Deleting takes off
the first node for it and no other: the loop goes on from the node it has
unlinked, which has no successor any more (`delHookLoop_eq`). A function that is
on the list twice is then still called, and the lists are right all along a run
just when no function is deleted that is there more than once
(`hooks_called_iff`).
-/

namespace TrIrcd

open Function (update)
open TrIrcd.Lib

namespace HookSt

variable {E : HookEnv} {s : HookSt} {h fn : Nat}

/-- The events, and the functions on the list of one. -/
def events (s : HookSt) : List Nat := dlinkData none s.lists

def hooksOf (s : HookSt) (h : Nat) : List Nat := dlinkData (some h) s.lists

/-- The functions up to the first that does not return zero, and what it
returns. -/
def callsUpTo (result : Nat → Int) (fns : List Nat) : List Nat × Int :=
  (fns.takeWhile (result · = 0) ++ (fns.find? (result · ≠ 0)).toList,
    ((fns.find? (result · ≠ 0)).map result).getD 0)

/-- Events with ids of their own, made from their names. -/
structure Wf (E : HookEnv) (s : HookSt) : Prop where
  lists : ∃ V, Represents s.lists V
  used : ∀ h ∈ s.events, h ∈ s.used
  ids : Keyed (fun h => (s.hook h).id) s.events
  named : ∀ h ∈ s.events, (s.hook h).id = E.eventId (s.hook h).name

theorem Wf.contents (hw : Wf E s) : Contents s.lists fun l => dlinkData l s.lists := by
  obtain ⟨V, hV⟩ := hw.lists
  exact ⟨V, hV, hV.data⟩

theorem init_events : init.events = [] := (Contents.empty 0).data none

theorem init_wf : Wf E init := by
  obtain ⟨V, hV, _⟩ : Contents init.lists fun _ => [] := Contents.empty 0
  refine ⟨⟨V, hV⟩, ?_, ?_, ?_⟩ <;> rw [init_events]
  · exact fun _ hh => nomatch hh
  · exact Keyed.nil
  · exact fun _ hh => nomatch hh

/-! ## Finding an event -/

theorem Wf.findHookBy (hw : Wf E s) (p : Hook → Bool) :
    s.findHookBy p = s.events.find? fun h => p (s.hook h) := by
  obtain ⟨V, hV⟩ := hw.lists
  rw [HookSt.findHookBy, hV.find, events, hV.data, List.find?_map]
  rfl

theorem Wf.findHookId (hw : Wf E s) (hh : h ∈ s.events) :
    s.findHookId (s.hook h).id = some h :=
  (hw.findHookBy _).trans (hw.ids.find? hh)

/-- Two events of one name are one. -/
theorem Wf.name_inj (hw : Wf E s) {h' : Nat} (hh : h ∈ s.events) (hh' : h' ∈ s.events)
    (hn : (s.hook h).name = (s.hook h').name) : h = h' :=
  hw.ids.eq_of_mem hh hh' (by rw [hw.named h hh, hw.named h' hh', hn])

theorem Wf.findHook_eq (hw : Wf E s) (event : List UInt8) :
    s.findHook event = s.events.find? fun h => (s.hook h).name = event :=
  hw.findHookBy _

theorem Wf.findHook_some (hw : Wf E s) {event : List UInt8} (hf : s.findHook event = some h) :
    h ∈ s.events ∧ (s.hook h).name = event := by
  rw [hw.findHook_eq] at hf
  exact find?_key_some hf

theorem Wf.findHook_none (hw : Wf E s) {event : List UInt8} (hf : s.findHook event = none)
    (hh : h ∈ s.events) : (s.hook h).name ≠ event := by
  rw [hw.findHook_eq] at hf
  exact find?_key_eq_none.mp hf h hh

/-! ## Calling -/

theorem callLoop_eq (result : Nat → Int) (lists : Dlinks (Option Nat) Nat) (ms : List Nat) :
    ∀ {fuel head}, IsChain lists.next head ms → ms.length ≤ fuel →
      callLoop result lists fuel head = callsUpTo result (ms.map lists.data) := by
  induction ms with
  | nil =>
      intro fuel head hc _
      have hh : head = none := hc
      cases fuel <;> rw [hh] <;> rfl
  | cons m ms ih =>
      intro fuel head hc hlen
      obtain ⟨rfl, hc⟩ := hc
      cases fuel with
      | zero => cases hlen
      | succ fuel =>
          rw [callLoop, ih hc (Nat.le_of_succ_le_succ hlen), List.map_cons]
          by_cases hr : result (lists.data m) = 0
          · simp [hr, callsUpTo]
          · simp [hr, callsUpTo]

/-- An event calls what is on its list. -/
theorem Wf.hookCallEvent_eq (hw : Wf E s) (hh : h ∈ s.events) (result : Nat → Int) :
    hookCallEvent (s.hook h).id result s = callsUpTo result (s.hooksOf h) := by
  obtain ⟨V, hV⟩ := hw.lists
  rw [hookCallEvent, hw.findHookId hh, hooksOf, hV.data]
  exact callLoop_eq result s.lists _ (hV.dlist (some h)).1 (hV.length_le (some h))

/-! ## Deleting -/

/-- The loop takes off the first node for the function, and ends there. -/
theorem delHookLoop_eq (lists : Dlinks (Option Nat) Nat) (ms : List Nat) :
    ∀ {fuel head}, IsChain lists.next head ms → ms.length ≤ fuel →
      delHookLoop h fn fuel head lists =
        ((ms.find? fun m => lists.data m = fn).map fun node =>
          dlinkDeleteNode node (some h) lists).getD lists := by
  induction ms with
  | nil =>
      intro fuel head hc _
      have hh : head = none := hc
      cases fuel <;> rw [hh] <;> rfl
  | cons m ms ih =>
      intro fuel head hc hlen
      obtain ⟨rfl, hc⟩ := hc
      cases fuel with
      | zero => cases hlen
      | succ fuel =>
          rw [delHookLoop, List.find?_cons]
          by_cases hm : lists.data m = fn
          · have hnext : (freeDlinkNode m (dlinkDelete m (some h) lists)).next m = none := by
              show (dlinkDelete m (some h) lists).next m = none
              rw [dlinkDelete_next, Function.update_self]
            simp only [hm, if_true, decide_true, hnext]
            cases fuel <;> rfl
          · simp only [hm, if_false, decide_false]
            exact ih hc (Nat.le_of_succ_le_succ hlen)

theorem Wf.hookDelHook_eq (hw : Wf E s) {event : List UInt8} (hf : s.findHook event = some h) :
    (hookDelHook event fn s).2 =
      { s with lists := dlinkDeleteFirst (some h) (· = fn) s.lists } := by
  obtain ⟨V, hV⟩ := hw.lists
  rw [hookDelHook, hf]
  dsimp only
  rw [delHookLoop_eq s.lists _ (hV.dlist (some h)).1 (hV.length_le (some h)), dlinkDeleteFirst,
    hV.find]
  cases (V (some h)).find? fun m => s.lists.data m = fn <;> rfl

/-! ## What an operation does to the lists -/

/-- Other lists, with the same events on the first of them. -/
theorem Wf.relist (hw : Wf E s) {lists : Dlinks (Option Nat) Nat} {C : Option Nat → List Nat}
    (hc : Contents lists C) (hnone : C none = s.events) :
    Wf E { s with lists := lists } ∧ events { s with lists := lists } = s.events ∧
      ∀ k, hooksOf { s with lists := lists } k = C (some k) := by
  have he : events { s with lists := lists } = s.events := (hc.data none).trans hnone
  have hdata := hc.data
  obtain ⟨V, hV, _⟩ := hc
  refine ⟨⟨⟨V, hV⟩, ?_, ?_, ?_⟩, he, fun k => hdata (some k)⟩ <;> rw [he]
  · exact hw.used
  · exact hw.ids
  · exact hw.named

theorem update_some (C : Option Nat → List Nat) (h : Nat) (fns : List Nat) (k : Nat) :
    update C (some h) fns (some k) = update (fun k => C (some k)) h fns k := by
  by_cases hk : k = h
  · rw [hk, Function.update_self, Function.update_self]
  · rw [Function.update_of_ne hk, Function.update_of_ne fun he => hk (Option.some.inj he)]

/-- A hook that is added stands in front. -/
theorem Wf.addHook (hw : Wf E s) (h fn : Nat) :
    Wf E { s with lists := dlinkAddNew E.alloc fn (some h) s.lists } ∧
      events { s with lists := dlinkAddNew E.alloc fn (some h) s.lists } = s.events ∧
      ∀ k, hooksOf { s with lists := dlinkAddNew E.alloc fn (some h) s.lists } k =
        update s.hooksOf h (fn :: s.hooksOf h) k := by
  obtain ⟨hw', he, hk⟩ := hw.relist (hw.contents.addNew E.alloc fn (some h))
    (Function.update_of_ne (Option.some_ne_none h).symm ..)
  exact ⟨hw', he, fun k => (hk k).trans (update_some _ h _ k)⟩

/-- The first node for a hook goes. -/
theorem Wf.delHook (hw : Wf E s) (h fn : Nat) :
    Wf E { s with lists := dlinkDeleteFirst (some h) (· = fn) s.lists } ∧
      events { s with lists := dlinkDeleteFirst (some h) (· = fn) s.lists } = s.events ∧
      ∀ k, hooksOf { s with lists := dlinkDeleteFirst (some h) (· = fn) s.lists } k =
        update s.hooksOf h ((s.hooksOf h).erase fn) k := by
  obtain ⟨hw', he, hk⟩ := hw.relist (hw.contents.deleteFirst (some h) (· = fn))
    (Function.update_of_ne (Option.some_ne_none h).symm ..)
  refine ⟨hw', he, fun k => (hk k).trans ?_⟩
  rw [update_some, eraseP_eq_erase]
  rfl

/-- What the lists hold when an event has been put on the first. -/
theorem addEvent_contents {A : Allocator} {D : Dlinks (Option Nat) Nat}
    {C : Option Nat → List Nat} (hc : Contents D C) (newhook : Nat) :
    Contents (dlinkAdd newhook (makeDlinkNode A D).1 none
        (makeDlinkNode A (clearDlinkList (some newhook) (makeDlinkNode A D).2)).2)
      (update (update C (some newhook) []) none (newhook :: C none)) := by
  obtain ⟨V, hV, hC⟩ := hc
  obtain ⟨hV₁, hnode⟩ := hV.make A
  have hfree : ∀ l, (makeDlinkNode A D).1 ∉ update V (some newhook) [] l := by
    intro l hl
    by_cases hk : l = some newhook
    · rw [hk, Function.update_self] at hl
      cases hl
    · rw [Function.update_of_ne hk] at hl
      exact hnode l hl
  obtain ⟨hV₂, _⟩ := (hV₁.clear (some newhook)).make A
  have hused : (makeDlinkNode A D).1 ∈
      (makeDlinkNode A (clearDlinkList (some newhook) (makeDlinkNode A D).2)).2.used :=
    List.mem_cons_of_mem _ (List.mem_cons_self ..)
  refine ⟨_, hV₂.add hfree hused newhook none, fun l => ?_⟩
  rw [dlinkAdd_data]
  have hold : ∀ l, (V l).map (update D.data (makeDlinkNode A D).1 newhook) = C l := by
    intro l
    rw [hC]
    exact List.map_congr_left fun x hx =>
      Function.update_of_ne (fun he => hnode l (by rw [← he]; exact hx)) ..
  show _ = List.map (update D.data (makeDlinkNode A D).1 newhook) _
  by_cases hn : l = none
  · rw [hn, Function.update_self, Function.update_self, List.map_cons, Function.update_self,
      Function.update_of_ne (Option.some_ne_none newhook).symm, hold]
  · rw [Function.update_of_ne hn, Function.update_of_ne hn]
    by_cases hk : l = some newhook
    · rw [hk, Function.update_self, Function.update_self, List.map_nil]
    · rw [Function.update_of_ne hk, Function.update_of_ne hk, hold]

/-- A new event has an empty list. -/
theorem Wf.addEvent (hw : Wf E s) {name : List UInt8}
    (hid : s.findHookId (E.eventId name) = none) :
    ∃ h, h ∉ s.events ∧ Wf E (hookAddEvent E name s).2 ∧
      (hookAddEvent E name s).2.events = h :: s.events ∧
      (hookAddEvent E name s).2.hook = update s.hook h ⟨name, E.eventId name⟩ ∧
      (hookAddEvent E name s).2.hooksOf h = [] ∧
      ∀ h' ∈ s.events, (hookAddEvent E name s).2.hooksOf h' = s.hooksOf h' := by
  have hfresh : E.alloc.pick s.used ∉ s.events :=
    fun hin => E.alloc.pick_fresh s.used (hw.used _ hin)
  have hc := addEvent_contents (A := E.alloc) hw.contents (E.alloc.pick s.used)
  have hevents : (hookAddEvent E name s).2.events = E.alloc.pick s.used :: s.events :=
    (hc.data none).trans (Function.update_self ..)
  have hhooks : ∀ k, (hookAddEvent E name s).2.hooksOf k =
      update s.hooksOf (E.alloc.pick s.used) [] k := by
    intro k
    refine (hc.data (some k)).trans ?_
    rw [Function.update_of_ne (Option.some_ne_none k)]
    exact update_some _ _ _ k
  have hhook : (hookAddEvent E name s).2.hook =
      update s.hook (E.alloc.pick s.used) ⟨name, E.eventId name⟩ := rfl
  have hne : ∀ h ∈ s.events, h ≠ E.alloc.pick s.used := by
    rintro h hh rfl
    exact hfresh hh
  have hsame : ∀ h ∈ s.events, update s.hook (E.alloc.pick s.used) ⟨name, E.eventId name⟩ h =
      s.hook h := fun h hh => Function.update_of_ne (hne h hh) ..
  refine ⟨E.alloc.pick s.used, hfresh, ?_, hevents, hhook, ?_, fun h' hh' => ?_⟩
  · obtain ⟨V, hV, _⟩ := hc
    refine ⟨⟨V, hV⟩, ?_, ?_, ?_⟩ <;> rw [hevents]
    · intro h hh
      show h ∈ E.alloc.pick s.used :: s.used
      rcases List.mem_cons.mp hh with rfl | hh
      · exact List.mem_cons_self ..
      · exact List.mem_cons_of_mem _ (hw.used h hh)
    · rw [hhook]
      refine (hw.ids.congr fun h hh => by rw [hsame h hh]).cons fun h hh => ?_
      rw [hsame h hh, Function.update_self]
      rw [HookSt.findHookId, hw.findHookBy] at hid
      exact find?_key_eq_none.mp hid h hh
    · intro h hh
      rw [hhook]
      rcases List.mem_cons.mp hh with rfl | hh
      · rw [Function.update_self]
      · rw [hsame h hh, hw.named h hh]
  · rw [hhooks, Function.update_self]
  · rw [hhooks, Function.update_of_ne (hne h' hh')]

/-! ## Runs -/

/-- Whether a function is hooked to an event after an operation. A new event has
no functions. -/
def hookedAfter (event : List UInt8) (fn : Nat) (on : Bool) : HookOp → Bool
  | .addEvent name => if name = event then false else on
  | .addHook name fn' => if name = event ∧ fn' = fn then true else on
  | .delHook name fn' => if name = event ∧ fn' = fn then false else on

/-- The last operation on the event that is about the function was an add. -/
def hooked (event : List UInt8) (fn : Nat) (seen : List HookOp) : Bool :=
  seen.foldl (hookedAfter event fn) false

theorem hooked_concat (event : List UInt8) (fn : Nat) (seen : List HookOp) (o : HookOp) :
    hooked event fn (seen ++ [o]) = hookedAfter event fn (hooked event fn seen) o := by
  rw [hooked, List.foldl_append]
  rfl

/-- The lists have what is hooked. -/
def Exact (s : HookSt) (seen : List HookOp) : Prop :=
  ∀ h ∈ s.events, ∀ fn, fn ∈ s.hooksOf h ↔ hooked (s.hook h).name fn seen = true

/-- Every event calls, in the order of its list, what is hooked. -/
def CallsHooked (s : HookSt) (seen : List HookOp) : Prop :=
  ∀ h ∈ s.events, (∀ fn, fn ∈ s.hooksOf h ↔ hooked (s.hook h).name fn seen = true) ∧
    ∀ result, s.hookCallEvent (s.hook h).id result = callsUpTo result (s.hooksOf h)

theorem Wf.callsHooked_iff (hw : Wf E s) {seen : List HookOp} :
    CallsHooked s seen ↔ Exact s seen :=
  ⟨fun hc h hh => (hc h hh).1, fun hx h hh => ⟨hx h hh, hw.hookCallEvent_eq hh⟩⟩

/-- A function that is deleted is on the list once at most. -/
def DeletedOnce (s : HookSt) : HookOp → Prop
  | .delHook event fn => ∀ h ∈ s.findHook event, (s.hooksOf h).count fn ≤ 1
  | _ => True

theorem deletedOnce_iff {event : List UInt8} :
    ((s.findHook event).all fun h => (s.hooksOf h).count fn ≤ 1) = true ↔
      DeletedOnce s (.delHook event fn) := by
  rw [DeletedOnce]
  cases s.findHook event with
  | none => simp
  | some h => simp

instance (s : HookSt) : ∀ o, Decidable (DeletedOnce s o)
  | .delHook _ _ => decidable_of_iff _ deletedOnce_iff
  | .addEvent _ => .isTrue trivial
  | .addHook _ _ => .isTrue trivial

variable {s' : HookSt} {seen : List HookOp}

theorem hookStep_wf {o : HookOp} (hw : Wf E s) (hstep : hookStep E s o = .ok s') : Wf E s' := by
  cases o with
  | addEvent name =>
      rw [hookStep] at hstep
      split at hstep
      · cases hstep
      next hid =>
        cases hstep
        obtain ⟨_, _, hw', _⟩ := hw.addEvent (Option.not_isSome_iff_eq_none.mp hid)
        exact hw'
  | addHook event fn =>
      cases hstep
      rw [hookAddHook]
      split
      · exact hw
      · exact (hw.addHook _ fn).1
  | delHook event fn =>
      cases hstep
      cases hf : s.findHook event with
      | none =>
          rw [hookDelHook, hf]
          exact hw
      | some h =>
          rw [hw.hookDelHook_eq hf]
          exact (hw.delHook h fn).1

theorem addEvent_exact (hw : Wf E s) (hx : Exact s seen) {name : List UInt8}
    (hid : s.findHookId (E.eventId name) = none) :
    Exact (hookAddEvent E name s).2 (seen ++ [.addEvent name]) := by
  obtain ⟨h₀, hfresh, _, hevents, hhook, hnil, hkeep⟩ := hw.addEvent hid
  intro h hh fn
  rw [hooked_concat, hookedAfter, hhook]
  rw [hevents] at hh
  rcases List.mem_cons.mp hh with rfl | hh
  · rw [hnil, Function.update_self, if_pos rfl]
    exact iff_of_false List.not_mem_nil Bool.false_ne_true
  · have hne : h ≠ h₀ := fun he => hfresh (he ▸ hh)
    rw [hkeep h hh, Function.update_of_ne hne, if_neg, hx h hh]
    intro he
    rw [HookSt.findHookId, hw.findHookBy] at hid
    exact find?_key_eq_none.mp hid h hh (by rw [hw.named h hh, he])

theorem addHook_exact (hw : Wf E s) (hx : Exact s seen) (event : List UInt8) (fn : Nat) :
    Exact (hookAddHook E event fn s).2 (seen ++ [.addHook event fn]) := by
  rw [hookAddHook]
  cases hf : s.findHook event with
  | none =>
      intro h hh fn'
      rw [hooked_concat, hookedAfter, if_neg fun he => hw.findHook_none hf hh he.1.symm]
      exact hx h hh fn'
  | some h₀ =>
      obtain ⟨hh₀, hname⟩ := hw.findHook_some hf
      obtain ⟨_, hevents, hlist⟩ := hw.addHook h₀ fn
      intro h hh fn'
      rw [hevents] at hh
      rw [hooked_concat, hookedAfter, hlist]
      show _ ↔ (if event = (s.hook h).name ∧ fn = fn' then true
        else hooked (s.hook h).name fn' seen) = true
      by_cases hk : h = h₀
      · rw [hk, Function.update_self, List.mem_cons, hx h₀ hh₀, hname]
        by_cases hfn : fn = fn'
        · simp [hfn]
        · simp [hfn, Ne.symm hfn]
      · rw [Function.update_of_ne hk, if_neg, hx h hh]
        exact fun he => hk (hw.name_inj hh hh₀ (he.1.symm.trans hname.symm))

theorem delHook_exact_iff (hw : Wf E s) (hx : Exact s seen) (event : List UInt8) (fn : Nat) :
    Exact (hookDelHook event fn s).2 (seen ++ [.delHook event fn]) ↔
      DeletedOnce s (.delHook event fn) := by
  cases hf : s.findHook event with
  | none =>
      rw [hookDelHook, hf]
      refine iff_of_true (fun h hh fn' => ?_) fun h hh => nomatch hf.symm.trans hh
      rw [hooked_concat, hookedAfter, if_neg fun he => hw.findHook_none hf hh he.1.symm]
      exact hx h hh fn'
  | some h₀ =>
      obtain ⟨hh₀, hname⟩ := hw.findHook_some hf
      obtain ⟨_, hevents, hlist⟩ := hw.delHook h₀ fn
      rw [hw.hookDelHook_eq hf]
      refine ⟨fun hx' h hh => ?_, fun honce h hh fn' => ?_⟩
      · cases hf.symm.trans hh
        have hgone := hx' h₀ (by rw [hevents]; exact hh₀) fn
        rw [hooked_concat, hookedAfter, hlist, Function.update_self, if_pos ⟨hname.symm, rfl⟩] at hgone
        have hcount := List.count_eq_zero.mpr fun hin => Bool.false_ne_true (hgone.mp hin)
        rw [List.count_erase_self] at hcount
        omega
      · rw [hevents] at hh
        rw [hooked_concat, hookedAfter, hlist]
        show _ ↔ (if event = (s.hook h).name ∧ fn = fn' then false
          else hooked (s.hook h).name fn' seen) = true
        by_cases hk : h = h₀
        · rw [hk, Function.update_self, hname]
          by_cases hfn : fn = fn'
          · have hcount := honce h₀ hf
            rw [if_pos ⟨rfl, hfn⟩, ← hfn]
            refine iff_of_false (fun hin => ?_) Bool.false_ne_true
            have hpos := List.count_pos_iff.mpr hin
            rw [List.count_erase_self] at hpos
            omega
          · rw [if_neg fun he => hfn he.2, List.mem_erase_of_ne (Ne.symm hfn), hx h₀ hh₀, hname]
        · rw [Function.update_of_ne hk, if_neg, hx h hh]
          exact fun he => hk (hw.name_inj hh hh₀ (he.1.symm.trans hname.symm))

theorem hookStep_exact_iff {o : HookOp} (hw : Wf E s) (hx : Exact s seen)
    (hstep : hookStep E s o = .ok s') : Exact s' (seen ++ [o]) ↔ DeletedOnce s o := by
  cases o with
  | addEvent name =>
      rw [hookStep] at hstep
      split at hstep
      · cases hstep
      next hid =>
        cases hstep
        exact iff_of_true (addEvent_exact hw hx (Option.not_isSome_iff_eq_none.mp hid)) trivial
  | addHook event fn =>
      cases hstep
      exact iff_of_true (addHook_exact hw hx event fn) trivial
  | delHook event fn =>
      cases hstep
      exact delHook_exact_iff hw hx event fn

/-- In every state of a run, every event calls what is hooked, just when no
function is deleted that is hooked more than once. -/
theorem hooks_called_iff (E : HookEnv) (ops : List HookOp) {s : HookSt}
    (hrun : run (hookStep E) init ops = .ok s) :
    (∀ pre m, pre <+: ops → run (hookStep E) init pre = .ok m → CallsHooked m pre) ↔
      Meets (hookStep E) DeletedOnce init ops := by
  have hwf : ∀ {pre m}, run (hookStep E) init pre = .ok m → Wf E m := fun hr =>
    run_invariant (fun _ _ _ hw hs => hookStep_wf hw hs) _ init_wf hr
  have hstart : Wf E init ∧ Exact init [] := by
    refine ⟨init_wf, fun h hh => ?_⟩
    rw [init_events] at hh
    cases hh
  have hhist := run_history_iff (I := fun s seen => Wf E s ∧ Exact s seen)
    (fun s seen o s' hI hs => ⟨fun hI' => (hookStep_exact_iff hI.1 hI.2 hs).mp hI'.2,
      fun hg => ⟨hookStep_wf hI.1 hs, (hookStep_exact_iff hI.1 hI.2 hs).mpr hg⟩⟩) ops hstart hrun
  rw [← hhist]
  refine ⟨fun hall pre m hpre hr => ⟨hwf hr, ?_⟩, fun hall pre m hpre hr => ?_⟩
  · exact (hwf hr).callsHooked_iff.mp (hall pre m hpre hr)
  · exact (hwf hr).callsHooked_iff.mpr (hall pre m hpre hr).2

section Samples

def hookSample : HookEnv := ⟨Allocator.bump, fun name => name.length⟩

/-- Two functions on an event, and the first of them taken off again. -/
def hookOps : List HookOp :=
  [.addEvent [0x61], .addHook [0x61] 7, .addHook [0x61] 8, .delHook [0x61] 7]

theorem hooks_called_sample : ∃ s, run (hookStep hookSample) init hookOps = .ok s ∧
    CallsHooked s hookOps ∧ s.hookCallEvent 1 (fun _ => 0) = ([8], 0) := by
  refine ⟨_, rfl, ?_, rfl⟩
  exact (hooks_called_iff hookSample hookOps rfl).mpr (by decide) _ _ (List.prefix_refl _) rfl

/-- A function that is added twice and deleted once is still called. -/
theorem twice_hooked_called :
    let ops := [.addEvent [0x61], .addHook [0x61] 7, .addHook [0x61] 7, .delHook [0x61] 7]
    ∃ s, run (hookStep hookSample) init ops = .ok s ∧ ¬ CallsHooked s ops ∧
      s.hookCallEvent 1 (fun _ => 0) = ([7], 0) := by
  refine ⟨_, rfl, fun hc => ?_, rfl⟩
  have hin := (hc 1 (by decide)).1 7
  revert hin
  decide

end Samples

end HookSt

end TrIrcd
