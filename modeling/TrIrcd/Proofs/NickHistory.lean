import TrIrcd.Lib.Run
import TrIrcd.Src.Whowas
import Mathlib.Data.List.Perm.Subperm

/-!
# The nick history stays consistent

`Histories s V W` says what the two families of lists hold: `V i` is the
chain of hash value `i`, with the used slots of that value, and `W c` the list
of client `c`, with the slots whose `online` field is `c`. A slot that is
about to be filled is first taken out of both (`releaseSlot`), so the ring
may be overwritten any number of times.

Once `off_history` ran for a client no slot has it in its `online` field, and
only `add_history` with `online` set puts it there: `get_history` does not
answer it any more.
-/

namespace TrIrcd

open Function (update)
open TrIrcd.Lib

namespace WhowasSt

/-- The chains of the hash table are `V` and the lists of the clients `W`. -/
structure Histories (s : WhowasSt) (V W : Nat → List Nat) : Prop where
  hash : Linked s.whowasHash V
  client : Linked s.whowas W
  mem_hash : ∀ i x, x ∈ V i ↔ x < nicknameHistoryLength ∧ s.hashv x = i
  mem_client : ∀ c x, x ∈ W c ↔ x < nicknameHistoryLength ∧ s.online x = some c
  unused : ∀ x, s.hashv x = -1 → s.online x = none
  range : ∀ x, s.hashv x = -1 ∨ 0 ≤ s.hashv x
  next : s.whowasNext < nicknameHistoryLength

theorem init_histories : Histories init (fun _ => []) (fun _ => []) where
  hash := Linked.empty
  client := Linked.empty
  mem_hash i x := iff_of_false (List.not_mem_nil) fun h => by
    have := h.2
    simp only [init] at this
    omega
  mem_client c x := iff_of_false (List.not_mem_nil) fun h => by cases h.2
  unused _ _ := rfl
  range _ := Or.inl rfl
  next := by decide

namespace Histories

variable {s : WhowasSt} {V W : Nat → List Nat}

theorem length_le {xs : List Nat} (hnd : xs.Nodup)
    (h : ∀ x ∈ xs, x < nicknameHistoryLength) : xs.length ≤ nicknameHistoryLength := by
  have hsub : xs ⊆ List.range nicknameHistoryLength :=
    fun x hx => List.mem_range.mpr (h x hx)
  have := (hnd.subperm hsub).length_le
  rwa [List.length_range] at this

/-! ## Filling a slot -/

/-- A released slot is in no list; everything else is where it was. -/
theorem releaseSlot (h : Histories s V W) {new : Nat} (hnew : new < nicknameHistoryLength) :
    ∃ V' W', Linked (s.releaseSlot new).whowasHash V' ∧
      Linked (s.releaseSlot new).whowas W' ∧
      (∀ i x, x ∈ V' i ↔ x ≠ new ∧ x ∈ V i) ∧ (∀ c x, x ∈ W' c ↔ x ≠ new ∧ x ∈ W c) := by
  by_cases hu : s.hashv new = -1
  · refine ⟨V, W, ?_, ?_, fun i x => ?_, fun c x => ?_⟩
    · simpa only [WhowasSt.releaseSlot, hu, ne_eq, not_true_eq_false, if_false] using h.hash
    · simpa only [WhowasSt.releaseSlot, hu, ne_eq, not_true_eq_false, if_false] using h.client
    · refine (and_iff_right_of_imp ?_).symm
      rintro hx rfl
      have := ((h.mem_hash i x).mp hx).2
      omega
    · refine (and_iff_right_of_imp ?_).symm
      rintro hx rfl
      have := ((h.mem_client c x).mp hx).2
      rw [h.unused x hu] at this
      cases this
  · have hpos : 0 ≤ s.hashv new := (h.range new).resolve_left hu
    have hin : new ∈ V (s.hashv new).toNat :=
      (h.mem_hash _ _).mpr ⟨hnew, (Int.toNat_of_nonneg hpos).symm⟩
    have hhash : Linked (s.releaseSlot new).whowasHash
        (update V (s.hashv new).toNat ((V (s.hashv new).toNat).erase new)) := by
      simp only [WhowasSt.releaseSlot, ne_eq, hu, not_false_eq_true, if_true]
      cases s.online new <;> exact h.hash.del_mem hin
    cases ho : s.online new with
    | none =>
        refine ⟨_, W, hhash, ?_, fun i x => h.hash.mem_erase hin, fun c x => ?_⟩
        · simpa only [WhowasSt.releaseSlot, ne_eq, hu, not_false_eq_true, if_true, ho]
            using h.client
        · refine (and_iff_right_of_imp ?_).symm
          rintro hx rfl
          have := ((h.mem_client c x).mp hx).2
          rw [ho] at this
          cases this
    | some cptr =>
        have hc : new ∈ W cptr := (h.mem_client _ _).mpr ⟨hnew, ho⟩
        refine ⟨_, _, hhash, ?_, fun i x => h.hash.mem_erase hin,
          fun c x => h.client.mem_erase hc⟩
        simpa only [WhowasSt.releaseSlot, ne_eq, hu, not_false_eq_true, if_true, ho]
          using h.client.del_mem hc

theorem releaseSlot_fields (s : WhowasSt) (new : Nat) :
    (s.releaseSlot new).hashv = s.hashv ∧ (s.releaseSlot new).online = s.online ∧
      (s.releaseSlot new).whowasNext = s.whowasNext := by
  simp only [WhowasSt.releaseSlot]
  split
  · split <;> exact ⟨rfl, rfl, rfl⟩
  · exact ⟨rfl, rfl, rfl⟩

theorem addHistory_fields (key : UInt32) (now : Int) (cptr : Nat) (info : HistoryInfo)
    (online : Bool) (s : WhowasSt) :
    (s.addHistory key now cptr info online).hashv =
        update s.hashv s.whowasNext ((strhash key info.name).toNat : Int) ∧
      (s.addHistory key now cptr info online).online =
        update s.online s.whowasNext (if online then some cptr else none) ∧
      (s.addHistory key now cptr info online).whowasHash =
        (s.releaseSlot s.whowasNext).whowasHash.add (strhash key info.name).toNat
          s.whowasNext ∧
      (s.addHistory key now cptr info online).whowas =
        (if online then (s.releaseSlot s.whowasNext).whowas.add cptr s.whowasNext
          else (s.releaseSlot s.whowasNext).whowas) ∧
      (s.addHistory key now cptr info online).whowasNext =
        if s.whowasNext + 1 = nicknameHistoryLength then 0 else s.whowasNext + 1 := by
  obtain ⟨hhash, hon, hnext⟩ := releaseSlot_fields s s.whowasNext
  cases online with
  | false => simp [WhowasSt.addHistory, hhash, hon, hnext]
  | true => simp [WhowasSt.addHistory, hhash, hon, hnext]

theorem addHistory (h : Histories s V W) (key : UInt32) (now : Int) (cptr : Nat)
    (info : HistoryInfo) (online : Bool) :
    ∃ V' W', Histories (s.addHistory key now cptr info online) V' W' := by
  obtain ⟨V₁, W₁, hV, hW, hmV, hmW⟩ := h.releaseSlot h.next
  obtain ⟨hhashv, honline, hhash, hclient, hnext⟩ :=
    addHistory_fields key now cptr info online s
  have hVn : ∀ i, s.whowasNext ∉ V₁ i := fun i hi => ((hmV i _).mp hi).1 rfl
  have hWn : ∀ c, s.whowasNext ∉ W₁ c := fun c hc => ((hmW c _).mp hc).1 rfl
  have hlist : ∃ W', Linked (s.addHistory key now cptr info online).whowas W' ∧
      ∀ c x, x ∈ W' c ↔ (x = s.whowasNext ∧ online = true ∧ c = cptr) ∨ x ∈ W₁ c := by
    rw [hclient]
    cases online with
    | false => exact ⟨W₁, hW, fun c x => by simp⟩
    | true => exact ⟨_, hW.add hWn cptr, fun c x => by simpa using mem_update_cons⟩
  obtain ⟨W', hW', hmW'⟩ := hlist
  have hV' := hV.add hVn (strhash key info.name).toNat
  rw [← hhash] at hV'
  refine ⟨_, W', hV', hW', fun i x => ?_, fun c x => ?_, fun x => ?_, fun x => ?_, ?_⟩
  · rw [mem_update_cons, hmV, h.mem_hash, hhashv]
    by_cases hx : x = s.whowasNext
    · subst hx
      simp only [true_and, ne_eq, not_true_eq_false, false_and, or_false,
        Function.update_self, h.next, Int.natCast_inj]
      exact eq_comm
    · simp only [hx, false_and, false_or, ne_eq, not_false_eq_true, true_and,
        Function.update_of_ne hx]
  · rw [hmW', hmW, h.mem_client, honline]
    by_cases hx : x = s.whowasNext
    · subst hx
      simp only [true_and, ne_eq, not_true_eq_false, false_and, or_false,
        Function.update_self, h.next]
      cases online with
      | false => simp
      | true => simpa using eq_comm
    · simp only [hx, false_and, false_or, ne_eq, not_false_eq_true, true_and,
        Function.update_of_ne hx]
  · rw [hhashv, honline]
    by_cases hx : x = s.whowasNext
    · subst hx
      rw [Function.update_self]
      intro hneg
      omega
    · rw [Function.update_of_ne hx, Function.update_of_ne hx]
      exact h.unused x
  · rw [hhashv]
    by_cases hx : x = s.whowasNext
    · subst hx
      rw [Function.update_self]
      exact Or.inr (Int.natCast_nonneg _)
    · rw [Function.update_of_ne hx]
      exact h.range x
  · have := h.next
    rw [hnext]
    split
    · decide
    · omega

/-! ## Emptying the list of a client -/

/-- The loop takes the slots off the list one by one. -/
theorem offHistoryLoop (cptr : Nat) (xs : List Nat) :
    ∀ {fuel : Nat} {s : WhowasSt} {W : Nat → List Nat}, Linked s.whowas W → W cptr = xs →
      xs.length ≤ fuel →
      ∃ links, Linked links (update W cptr []) ∧
        offHistoryLoop cptr fuel xs.head? s = { s with
          online := fun x => if x ∈ xs then none else s.online x
          whowas := links } := by
  induction xs with
  | nil =>
      intro fuel s W hW hx _
      refine ⟨s.whowas, ?_, ?_⟩
      · rw [← hx, Function.update_eq_self]
        exact hW
      · cases fuel <;> simp [WhowasSt.offHistoryLoop]
  | cons x xs ih =>
      intro fuel s W hW hx hf
      obtain ⟨k, rfl⟩ : ∃ k, fuel = k + 1 :=
        ⟨fuel - 1, by simp only [List.length_cons] at hf; omega⟩
      have hdel : Linked (s.whowas.del cptr x) (update W cptr xs) :=
        hW.del (show W cptr = [] ++ x :: xs from hx)
      have hk : xs.length ≤ k := by simp only [List.length_cons] at hf; omega
      obtain ⟨links, hl, he⟩ := ih (s := { s with
          online := update s.online x none
          whowas := s.whowas.del cptr x }) hdel (Function.update_self ..) hk
      rw [Function.update_idem] at hl
      refine ⟨links, hl, ?_⟩
      rw [List.head?_cons, WhowasSt.offHistoryLoop]
      simp only [hW.next_head hx, he]
      congr 1
      funext y
      by_cases hy : y = x
      · subst hy
        simp
      · simp only [List.mem_cons, hy, false_or, Function.update_of_ne hy]

theorem offHistory (h : Histories s V W) (cptr : Nat) :
    Histories (s.offHistory cptr) V (update W cptr []) ∧
      (s.offHistory cptr).online = fun x => if x ∈ W cptr then none else s.online x := by
  have hlen : (W cptr).length ≤ nicknameHistoryLength :=
    length_le (h.client.nodup cptr) fun x hx => ((h.mem_client cptr x).mp hx).1
  obtain ⟨links, hl, he⟩ := offHistoryLoop cptr (W cptr) h.client rfl hlen
  rw [WhowasSt.offHistory, h.client.head_eq, he]
  refine ⟨⟨h.hash, hl, h.mem_hash, fun c x => ?_, fun x hx => ?_, h.range, h.next⟩, rfl⟩
  · have hm := h.mem_client c x
    have hc := h.mem_client cptr x
    by_cases hcc : c = cptr
    · subst hcc
      rw [Function.update_self]
      refine iff_of_false List.not_mem_nil fun hx => ?_
      simp only at hx
      split at hx
      · cases hx.2
      · next hno => exact hno (hm.mpr hx)
    · rw [Function.update_of_ne hcc, hm]
      simp only
      split
      · next hin =>
          rw [(hc.mp hin).2]
          exact iff_of_false (fun hx => hcc (Option.some.inj hx.2).symm) fun hx => by cases hx.2
      · exact Iff.rfl
  · simp only
    split
    · rfl
    · exact h.unused x hx

/-- The memory of a client that has no slots is zeroed. -/
theorem clearHead (h : Histories s V W) {c : Nat} (hc : W c = []) :
    Histories { s with whowas := { s.whowas with head := update s.whowas.head c none } } V W := by
  refine ⟨h.hash, ⟨fun i => ?_, h.client.apart⟩, h.mem_hash, h.mem_client, h.unused, h.range,
    h.next⟩
  by_cases hi : i = c
  · subst hi
    have hd := h.client.dlist i
    rw [hc] at hd ⊢
    simp only [Function.update_self]
    exact IsDlist.empty
  · simp only [Function.update_of_ne hi]
    exact h.client.dlist i

/-- What `get_history` answers is online in a slot. -/
theorem getHistory (h : Histories s V W) {key : UInt32} {now : Int} {nick : List UInt8}
    {timelimit : Int} {c : Nat} (hg : s.getHistory key now nick timelimit = some c) :
    ∃ x, x < nicknameHistoryLength ∧ s.online x = some c := by
  have hlen : ∀ i, (V i).length ≤ nicknameHistoryLength := fun i =>
    length_le (h.hash.nodup i) fun x hx => ((h.mem_hash i x).mp hx).1
  simp only [WhowasSt.getHistory] at hg
  rw [findFrom_eq (h.hash.dlist _).1 (hlen _)] at hg
  split at hg
  · next temp hf =>
      exact ⟨temp, ((h.mem_hash _ temp).mp (List.mem_of_find?_eq_some hf)).1, hg⟩
  · cases hg

end Histories

end WhowasSt

/-! ## Runs -/

/-- The history and the clients that are there. -/
structure HistoryRun where
  st : WhowasSt
  live : List Nat

inductive HistoryOp
  | make (cptr : Nat)
  | add (now : Int) (cptr : Nat) (info : HistoryInfo) (online : Bool)
  | off (cptr : Nat)
  | exit (cptr : Nat)

/-- `off_history` runs for the client. -/
def HistoryOp.leaves (c : Nat) : HistoryOp → Prop
  | .off cptr => cptr = c
  | .exit cptr => cptr = c
  | .make _ => False
  | .add .. => False

/-- The client is entered into the history as online. -/
def HistoryOp.enters (c : Nat) : HistoryOp → Prop
  | .add _ cptr _ online => cptr = c ∧ online = true
  | .make _ => False
  | .off _ => False
  | .exit _ => False

namespace HistoryRun

def start : HistoryRun where
  st := WhowasSt.init
  live := []

/-- Clients are made with their memory zeroed, and freed after `off_history`;
in between they may be used. -/
def step (key : UInt32) (m : HistoryRun) : HistoryOp → Except Unit HistoryRun
  | .make cptr =>
      if cptr ∈ m.live then .error ()
      else .ok {
        st := { m.st with
          whowas := { m.st.whowas with head := update m.st.whowas.head cptr none } }
        live := cptr :: m.live }
  | .add now cptr info online =>
      if cptr ∈ m.live then .ok { m with st := m.st.addHistory key now cptr info online }
      else .error ()
  | .off cptr =>
      if cptr ∈ m.live then .ok { m with st := m.st.offHistory cptr } else .error ()
  | .exit cptr =>
      if cptr ∈ m.live then
        .ok { st := m.st.offHistory cptr, live := m.live.erase cptr }
      else .error ()

/-- The lists are right, and only clients that are there have slots. -/
def Inv (m : HistoryRun) : Prop :=
  m.live.Nodup ∧ ∃ V W, m.st.Histories V W ∧ ∀ c, c ∉ m.live → W c = []

theorem start_inv : Inv start :=
  ⟨List.nodup_nil, _, _, WhowasSt.init_histories, fun _ _ => rfl⟩

variable {key : UInt32} {m m' : HistoryRun}

theorem list_nil_iff {V W : Nat → List Nat} (h : m.st.Histories V W) {c : Nat} :
    W c = [] ↔ ∀ x, x < nicknameHistoryLength → m.st.online x ≠ some c := by
  rw [List.eq_nil_iff_forall_not_mem]
  exact forall_congr' fun x => by rw [h.mem_client, not_and]

theorem step_inv (m : HistoryRun) (op : HistoryOp) (m' : HistoryRun) (hI : Inv m)
    (hs : step key m op = .ok m') : Inv m' := by
  obtain ⟨hnd, V, W, h, hlive⟩ := hI
  cases op with
  | make cptr =>
      simp only [step] at hs
      split at hs
      · cases hs
      · next hc =>
          cases hs
          refine ⟨List.nodup_cons.mpr ⟨hc, hnd⟩, V, W, h.clearHead (hlive cptr hc), ?_⟩
          exact fun c hnc => hlive c fun hm => hnc (List.mem_cons_of_mem _ hm)
  | add now cptr info online =>
      simp only [step] at hs
      split at hs
      · next hc =>
          cases hs
          obtain ⟨V', W', h'⟩ := h.addHistory key now cptr info online
          refine ⟨hnd, V', W', h', fun c hnc => ?_⟩
          rw [list_nil_iff (m := { m with st := m.st.addHistory key now cptr info online }) h']
          intro x hx he
          have hold := (list_nil_iff h).mp (hlive c hnc) x hx
          simp only [(WhowasSt.Histories.addHistory_fields ..).2.1] at he
          by_cases hxn : x = m.st.whowasNext
          · subst hxn
            rw [Function.update_self] at he
            split at he
            · cases he
              exact hnc hc
            · cases he
          · rw [Function.update_of_ne hxn] at he
            exact hold he
      · cases hs
  | off cptr =>
      simp only [step] at hs
      split at hs
      · next hc =>
          cases hs
          refine ⟨hnd, V, _, (h.offHistory cptr).1, fun c hnc => ?_⟩
          rw [Function.update_of_ne fun e => hnc (by rw [e]; exact hc)]
          exact hlive c hnc
      · cases hs
  | exit cptr =>
      simp only [step] at hs
      split at hs
      · next hc =>
          cases hs
          refine ⟨hnd.erase _, V, _, (h.offHistory cptr).1, fun c hnc => ?_⟩
          by_cases hcc : c = cptr
          · rw [hcc, Function.update_self]
          · rw [Function.update_of_ne hcc]
            exact hlive c fun hm => hnc ((List.mem_erase_of_ne hcc).mpr hm)
      · cases hs

/-- No slot has the client online. -/
def Gone (c : Nat) (m : HistoryRun) : Prop :=
  ∀ x, x < nicknameHistoryLength → m.st.online x ≠ some c

/-- Only entering the client as online puts it into a slot. -/
theorem step_gone {c : Nat} {op : HistoryOp} (hI : Inv m) (hg : Gone c m)
    (ho : ¬ op.enters c) (hs : step key m op = .ok m') : Gone c m' := by
  obtain ⟨-, V, W, h, -⟩ := hI
  intro x hx
  cases op with
  | make cptr =>
      simp only [step] at hs
      split at hs
      · cases hs
      · cases hs
        exact hg x hx
  | add now cptr info online =>
      simp only [step] at hs
      split at hs
      · cases hs
        simp only [(WhowasSt.Histories.addHistory_fields ..).2.1]
        by_cases hxn : x = m.st.whowasNext
        · subst hxn
          rw [Function.update_self]
          split
          · next hon => exact fun e => ho ⟨Option.some.inj e, hon⟩
          · exact fun e => by cases e
        · rw [Function.update_of_ne hxn]
          exact hg x hx
      · cases hs
  | off cptr =>
      simp only [step] at hs
      split at hs
      · cases hs
        simp only [(h.offHistory cptr).2]
        split
        · exact fun e => by cases e
        · exact hg x hx
      · cases hs
  | exit cptr =>
      simp only [step] at hs
      split at hs
      · cases hs
        simp only [(h.offHistory cptr).2]
        split
        · exact fun e => by cases e
        · exact hg x hx
      · cases hs

theorem step_leaves {c : Nat} {op : HistoryOp} (hI : Inv m) (ho : op.leaves c)
    (hs : step key m op = .ok m') : Gone c m' := by
  obtain ⟨-, V, W, h, -⟩ := hI
  have hoff : Gone c { m with st := m.st.offHistory c } := by
    refine (list_nil_iff (m := { m with st := m.st.offHistory c }) (h.offHistory c).1).mp ?_
    exact Function.update_self ..
  cases op with
  | make cptr => cases ho
  | add now cptr info online => cases ho
  | off cptr =>
      cases ho
      simp only [step] at hs
      split at hs
      · cases hs
        exact hoff
      · cases hs
  | exit cptr =>
      cases ho
      simp only [step] at hs
      split at hs
      · cases hs
        exact hoff
      · cases hs

theorem run_gone (c : Nat) (ops : List HistoryOp) : ∀ {m m' : HistoryRun}, Inv m →
    Gone c m → (∀ op ∈ ops, ¬ op.enters c) → run (step key) m ops = .ok m' → Gone c m' := by
  induction ops with
  | nil =>
      intro m m' _ hg _ hr
      cases hr
      exact hg
  | cons op ops ih =>
      intro m m' hI hg ho hr
      obtain ⟨k, hk, hr'⟩ := run_cons_ok.mp hr
      refine ih (step_inv m op k hI hk)
        (step_gone hI hg (ho op (List.mem_cons_self ..)) hk) ?_ hr'
      exact fun o hm => ho o (List.mem_cons_of_mem _ hm)

/-- In every run the used slots are in the chain of their hash value and the
online ones in the list of their client, once and nowhere else; all lists are
linked both ways; and a client is not answered after `off_history`, until it
is entered as online again. -/
theorem history_consistent (key : UInt32) (ops : List HistoryOp) (m : HistoryRun)
    (hr : run (step key) start ops = .ok m) :
    (∃ V W : Nat → List Nat,
      (∀ i, IsDlist m.st.whowasHash.next m.st.whowasHash.prev (m.st.whowasHash.head i)
        (V i).getLast? (V i)) ∧
      (∀ c, IsDlist m.st.whowas.next m.st.whowas.prev (m.st.whowas.head c)
        (W c).getLast? (W c)) ∧
      (∀ x i, (V i).count x =
        if x < nicknameHistoryLength ∧ m.st.hashv x = i then 1 else 0) ∧
      ∀ x c, (W c).count x =
        if x < nicknameHistoryLength ∧ m.st.online x = some c then 1 else 0) ∧
    ∀ pre op post c, ops = pre ++ op :: post → op.leaves c → (∀ o ∈ post, ¬ o.enters c) →
      ∀ now nick timelimit, m.st.getHistory key now nick timelimit ≠ some c := by
  have hI : Inv m := run_invariant step_inv ops start_inv hr
  obtain ⟨-, V, W, h, -⟩ := hI
  refine ⟨⟨V, W, h.hash.dlist, h.client.dlist, fun x i => ?_, fun x c => ?_⟩, ?_⟩
  · rw [(h.hash.nodup i).count]
    exact if_congr (h.mem_hash i x) rfl rfl
  · rw [(h.client.nodup c).count]
    exact if_congr (h.mem_client c x) rfl rfl
  · rintro pre op post c rfl hleaves hpost now nick timelimit hg
    obtain ⟨k, hk, hr'⟩ := run_append_ok.mp hr
    obtain ⟨j, hj, hr''⟩ := run_cons_ok.mp hr'
    have hIk : Inv k := run_invariant step_inv pre start_inv hk
    have hgone := run_gone c post (step_inv k op j hIk hj) (step_leaves hIk hleaves hj) hpost hr''
    obtain ⟨x, hx, ho⟩ := h.getHistory hg
    exact hgone x hx ho

/-- A client comes, is entered under the name `a`, and exits. -/
def visit : List HistoryOp :=
  [.make 7,
    .add 100 7
      { name := [0x61], username := [], fakehost := [], host := [], info := [], server := [] }
      true,
    .exit 7]

theorem history_consistent_visit :
    ∃ m, run (step 0) start visit = .ok m ∧
      ∀ now nick timelimit, m.st.getHistory 0 now nick timelimit ≠ some 7 :=
  ⟨_, rfl, (history_consistent 0 visit _ rfl).2 (visit.take 2) (.exit 7) [] 7 rfl rfl
    (List.forall_mem_nil _)⟩

end HistoryRun

end TrIrcd
