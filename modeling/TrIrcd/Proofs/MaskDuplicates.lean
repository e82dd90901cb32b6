import TrIrcd.Proofs.NameTable
import TrIrcd.Proofs.MaskCost
import TrIrcd.Proofs.NickBans

/-!
# Masks that are twice in a list

`add_id` keeps a mask out if a mask of the list accepts it, and `del_id` takes
out the first mask that is equal to the one it is given. That no mask is in the
list twice then rests on every mask accepting its own text, and those equal to
it. Masks without backslashes do, as far as the cap of `match` lets them; a
backslash in a mask is not what it matches.

The list stays without duplicates as long as no mask is put in beside an equal
one that does not accept it (`maskList_iff`). The limit of our own users is
kept in any case.
-/

namespace TrIrcd

open TrIrcd.Lib

/-- What is done with a list. -/
inductive MaskListOp
  | add (call : AddIdCall)
  | del (id : List UInt8)
deriving DecidableEq, Repr

def idStep (list : List NuhEntry) : MaskListOp → Except Unit (List NuhEntry)
  | .add c => .ok (addId ircMatch c.myClient c.id c.maxnums list).1
  | .del id => .ok (delId id list)

/-! ## Adding -/

/-- A mask goes in if none accepts it and the list is not full. -/
theorem addIdLoop_eq_none_iff {accepts : List UInt8 → List UInt8 → Int} {id : List UInt8}
    {maxnums : Int} {myClient : Bool} {list : List NuhEntry} {cnt : Int} :
    addIdLoop accepts myClient id maxnums cnt list = none ↔
      (∀ e ∈ list, accepts e.nuhstr id ≠ 0) ∧
        (myClient = true → list = [] ∨ cnt + list.length < maxnums) := by
  induction list generalizing cnt with
  | nil => simp [addIdLoop]
  | cons e list ih =>
      cases myClient with
      | false =>
          rw [addIdLoop_remote]
          split
          · next h => simp [h]
          · next h => simp [h, ih]
      | true =>
          rw [addIdLoop_local]
          split
          · next hfull =>
              refine iff_of_false (by simp) fun h => ?_
              have hroom := (h.2 rfl).resolve_left (List.cons_ne_nil e list)
              rw [List.length_cons] at hroom
              omega
          · next hroom =>
              split
              · next h => simp [h]
              · next h =>
                  rw [ih, List.forall_mem_cons, List.length_cons]
                  have hlen : (list = [] ∨ cnt + 1 + list.length < maxnums) ↔
                      cnt + (list.length + 1 : Nat) < maxnums := by
                    cases list with
                    | nil => simp; omega
                    | cons e' list => simp; omega
                  simp [h, hlen]

theorem addId_eq {accepts : List UInt8 → List UInt8 → Int} {id : List UInt8} {maxnums : Int}
    {myClient : Bool} {list : List NuhEntry} :
    (addId accepts myClient id maxnums list).1 =
      if (∀ e ∈ list, accepts e.nuhstr id ≠ 0) ∧
          (myClient = true → list = [] ∨ (list.length : Int) < maxnums) then
        ⟨id, mtypOf id⟩ :: list
      else list := by
  have hnone := @addIdLoop_eq_none_iff accepts id maxnums myClient list 0
  rw [Int.zero_add] at hnone
  rw [addId]
  split
  · next h =>
      rw [if_neg]
      rw [← hnone, h]
      simp
  · next h =>
      rw [if_pos]
      rwa [← hnone]

/-! ## Lists without duplicates -/

/-- No two masks are equal. -/
def Apart (list : List NuhEntry) : Prop :=
  list.Pairwise fun e e' => ircStrcmp e.nuhstr e'.nuhstr ≠ 0

instance (list : List NuhEntry) : Decidable (Apart list) :=
  inferInstanceAs (Decidable (list.Pairwise _))

/-- After `del_id` no mask equal to the one it is given is left. -/
theorem Apart.delId {list : List NuhEntry} (h : Apart list) (id : List UInt8) :
    ∀ e ∈ delId id list, ircStrcmp id e.nuhstr ≠ 0 := by
  intro e he heq
  rcases List.exists_or_eq_self_of_eraseP (fun e : NuhEntry => ircStrcmp id e.nuhstr = 0) list with
    hself | ⟨a, front, back, hfront, ha, hlist, herase⟩
  · rw [TrIrcd.delId, hself] at he
    have hno := List.eraseP_eq_self_iff.mp hself e he
    exact hno (decide_eq_true heq)
  · rw [TrIrcd.delId, herase] at he
    rw [Apart, hlist, List.pairwise_append, List.pairwise_cons] at h
    have ha' : ircStrcmp id a.nuhstr = 0 := of_decide_eq_true ha
    rcases List.mem_append.mp he with hmem | hmem
    · exact hfront e hmem (decide_eq_true heq)
    · exact h.2.1.1 e hmem (ircStrcmp_trans ha' heq)

/-- The calls are of our users, with one limit. -/
def OursWithin (maxnums : Int) (ops : List MaskListOp) : Prop :=
  ∀ c, .add c ∈ ops → c.myClient = true ∧ c.maxnums = maxnums

/-- No mask is in the list twice, and so `del_id` leaves none that is equal to the one
it is given. -/
structure NoDuplicates (list : List NuhEntry) : Prop where
  apart : Apart list
  deleted : ∀ id, ∀ e ∈ delId id list, ircStrcmp id e.nuhstr ≠ 0

theorem noDuplicates_iff {list : List NuhEntry} : NoDuplicates list ↔ Apart list :=
  ⟨NoDuplicates.apart, fun h => ⟨h, h.delId⟩⟩

/-- If a mask equal to the new one is in the list, it is kept out: some mask accepts
it, or the list is full. -/
def KeptOut (list : List NuhEntry) : MaskListOp → Prop
  | .add c => (∃ e ∈ list, ircStrcmp e.nuhstr c.id = 0) →
      (∃ e ∈ list, ircMatch e.nuhstr c.id = 0) ∨ (c.myClient = true ∧ c.maxnums ≤ list.length)
  | .del _ => True

theorem addId_apart_iff {c : AddIdCall} {list : List NuhEntry} (h : Apart list) :
    Apart (addId ircMatch c.myClient c.id c.maxnums list).1 ↔ KeptOut list (.add c) := by
  rw [addId_eq]
  split
  · next hin =>
      refine List.pairwise_cons.trans ((and_iff_left h).trans ?_)
      constructor
      · rintro hne ⟨e, he, heq⟩
        exact absurd (ircStrcmp_comm heq) (hne e he)
      · intro hkept e he heq
        have hmem : list ≠ [] := List.ne_nil_of_mem he
        rcases hkept ⟨e, he, ircStrcmp_comm heq⟩ with ⟨e', he', hacc⟩ | ⟨hours, hfull⟩
        · exact hin.1 e' he' hacc
        · have := (hin.2 hours).resolve_left hmem
          omega
  · next hout =>
      refine iff_of_true h ?_
      rintro -
      by_contra hno
      rw [not_or, not_and] at hno
      refine hout ⟨fun e he hacc => hno.1 ⟨e, he, hacc⟩, fun hours => .inr ?_⟩
      have := hno.2 hours
      omega

theorem addId_limit {c : AddIdCall} {list : List NuhEntry} (hours : c.myClient = true)
    (hpos : 1 ≤ c.maxnums) (hlen : list.length ≤ c.maxnums) :
    (addId ircMatch c.myClient c.id c.maxnums list).1.length ≤ c.maxnums := by
  rw [addId_eq]
  split
  · next hin =>
      rw [List.length_cons]
      rcases hin.2 hours with rfl | hlt
      · exact hpos
      · omega
  · exact hlen

/-! ## Runs -/

theorem idStep_apart_iff {list list' : List NuhEntry} {o : MaskListOp} (h : Apart list)
    (hstep : idStep list o = .ok list') : Apart list' ↔ KeptOut list o := by
  cases o with
  | add c =>
      cases hstep
      exact addId_apart_iff h
  | del id =>
      cases hstep
      exact iff_of_true (h.sublist List.eraseP_sublist) trivial

theorem idStep_limit {list list' : List NuhEntry} {o : MaskListOp} {maxnums : Int} (hpos : 1 ≤ maxnums)
    (hours : ∀ c, o = .add c → c.myClient = true ∧ c.maxnums = maxnums)
    (hlen : list.length ≤ maxnums) (hstep : idStep list o = .ok list') :
    list'.length ≤ maxnums := by
  cases o with
  | add c =>
      cases hstep
      obtain ⟨hmy, rfl⟩ := hours c rfl
      exact addId_limit hmy hpos hlen
  | del id =>
      cases hstep
      have hle : (delId id list).length ≤ list.length := List.length_eraseP_le
      omega

/-- The limit is kept whatever the masks are. -/
theorem maskList_limit {ops : List MaskListOp} {maxnums : Int} (hpos : 1 ≤ maxnums)
    (hours : OursWithin maxnums ops) : ∀ {list list' : List NuhEntry}, list.length ≤ maxnums →
      run idStep list ops = .ok list' → list'.length ≤ maxnums := by
  induction ops with
  | nil =>
      intro list list' hlen hrun
      cases hrun
      exact hlen
  | cons o ops ih =>
      intro list list' hlen hrun
      obtain ⟨m, hm, hrest⟩ := run_cons_ok.mp hrun
      refine ih (fun c hc => hours c (List.mem_cons_of_mem _ hc)) ?_ hrest
      exact idStep_limit hpos (fun c hc => hours c (hc ▸ List.mem_cons_self)) hlen hm

/-- The limit holds in every run. No mask is in the list twice after any operation just
when every mask that has an equal one in the list is kept out. -/
theorem maskList_iff (ops : List MaskListOp) :
    (∀ (maxnums : Int) (list : List NuhEntry), 1 ≤ maxnums → OursWithin maxnums ops →
        run idStep [] ops = .ok list → list.length ≤ maxnums) ∧
      ((∀ pre list, pre <+: ops → run idStep [] pre = .ok list → NoDuplicates list) ↔
        Meets idStep KeptOut [] ops) := by
  constructor
  · intro maxnums list hpos hours hrun
    exact maskList_limit hpos hours (Int.le_trans (by decide) hpos) hrun
  · simp only [noDuplicates_iff]
    obtain ⟨list, hrun⟩ : ∃ list, run idStep [] ops = .ok list :=
      run_total (fun _ o => by cases o <;> exact ⟨_, rfl⟩) ops []
    exact @run_history_iff _ _ _ idStep _ (fun list _ => Apart list)
      (fun _ _ _ _ => idStep_apart_iff) ops [] list [] List.Pairwise.nil hrun

/-- The ban `a\b!*@*` is put in twice by one of our users. -/
theorem maskList_twice :
    ¬ ∀ (ops : List MaskListOp) (list : List NuhEntry),
      run idStep [] ops = .ok list → NoDuplicates list := by
  intro h
  have hapart := (h [.add ⟨true, [0x61, 0x5c, 0x62, 0x21, 0x2a, 0x40, 0x2a], 100⟩,
    .add ⟨true, [0x61, 0x5c, 0x62, 0x21, 0x2a, 0x40, 0x2a], 100⟩] _ rfl).apart
  revert hapart
  decide

/-! ## Masks that are kept out -/

theorem Covers.text {mask id : List UInt8} (h : Covers mask id) (hmask : 0x5c ∉ mask) :
    InMask mask id := by
  rw [InMask, maskToks_of_notMem hmask]
  clear hmask
  induction mask generalizing id with
  | nil => exact h
  | cons c mask ih =>
      rw [List.map_cons]
      by_cases hc : c = 0x2a
      · subst hc
        obtain ⟨v, hv, hm⟩ := h
        exact ⟨v, hv, ih hm⟩
      · have hstar : starTok c = .lit c := if_neg hc
        rw [Covers, List.map_cons, hstar] at h
        obtain ⟨d, v, rfl, ⟨-, htakes⟩, hm⟩ := h
        rw [plainTok, if_neg hc]
        split
        · exact ⟨d, v, rfl, ih hm⟩
        · next hmark => exact ⟨d, v, rfl, htakes.resolve_left hmark, ih hm⟩

end TrIrcd
