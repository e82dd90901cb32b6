import TrIrcd.Lib.Run
import TrIrcd.Proofs.NameTable
import TrIrcd.Proofs.Dlinks
import TrIrcd.Src.Maskitem

/-!
# Bans stay where they were put

A ban is on the list of its type, and in the one bucket of its type that it
names itself (`Placed`). Letting go of a ban takes it off both
(`dropItem_placed`), so a sweep over a list takes off those it is for and no
others (`sweepLoop_placed`), and the lookups, which sweep first, lose only what
has expired. The patterns of the store are never compiled, so a lookup for one
of the regex types finds nothing, and what is found for the others has the
string that was asked for.
-/

namespace TrIrcd

open Function (update)
open TrIrcd.Lib

namespace MaskSt

/-- The bans of type `t + 1`, by their list. -/
def items (s : MaskSt) (t : Nat) : List Nat := dlinkData t s.lists

/-- The bans in a bucket. -/
def chain (s : MaskSt) (k : Nat × Nat) : List Nat := s.maskhash.nodes k

/-- The lists link the nodes `V`, and every ban is where it should be. -/
structure Placed (s : MaskSt) (V : Nat → List Nat) : Prop where
  lists : Represents s.lists V
  chains : Chains s.maskhash s.chain
  used : ∀ t, ∀ ami ∈ s.items t, ami ∈ s.used
  type : ∀ t, ∀ ami ∈ s.items t, (s.item ami).type = t + 1
  hashval : ∀ t, ∀ ami ∈ s.items t, (s.item ami).hashval < maskMax
  rex : ∀ t, ∀ ami ∈ s.items t, (s.item ami).rex = []
  nodup : ∀ t, (s.items t).Nodup
  bucket : ∀ k ami, ami ∈ s.chain k ↔ ami ∈ s.items k.1 ∧ (s.item ami).hashval = k.2

variable {s : MaskSt} {V : Nat → List Nat} {t ptr ami : Nat}

theorem Placed.items_eq (h : Placed s V) (t : Nat) : s.items t = (V t).map s.lists.data :=
  h.lists.data t

/-- A ban is on one list only. -/
theorem Placed.apart (h : Placed s V) {t t' : Nat} (ht : ami ∈ s.items t)
    (ht' : ami ∈ s.items t') : t = t' :=
  Nat.succ.inj ((h.type t ami ht).symm.trans (h.type t' ami ht'))

theorem Placed.setClock (h : Placed s V) (now : Int) : Placed { s with clock := now } V :=
  ⟨h.lists, h.chains, h.used, h.type, h.hashval, h.rex, h.nodup, h.bucket⟩

/-! ## Letting go of a ban -/

/-- The table without a ban that is in the store. -/
theorem Placed.unhash (h : Placed s V) (ht : ami ∈ s.items t) :
    ∃ T, removeFromMaskitemHashtable ami s = { s with maskhash := T } ∧
      (Chains T fun k => T.nodes k) ∧ ∀ k x, x ∈ T.nodes k ↔ x ∈ s.chain k ∧ x ≠ ami := by
  have hin : ami ∈ s.chain ((s.item ami).type - 1, (s.item ami).hashval) := by
    rw [h.bucket, h.type t ami ht]
    exact ⟨ht, rfl⟩
  obtain ⟨T, hT, hc⟩ := h.chains.unlink hin
  have hmem : ∀ k x, x ∈ update s.chain ((s.item ami).type - 1, (s.item ami).hashval)
      ((s.chain ((s.item ami).type - 1, (s.item ami).hashval)).erase ami) k ↔
        x ∈ s.chain k ∧ x ≠ ami := by
    intro k x
    rw [mem_update_erase h.chains.nodup]
    refine and_congr_right fun hx => not_congr ⟨And.left, fun he => ⟨he, ?_⟩⟩
    rw [he] at hx
    exact h.chains.apart hx hin
  have hc' := hc.clearNext fun k hk => ((hmem k ami).mp hk).2 rfl
  refine ⟨T.clearNext ami, ?_, ?_, fun k x => ?_⟩
  · rw [removeFromMaskitemHashtable, hT]
  · rw [show (fun k => (T.clearNext ami).nodes k) = _ from funext fun k => hc'.nodes k]
    exact hc'
  · rw [hc'.nodes, hmem]

/-- Letting go of a ban: it is off its list, and all else is as it was. -/
theorem dropItem_placed (h : Placed s V) {as bs : List Nat} (hv : V t = as ++ ptr :: bs)
    (hami : s.lists.data ptr = ami) :
    Placed (dropItem ptr ami t s) (update V t (as ++ bs)) ∧
      (dropItem ptr ami t s).lists.data = s.lists.data ∧ (dropItem ptr ami t s).item = s.item ∧
      (dropItem ptr ami t s).clock = s.clock := by
  have hitems := h.items_eq t
  rw [hv, List.map_append, List.map_cons, hami] at hitems
  have hin : ami ∈ s.items t := by
    rw [hitems]
    exact List.mem_append_right _ (List.mem_cons_self ..)
  obtain ⟨T, hT, hc, hmem⟩ := h.unhash hin
  have hl := h.lists.deleteNode hv
  have hdata : (dlinkDeleteNode ptr t s.lists).data = s.lists.data := dlinkDelete_data ptr t s.lists
  have hs : dropItem ptr ami t s = { s with
      maskhash := T, lists := dlinkDeleteNode ptr t s.lists, used := s.used.erase ami } := by
    rw [dropItem, hT]
  have hsame : ∀ k, k ≠ t → (dropItem ptr ami t s).items k = s.items k := by
    intro k hk
    rw [h.items_eq k, hs]
    show dlinkData k (dlinkDeleteNode ptr t s.lists) = _
    rw [hl.data, hdata, Function.update_of_ne hk]
  have hself : (dropItem ptr ami t s).items t = (as ++ bs).map s.lists.data := by
    rw [hs]
    show dlinkData t (dlinkDeleteNode ptr t s.lists) = _
    rw [hl.data, hdata, Function.update_self]
  have hkeep : ∀ k x, x ∈ (dropItem ptr ami t s).items k ↔ x ∈ s.items k ∧ x ≠ ami := by
    intro k x
    by_cases hk : k = t
    · have hnd := h.nodup t
      rw [hitems] at hnd
      rw [hk, hself, hitems, List.map_append]
      have hnot := List.nodup_middle.mp hnd
      rw [List.nodup_cons] at hnot
      constructor
      · intro hx
        refine ⟨?_, fun he => hnot.1 (he ▸ hx)⟩
        rcases List.mem_append.mp hx with hx | hx
        · exact List.mem_append_left _ hx
        · exact List.mem_append_right _ (List.mem_cons_of_mem _ hx)
      · intro ⟨hx, hne⟩
        rcases List.mem_append.mp hx with hx | hx
        · exact List.mem_append_left _ hx
        · exact List.mem_append_right _ ((List.mem_cons.mp hx).resolve_left hne)
    · rw [hsame k hk]
      refine (and_iff_left_of_imp fun hx he => hk ?_).symm
      rw [he] at hx
      exact h.apart hx hin
  have hitem : (dropItem ptr ami t s).item = s.item := by rw [hs]
  refine ⟨⟨?_, ?_, ?_, ?_, ?_, ?_, ?_, ?_⟩, ?_, hitem, by rw [hs]⟩
  · rw [hs]
    exact hl
  · rw [hs]
    exact hc
  · intro k x hx
    obtain ⟨hx, hne⟩ := (hkeep k x).mp hx
    rw [hs]
    exact (List.mem_erase_of_ne hne).mpr (h.used k x hx)
  · intro k x hx
    rw [hitem]
    exact h.type k x ((hkeep k x).mp hx).1
  · intro k x hx
    rw [hitem]
    exact h.hashval k x ((hkeep k x).mp hx).1
  · intro k x hx
    rw [hitem]
    exact h.rex k x ((hkeep k x).mp hx).1
  · intro k
    by_cases hk : k = t
    · rw [hk, hself, List.map_append]
      have hnd := h.nodup t
      rw [hitems] at hnd
      exact (List.nodup_cons.mp (List.nodup_middle.mp hnd)).2
    · rw [hsame k hk]
      exact h.nodup k
  · intro k x
    have hchain : x ∈ (dropItem ptr ami t s).chain k ↔ x ∈ s.chain k ∧ x ≠ ami := by
      rw [hs]
      exact hmem k x
    rw [hchain, hkeep, h.bucket, hitem]
    tauto
  · rw [hs]
    exact hdata

/-! ## Sweeping -/

/-- What is left when the bans `out` are gone. -/
structure Swept (s s' : MaskSt) (out : Nat → Nat → Prop) : Prop where
  placed : ∃ V, Placed s' V
  item : s'.item = s.item
  clock : s'.clock = s.clock
  mem : ∀ k x, x ∈ s'.items k ↔ x ∈ s.items k ∧ ¬ out k x

theorem Placed.swept (h : Placed s V) : Swept s s fun _ _ => False :=
  ⟨⟨V, h⟩, rfl, rfl, fun _ _ => (and_iff_left not_false).symm⟩

theorem Swept.trans {s₁ s₂ : MaskSt} {out out' : Nat → Nat → Prop} (h : Swept s s₁ out)
    (h' : Swept s₁ s₂ out') : Swept s s₂ fun k x => out k x ∨ out' k x := by
  refine ⟨h'.placed, h'.item.trans h.item, h'.clock.trans h.clock, fun k x => ?_⟩
  rw [h'.mem, h.mem, and_assoc, not_or]

theorem Swept.congr {s' : MaskSt} {out out' : Nat → Nat → Prop} (h : Swept s s' out)
    (ho : ∀ k x, x ∈ s.items k → (out k x ↔ out' k x)) : Swept s s' out' := by
  refine ⟨h.placed, h.item, h.clock, fun k x => ?_⟩
  rw [h.mem]
  exact and_congr_right fun hx => not_congr (ho k x hx)

/-- Of the bans, the one in the node `ptr` is gone. -/
theorem dropItem_swept (h : Placed s V) {as bs : List Nat} (hv : V t = as ++ ptr :: bs)
    (hami : s.lists.data ptr = ami) :
    Swept s (dropItem ptr ami t s) fun k x => k = t ∧ x = ami := by
  obtain ⟨hp, hdata, hitem, hclock⟩ := dropItem_placed h hv hami
  refine ⟨⟨_, hp⟩, hitem, hclock, fun k x => ?_⟩
  rw [hp.items_eq, h.items_eq, hdata]
  by_cases hk : k = t
  · have hnd := h.nodup t
    rw [h.items_eq, hv, List.map_append, List.map_cons, hami] at hnd
    have hnot := (List.nodup_cons.mp (List.nodup_middle.mp hnd)).1
    rw [hk, Function.update_self, hv, List.map_append, List.map_append, List.map_cons, hami]
    simp only [List.mem_append, List.mem_cons, true_and] at hnot ⊢
    constructor
    · intro hx
      exact ⟨hx.imp id Or.inr, fun he => hnot (he ▸ hx)⟩
    · intro ⟨hx, hne⟩
      exact hx.imp id fun hx => hx.resolve_left hne
  · rw [Function.update_of_ne hk]
    exact (and_iff_left fun hx => hk hx.1).symm

/-- The loop that is at `ms` lets go of those of its bans that are `gone`. -/
theorem sweepLoop_placed (gone : MaskItem → Bool) (t : Nat) (ms : List Nat) :
    ∀ (fuel : Nat) (s : MaskSt) (V : Nat → List Nat) (as : List Nat), Placed s V →
      V t = as ++ ms → ms.length ≤ fuel →
      Swept s (sweepLoop gone t fuel ms.head? s)
        fun k x => k = t ∧ x ∈ ms.map s.lists.data ∧ gone (s.item x) = true := by
  induction ms with
  | nil =>
      intro fuel s V as h _ _
      have hs : sweepLoop gone t fuel none s = s := by cases fuel <;> rfl
      rw [List.head?_nil, hs]
      exact h.swept.congr fun k x _ => iff_of_false not_false fun hx => nomatch hx.2.1
  | cons ptr ms ih =>
      intro fuel s V as h hv hlen
      cases fuel with
      | zero => cases hlen
      | succ fuel =>
          have hnext : s.lists.next ptr = ms.head? := (h.lists.threaded.links hv).1
          have hlen' : ms.length ≤ fuel := Nat.le_of_succ_le_succ hlen
          simp only [List.head?_cons, sweepLoop, hnext]
          by_cases hg : gone (s.item (s.lists.data ptr)) = true
          · rw [if_pos hg]
            obtain ⟨hp, hdata, hitem, _⟩ := dropItem_placed h hv rfl
            have hdrop := dropItem_swept h hv rfl
            generalize dropItem ptr (s.lists.data ptr) t s = s₁ at hp hdata hitem hdrop ⊢
            have hrest := ih fuel s₁ _ as hp (Function.update_self ..) hlen'
            refine (hdrop.trans hrest).congr fun k x _ => ?_
            rw [hdata, hitem, List.map_cons, List.mem_cons]
            constructor
            · intro hx
              rcases hx with ⟨hk, he⟩ | ⟨hk, hx, hgx⟩
              · exact ⟨hk, Or.inl he, he ▸ hg⟩
              · exact ⟨hk, Or.inr hx, hgx⟩
            · intro ⟨hk, hx, hgx⟩
              exact hx.imp (fun he => ⟨hk, he⟩) fun hx => ⟨hk, hx, hgx⟩
          · rw [if_neg hg]
            have hv' : V t = (as ++ [ptr]) ++ ms := by rw [hv, List.append_assoc, List.singleton_append]
            refine (ih fuel s V _ h hv' hlen').congr fun k x _ => ?_
            rw [List.map_cons, List.mem_cons]
            refine and_congr_right fun _ => ⟨fun hx => ⟨Or.inr hx.1, hx.2⟩, fun hx => ⟨?_, hx.2⟩⟩
            exact hx.1.resolve_left fun he => hg (he ▸ hx.2)

theorem sweep_placed (h : Placed s V) (gone : MaskItem → Bool) (t : Nat) :
    Swept s (sweep gone t s) fun k x => k = t ∧ gone (s.item x) = true := by
  rw [sweep, (h.lists.dlist t).1.head_eq]
  have hv : V t = [] ++ V t := rfl
  refine (sweepLoop_placed gone t (V t) _ s V [] h hv (h.lists.length_le t)).congr fun k x hx => ?_
  refine and_congr_right fun hk => and_iff_right ?_
  rw [← h.items_eq, ← hk]
  exact hx

/-- The bans whose time has come go, and no others. -/
theorem expireMaskitems_placed (h : Placed s V) :
    Swept s (expireMaskitems s)
      fun k x => k < maskitemMask ∧ (s.item x).expired s.clock = true := by
  have hall : ∀ (l : List Nat) {s' : MaskSt} {out : Nat → Nat → Prop}, Swept s s' out →
      Swept s (l.foldl (fun s' i => sweep (MaskItem.expired s'.clock) i s') s')
        fun k x => out k x ∨ k ∈ l ∧ (s.item x).expired s.clock = true := by
    intro l
    induction l with
    | nil => exact fun hs => hs.congr fun k x _ => (or_iff_left fun hx => nomatch hx.1).symm
    | cons i l ih =>
        intro s' out hs
        obtain ⟨V', h'⟩ := hs.placed
        have hone := hs.trans (sweep_placed h' (MaskItem.expired s'.clock) i)
        refine (ih hone).congr fun k x _ => ?_
        rw [hs.item, hs.clock, List.mem_cons]
        tauto
  rw [expireMaskitems]
  have hrange := hall (List.range maskitemMask) h.swept
  refine hrange.congr fun k x _ => ?_
  rw [List.mem_range, or_iff_right not_false]

/-! ## A new ban -/

/-- A new ban is on its list and in its bucket, and no other ban is touched. -/
theorem addItem_placed (E : MaskEnv) (h : Placed s V) {hashval : Nat} (hh : hashval < maskMax)
    (string : List UInt8) (username : Option (List UInt8)) (len : UInt64) {type : Nat}
    (htype : 1 ≤ type) {r : Option Nat} {s' : MaskSt}
    (ha : addItem E type hashval string username len s = (r, s')) :
    (∃ V', Placed s' V') ∧
      (∀ k x, x ∈ s.items k → x ∈ s'.items k ∧ s'.item x = s.item x) ∧
      ∃ ami, r = some ami ∧ ami ∈ s'.items (type - 1) ∧ (s'.item ami).string = string := by
  simp only [addItem, Prod.mk.injEq] at ha
  obtain ⟨hr, hs⟩ := ha
  have hfresh := E.alloc.pick_fresh s.used
  generalize E.alloc.pick s.used = ami at hr hs hfresh
  have hnot : ∀ k, ami ∉ s.items k := fun k hx => hfresh (h.used k ami hx)
  have hold : Contents s.lists s.items := ⟨V, h.lists, h.items_eq⟩
  have hnew := hold.addNew E.alloc ami (type - 1)
  have hchains := h.chains.push (fun k hx => hnot k.1 ((h.bucket k ami).mp hx).1)
    (type - 1, hashval)
  have hitems : ∀ k, s'.items k = update s.items (type - 1) (ami :: s.items (type - 1)) k := by
    intro k
    rw [← hs]
    exact hnew.data k
  have hchain : ∀ k, s'.chain k =
      update s.chain (type - 1, hashval) (ami :: s.chain (type - 1, hashval)) k := by
    intro k
    rw [← hs]
    exact hchains.nodes k
  have hitem : ∀ k x, x ∈ s.items k → s'.item x = s.item x := by
    intro k x hx
    have hne : x ≠ ami := fun he => hnot k (he ▸ hx)
    rw [← hs]
    exact Function.update_of_ne hne ..
  have hself : s'.item ami = ⟨type, hashval, string, username, expirationOf len s, []⟩ := by
    rw [← hs]
    exact Function.update_self ..
  have hmem : ∀ k x, x ∈ s'.items k ↔ (x = ami ∧ k = type - 1) ∨ x ∈ s.items k := by
    intro k x
    rw [hitems]
    exact mem_update_cons
  obtain ⟨V', hV', hC'⟩ := hnew
  refine ⟨⟨V', ⟨?_, ?_, ?_, ?_, ?_, ?_, ?_, ?_⟩⟩, ?_, ami, hr.symm, ?_, by rw [hself]⟩
  · rw [← hs]
    exact hV'
  · rw [funext hchain, ← hs]
    exact hchains
  · intro k x hx
    rw [← hs]
    rcases (hmem k x).mp hx with hx | hx
    · exact List.mem_cons.mpr (Or.inl hx.1)
    · exact List.mem_cons_of_mem _ (h.used k x hx)
  · intro k x hx
    rcases (hmem k x).mp hx with ⟨hx, hk⟩ | hx
    · rw [hx, hself, hk]
      exact (Nat.sub_add_cancel htype).symm
    · rw [hitem k x hx]
      exact h.type k x hx
  · intro k x hx
    rcases (hmem k x).mp hx with ⟨hx, _⟩ | hx
    · rw [hx, hself]
      exact hh
    · rw [hitem k x hx]
      exact h.hashval k x hx
  · intro k x hx
    rcases (hmem k x).mp hx with ⟨hx, _⟩ | hx
    · rw [hx, hself]
    · rw [hitem k x hx]
      exact h.rex k x hx
  · intro k
    rw [hitems]
    exact nodup_update_cons h.nodup (hnot _) k
  · intro k x
    rw [hchain, hmem, mem_update_cons, h.bucket]
    by_cases hx : x = ami
    · have hout : ¬(ami ∈ s.items k.1 ∧ (s.item ami).hashval = k.2) := fun hin => hnot k.1 hin.1
      rw [hx, hself, or_iff_left hout, or_iff_left (hnot k.1)]
      simp only [true_and, Prod.ext_iff, eq_comm]
    · rw [or_iff_right fun he => hx he.1, or_iff_right fun he => hx he.1]
      refine and_congr_right fun hk => ?_
      rw [hitem k.1 x hk]
  · intro k x hx
    exact ⟨(hmem k x).mpr (Or.inr hx), hitem k x hx⟩
  · exact (hmem _ _).mpr (Or.inl ⟨rfl, rfl⟩)

/-- The new ban, and the only list it is on. -/
theorem addItem_new (E : MaskEnv) (h : Placed s V) (hashval : Nat) (string : List UInt8)
    (username : Option (List UInt8)) (len : UInt64) (type : Nat) {r : Option Nat} {s' : MaskSt}
    (ha : addItem E type hashval string username len s = (r, s')) :
    ∃ ami, r = some ami ∧ ami ∉ s.used ∧
      (∀ k, s'.items k = update s.items (type - 1) (ami :: s.items (type - 1)) k) ∧
      s'.item = update s.item ami ⟨type, hashval, string, username, expirationOf len s, []⟩ := by
  simp only [addItem, Prod.mk.injEq] at ha
  obtain ⟨rfl, rfl⟩ := ha
  have hold : Contents s.lists s.items := ⟨V, h.lists, h.items_eq⟩
  have hnew := hold.addNew E.alloc (E.alloc.pick s.used) (type - 1)
  exact ⟨_, rfl, E.alloc.pick_fresh s.used, hnew.data, rfl⟩

/-! ## Finding a ban -/

/-- `s'` is `s`, less bans whose time has come. -/
def Lapsed (s s' : MaskSt) : Prop :=
  ∃ out, Swept s s' out ∧ ∀ k x, out k x → (s.item x).expired s.clock = true

/-- A lookup lets go of no ban whose time has not come, and what it finds is on
the list it looks at, and is what it looks for. -/
theorem findMaskitem_placed (E : MaskEnv) (h : Placed s V) {string user : Option (List UInt8)}
    {type : Nat} {m : Bool} {r : Option Nat} {s' : MaskSt}
    (hf : findMaskitem E string user type m s = (r, s')) :
    Lapsed s s' ∧ ∀ ami, r = some ami → ami ∈ s'.items (type - 1) ∧
      ∃ text, string = some text ∧ foundBy E text user type m (s'.item ami) = true := by
  have hstay : Lapsed s s := ⟨_, h.swept, fun _ _ hx => hx.elim⟩
  cases string with
  | none =>
      cases hf
      exact ⟨hstay, fun _ hr => nomatch hr⟩
  | some text =>
      simp only [findMaskitem] at hf
      split at hf
      next =>
        cases hf
        exact ⟨hstay, fun _ hr => nomatch hr⟩
      next =>
        have hsw := expireMaskitems_placed h
        generalize expireMaskitems s = s₁ at hf hsw
        cases hf
        obtain ⟨V', h'⟩ := hsw.placed
        refine ⟨⟨_, hsw, fun k x hx => hx.2⟩, fun ami hr => ?_⟩
        rw [h'.lists.find, Option.map_eq_some_iff] at hr
        obtain ⟨ptr, hptr, hami⟩ := hr
        refine ⟨?_, text, rfl, ?_⟩
        · rw [h'.items_eq, ← hami]
          exact List.mem_map_of_mem (List.mem_of_find?_eq_some hptr)
        · obtain ⟨hp, _⟩ := List.find?_eq_some_iff_append.mp hptr
          rw [← hami]
          exact hp

/-- Where a lookup finds nothing, there is nothing to find. -/
theorem findMaskitem_none (E : MaskEnv) (h : Placed s V) {text : List UInt8}
    {user : Option (List UInt8)} {type : Nat} {m : Bool} {s' : MaskSt}
    (hf : findMaskitem E (some text) user type m s = (none, s')) (htext : cstr text ≠ []) :
    ∀ ami ∈ s'.items (type - 1), foundBy E text user type m (s'.item ami) = false := by
  simp only [findMaskitem, if_neg htext] at hf
  have hsw := expireMaskitems_placed h
  generalize expireMaskitems s = s₁ at hf hsw
  obtain ⟨V', h'⟩ := hsw.placed
  obtain ⟨hnone, rfl⟩ := Prod.mk.inj hf
  rw [h'.lists.find, Option.map_eq_none_iff] at hnone
  intro ami hami
  rw [h'.items_eq, List.mem_map] at hami
  obtain ⟨ptr, hptr, rfl⟩ := hami
  simpa using List.find?_eq_none.mp hnone ptr hptr

/-- A ban of the store that is found by equality has the string. -/
theorem Placed.string_eq (E : MaskEnv) (h : Placed s V) {text : List UInt8}
    {user : Option (List UInt8)} {type : Nat} (hami : ami ∈ s.items t)
    (hf : foundBy E text user type false (s.item ami) = true) :
    ircStrcmp (s.item ami).string text = 0 := by
  simp only [foundBy, Bool.false_eq_true, if_false] at hf
  split at hf
  next =>
    rw [Bool.and_eq_true] at hf
    exact of_decide_eq_true hf.1
  next =>
    -- No pattern of the store is compiled, and an empty one matches nothing.
    have hno : iregMatch E (s.item ami) text = 0 := by
      rw [iregMatch, h.rex t ami hami]
      rfl
    rw [hno] at hf
    cases hf

theorem removeFromMaskitemHashtable_lists :
    (removeFromMaskitemHashtable ami s).lists = s.lists := by
  rw [removeFromMaskitemHashtable]
  split <;> rfl

/-- Terminating lets go, beside bans whose time has come, of one with the
string at most. -/
theorem terminateMaskitem_placed (E : MaskEnv) (h : Placed s V)
    (string user : Option (List UInt8)) (type : Nat) :
    ∃ out, Swept s (terminateMaskitem E string user type s) out ∧ ∀ k x, out k x →
      (s.item x).expired s.clock = true ∨ k = type - 1 ∧ ∃ text, string = some text ∧
        ircStrcmp (s.item x).string text = 0 := by
  rw [terminateMaskitem]
  generalize hf : findMaskitem E string user type false s = found
  obtain ⟨r, s₁⟩ := found
  obtain ⟨⟨out, hsw, hout⟩, hfound⟩ := findMaskitem_placed E h hf
  cases r with
  | none => exact ⟨out, hsw, fun k x hx => Or.inl (hout k x hx)⟩
  | some ami =>
      obtain ⟨V', h'⟩ := hsw.placed
      obtain ⟨hin, text, htext, hby⟩ := hfound ami rfl
      have hstring := h'.string_eq E hin hby
      rw [h'.items_eq, List.mem_map] at hin
      obtain ⟨m, hm, hdata⟩ := hin
      have hsome : ((V' (type - 1)).find? fun m => decide (s₁.lists.data m = ami)).isSome := by
        rw [List.find?_isSome]
        exact ⟨m, hm, decide_eq_true hdata⟩
      obtain ⟨ptr, hptr⟩ := Option.isSome_iff_exists.mp hsome
      obtain ⟨hpd, as, bs, hv, _⟩ := List.find?_eq_some_iff_append.mp hptr
      have hdrop : { removeFromMaskitemHashtable ami s₁ with
          lists := dlinkDeleteFirst (type - 1) (fun x => decide (x = ami))
            (removeFromMaskitemHashtable ami s₁).lists
          used := (removeFromMaskitemHashtable ami s₁).used.erase ami } =
          dropItem ptr ami (type - 1) s₁ := by
        rw [dropItem, dlinkDeleteFirst, removeFromMaskitemHashtable_lists, h'.lists.find, hptr]
      have hgone := hsw.trans (dropItem_swept h' hv (of_decide_eq_true hpd))
      rw [← hdrop] at hgone
      refine ⟨_, hgone, ?_⟩
      · intro k x hx
        rcases hx with hx | ⟨hk, hx⟩
        · exact Or.inl (hout k x hx)
        · rw [hx, ← hsw.item]
          exact Or.inr ⟨hk, text, htext, hstring⟩

theorem hashIpv4_lt {addr : UInt32} {bits : Int} {hashval : Nat}
    (h : hashIpv4 addr bits = .ok hashval) : hashval < maskMax := by
  rw [hashIpv4] at h
  split at h
  next =>
    cases h
    exact Nat.lt_succ_of_le Nat.and_le_right
  next => cases h

theorem hashString_lt (text : List UInt8) : hashString text < maskMax :=
  Nat.lt_succ_of_le Nat.and_le_right

theorem maskHash_lt {text : List UInt8} {m : Netmask} {hashval : Nat}
    (h : maskHash text m = .ok hashval) : hashval < maskMax := by
  cases m with
  | host =>
      cases h
      exact hashString_lt text
  | ipv4 addr bits => exact hashIpv4_lt h

/-- Why `create_maskitem` makes no ban: there is no string, no user for a ban
on users, or no address for a z-line. -/
def NoBan (string user : Option (List UInt8)) (type : Nat) : Prop :=
  string = none ∨ (isUserMask type = true ∧ user = none) ∨
    isZapline type = true ∧ ∃ text, string = some text ∧ parseNetmask text = .ok .host

theorem newItem_cases {E : MaskEnv} {string user : Option (List UInt8)} {type : Nat}
    {len : UInt64} {r : Option Nat} {s' : MaskSt}
    (h : newItem E string user type len s = .ok (r, s')) :
    (r = none ∧ s' = s ∧ NoBan string user type) ∨
      ∃ text hashval username, string = some text ∧ hashval < maskMax ∧
        addItem E type hashval text username len s = (r, s') := by
  cases string with
  | none =>
      refine Or.inl ?_
      have hnone : r = none ∧ s' = s := by
        cases user with
        | none =>
            simp only [newItem, ite_self] at h
            cases h
            exact ⟨rfl, rfl⟩
        | some user =>
            simp only [newItem] at h
            split at h
            next =>
              cases h
              exact ⟨rfl, rfl⟩
            next =>
              split at h
              next =>
                cases h
                exact ⟨rfl, rfl⟩
              next =>
                split at h <;> cases h
                exact ⟨rfl, rfl⟩
      exact ⟨hnone.1, hnone.2, Or.inl rfl⟩
  | some text =>
      simp only [newItem] at h
      split at h
      next huser =>
        cases user with
        | none =>
            cases h
            exact Or.inl ⟨rfl, rfl, Or.inr (Or.inl ⟨huser, rfl⟩)⟩
        | some user =>
            obtain ⟨m, _, h⟩ := bind_ok_iff.mp h
            obtain ⟨hashval, hh, h⟩ := map_ok_iff.mp h
            exact Or.inr ⟨text, hashval, some user, rfl, maskHash_lt hh, h⟩
      next =>
        split at h
        next hzap =>
          obtain ⟨m, hm, h⟩ := bind_ok_iff.mp h
          cases m with
          | host =>
              cases h
              exact Or.inl ⟨rfl, rfl, Or.inr (Or.inr ⟨hzap, text, rfl, hm⟩)⟩
          | ipv4 addr bits =>
              obtain ⟨hashval, hh, h⟩ := map_ok_iff.mp h
              exact Or.inr ⟨text, hashval, none, rfl, hashIpv4_lt hh, h⟩
        next =>
          split at h
          next =>
            cases h
            exact Or.inr ⟨text, _, user, rfl, hashString_lt text, rfl⟩
          next =>
            cases h
            exact Or.inr ⟨text, _, none, rfl, hashString_lt text, rfl⟩

/-! ## Calls -/

/-- What a call may answer, and why a ban of type `t + 1` may go in it. -/
def MayAnswer (call : MaskCall) (r : Option Nat) (s' : MaskSt) : Prop :=
  match call with
  | .create string user type _ =>
      (r = none ∧ NoBan string user type) ∨ ∃ ami text, r = some ami ∧ string = some text ∧
        ami ∈ s'.items (type - 1) ∧ ircStrcmp (s'.item ami).string text = 0
  | _ => True

def MayGo (call : MaskCall) (s : MaskSt) (t ami : Nat) : Prop :=
  (s.item ami).expired s.clock = true ∨ match call with
    | .terminate string _ type =>
        t = type - 1 ∧ ∃ text, string = some text ∧ ircStrcmp (s.item ami).string text = 0
    | .rehash type => t = type - 1
    | _ => False

/-- What a call does to the bans. -/
structure Performed (call : MaskCall) (s : MaskSt) (r : Option Nat) (s' : MaskSt) : Prop where
  placed : ∃ V, Placed s' V
  answer : MayAnswer call r s'
  kept : ∀ t, ∀ ami ∈ s.items t,
    (ami ∈ s'.items t ∧ s'.item ami = s.item ami) ∨ MayGo call s t ami

theorem Swept.kept {s' : MaskSt} {out : Nat → Nat → Prop} (call : MaskCall)
    (h : Swept s s' out) (hout : ∀ k x, out k x → MayGo call s k x) :
    ∀ t, ∀ ami ∈ s.items t,
      (ami ∈ s'.items t ∧ s'.item ami = s.item ami) ∨ MayGo call s t ami := by
  intro t ami hin
  by_cases hgo : out t ami
  · exact Or.inr (hout t ami hgo)
  · exact Or.inl ⟨(h.mem t ami).mpr ⟨hin, hgo⟩, congrFun h.item ami⟩

theorem createMaskitem_performed (E : MaskEnv) (h : Placed s V)
    {string user : Option (List UInt8)} {type : Nat} {len : UInt64} {r : Option Nat}
    {s' : MaskSt} (htype : 1 ≤ type)
    (hc : createMaskitem E string user type len s = .ok (r, s')) :
    Performed (.create string user type len) s r s' := by
  rw [createMaskitem] at hc
  generalize hf : findMaskitem E string user type false s = found at hc
  obtain ⟨r₁, s₁⟩ := found
  obtain ⟨⟨out, hsw, hout⟩, hfound⟩ := findMaskitem_placed E h hf
  have hkept := hsw.kept (.create string user type len) fun k x hx => Or.inl (hout k x hx)
  obtain ⟨V₁, h₁⟩ := hsw.placed
  cases r₁ with
  | some ami =>
      cases hc
      obtain ⟨hin, text, htext, hby⟩ := hfound ami rfl
      exact ⟨⟨V₁, h₁⟩, Or.inr ⟨ami, text, rfl, htext, hin, h₁.string_eq E hin hby⟩, hkept⟩
  | none =>
      rcases newItem_cases hc with ⟨hr, hs, hno⟩ | ⟨text, hashval, username, htext, hh, ha⟩
      · rw [hs]
        exact ⟨⟨V₁, h₁⟩, Or.inl ⟨hr, hno⟩, hkept⟩
      · obtain ⟨hp, hold, ami, hr, hin, hstring⟩ := addItem_placed E h₁ hh text username len htype ha
        refine ⟨hp, Or.inr ⟨ami, text, hr, htext, hin, ?_⟩, fun t x hx => ?_⟩
        · rw [hstring]
          exact ircStrcmp_eq_zero.mpr rfl
        · refine (hkept t x hx).imp (fun hx => ?_) id
          obtain ⟨hin', hitem⟩ := hold t x hx.1
          exact ⟨hin', hitem.trans hx.2⟩

theorem perform_performed (E : MaskEnv) (h : Placed s V) {call : MaskCall} {r : Option Nat}
    {s' : MaskSt} (hvalid : call.type.all (fun type => 1 ≤ type && type ≤ maskitemMask) = true)
    (hc : perform E s call = .ok (r, s')) : Performed call s r s' := by
  cases call with
  | create string user type len =>
      simp only [MaskCall.type, Option.all_some, Bool.and_eq_true, decide_eq_true_eq] at hvalid
      exact createMaskitem_performed E h hvalid.1 hc
  | find string user type m =>
      obtain ⟨⟨out, hsw, hout⟩, _⟩ := findMaskitem_placed E h (Except.ok.inj hc)
      exact ⟨hsw.placed, trivial, hsw.kept _ fun k x hx => Or.inl (hout k x hx)⟩
  | terminate string user type =>
      cases hc
      obtain ⟨out, hsw, hout⟩ := terminateMaskitem_placed E h string user type
      exact ⟨hsw.placed, trivial, hsw.kept _ hout⟩
  | expire =>
      cases hc
      have hsw := expireMaskitems_placed h
      exact ⟨hsw.placed, trivial, hsw.kept _ fun k x hx => Or.inl hx.2⟩
  | rehash type =>
      cases hc
      have hsw := sweep_placed h (fun _ => true) (type - 1)
      exact ⟨hsw.placed, trivial, hsw.kept _ fun k x hx => Or.inr hx.1⟩

/-! ## Runs -/

theorem init_placed (clock : Int) : Placed (init clock) fun _ => [] := by
  have hl : Represents (init clock).lists fun _ => [] := by
    obtain ⟨V, hV, hC⟩ := Contents.empty (ι := Nat) 0
    have hnil : V = fun _ => [] := funext fun l => List.map_eq_nil_iff.mp (hC l).symm
    rw [hnil] at hV
    exact hV
  have hitems : ∀ t, (init clock).items t = [] := fun t => hl.data t
  have hchain : (init clock).chain = fun _ => [] := funext fun k => Chains.empty.nodes k
  refine ⟨hl, ?_, ?_, ?_, ?_, ?_, ?_, ?_⟩
  · rw [hchain]
    exact Chains.empty
  all_goals simp only [hitems, hchain, List.not_mem_nil, false_and, implies_true,
    List.nodup_nil, forall_false]

end MaskSt

open MaskSt

/-- The list of each type and its chains hold the same bans, each once. -/
structure Stored (s : MaskSt) : Prop where
  list : ∀ t, (s.items t).Nodup
  chain : ∀ k, (s.chain k).Nodup
  once : ∀ t ami, ami ∈ s.items t ↔ ∃! hashval, hashval < maskMax ∧ ami ∈ s.chain (t, hashval)

theorem MaskSt.Placed.stored {s : MaskSt} {V : Nat → List Nat} (h : Placed s V) : Stored s := by
  refine ⟨h.nodup, h.chains.nodup, fun t ami => ⟨fun hin => ?_, fun ⟨hashval, hin, _⟩ => ?_⟩⟩
  · refine ⟨(s.item ami).hashval, ⟨h.hashval t ami hin, (h.bucket _ ami).mpr ⟨hin, rfl⟩⟩, ?_⟩
    intro hashval ⟨_, hin'⟩
    exact ((h.bucket _ ami).mp hin').2.symm
  · exact ((h.bucket _ ami).mp hin.2).1

/-- In every store that calls can make, bans are where they should be. -/
theorem run_placed (E : MaskEnv) {clock : Int} {ops : List MaskOp} {s : MaskSt}
    (hrun : run (step E) (init clock) ops = .ok s) : ∃ V, Placed s V := by
  refine run_invariant (I := fun s => ∃ V, Placed s V) (fun s op s' h hstep => ?_) ops
    ⟨_, init_placed clock⟩ hrun
  obtain ⟨V, h⟩ := h
  simp only [step] at hstep
  split at hstep
  next => cases hstep
  next =>
    split at hstep
    next hv =>
      obtain ⟨⟨r, s₁⟩, hp, hs⟩ := map_ok_iff.mp hstep
      rw [← hs]
      exact (perform_performed E (h.setClock op.now) hv hp).placed
    next => cases hstep

/-- In any run bans are on their list and in one bucket of their type. A call
at a time that does not go back answers what it should, and a ban goes only
because its time has come or the call is there to let go of it. -/
theorem bans_kept (E : MaskEnv) (clock : Int) (ops : List MaskOp) {s : MaskSt}
    (hrun : run (step E) (init clock) ops = .ok s) (op : MaskOp) {r : Option Nat} {s' : MaskSt}
    (hvalid : op.call.type.all (fun type => 1 ≤ type && type ≤ maskitemMask) = true)
    (hcall : perform E { s with clock := op.now } op.call = .ok (r, s')) :
    Stored s ∧ Stored s' ∧ MayAnswer op.call r s' ∧ ∀ t, ∀ ami ∈ s.items t,
      (ami ∈ s'.items t ∧ s'.item ami = s.item ami) ∨
        MayGo op.call { s with clock := op.now } t ami := by
  obtain ⟨V, h⟩ := run_placed E hrun
  have hp := perform_performed E (h.setClock op.now) hvalid hcall
  obtain ⟨V', h'⟩ := hp.placed
  exact ⟨h.stored, h'.stored, hp.answer, hp.kept⟩

section Samples

/-- Nothing matches. -/
def plainMasks : MaskEnv where
  alloc := Allocator.bump
  maskMatch _ _ := 1
  reMatch _ _ := -1

/-- `10.0.0.0/8` and `1.2.3.4`. -/
def netText : List UInt8 := [0x31, 0x30, 0x2e, 0x30, 0x2e, 0x30, 0x2e, 0x30, 0x2f, 0x38]

def hostText : List UInt8 := [0x31, 0x2e, 0x32, 0x2e, 0x33, 0x2e, 0x34]

/-- A K-line for a network, and a z-line that lasts a minute. -/
def banOps : List MaskOp :=
  [⟨100, .create (some netText) (some [0x2a]) 1 0⟩, ⟨110, .create (some hostText) none 5 60⟩]

/-- Terminating the K-line a minute later, when the z-line has come to its end. -/
theorem bans_kept_sample : ∃ s r s', run (step plainMasks) (init 100) banOps = .ok s ∧
    perform plainMasks { s with clock := 170 } (.terminate (some netText) none 1) = .ok (r, s') ∧
    s.items 0 = [1] ∧ s.items 4 = [2] ∧ s'.items 0 = [] ∧ s'.items 4 = [] ∧
    Stored s ∧ Stored s' := by
  refine ⟨_, _, _, rfl, rfl, by rfl, by rfl, by rfl, by rfl, ?_⟩
  have hkept := bans_kept plainMasks 100 banOps rfl
    ⟨170, .terminate (some netText) none 1⟩ rfl rfl
  exact ⟨hkept.1, hkept.2.1⟩

/-- A K-line without a user is not made. -/
theorem userless_not_made :
    (createMaskitem plainMasks (some hostText) none 1 0 (init 100)).map (·.1) = .ok none ∧
      isZapline 1 = false := by
  decide

end Samples

end TrIrcd
