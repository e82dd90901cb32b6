import TrIrcd.Lib.Run
import TrIrcd.Lib.Toggle
import TrIrcd.Proofs.Dlinks
import TrIrcd.Src.Allow

/-!
# The allow lists answer each other

A pair of users is on two lists, one of each, or on none. `add` and `del`
change both (`Paired.toggled`). A loop of the cleanup functions empties one
list and takes the user off those that answer it; it shrinks lists and keeps
the pairs (`removeGiven_paired`, `removeGivenBy_paired`). Six of them leave
the user with nothing, and so, the lists being in step, nobody with the user.
-/

namespace TrIrcd

open Function (update)
open TrIrcd.Lib

/-! ## The loops -/

namespace AllowSt

variable {own list : AllowList} {other : Nat → AllowList} {sptr : Nat}

theorem unlinkLoop_represents (list : AllowList) (sptr : Nat) (note : List AllowMsg)
    (ms : List Nat) : ∀ {fuel : Nat} {s : AllowSt} {V : AllowList → List Nat} {as : List Nat},
      Represents s.dl V → V list = as ++ ms → ms.length ≤ fuel →
      let s' := unlinkLoop list sptr note fuel ms.head? s
      Represents s'.dl (update V list (as ++ ms.filter fun m => s.dl.data m ≠ sptr)) ∧
        s'.dl.data = s.dl.data ∧ s'.persons = s.persons := by
  induction ms with
  | nil =>
      intro fuel s V as hV hv _
      have hs : unlinkLoop list sptr note fuel none s = s := by cases fuel <;> rfl
      simp only [List.head?_nil, hs, List.filter_nil, ← hv, Function.update_eq_self]
      exact ⟨hV, trivial, trivial⟩
  | cons m ms ih =>
      intro fuel s V as hV hv hlen
      cases fuel with
      | zero => cases hlen
      | succ fuel =>
          have hnext : s.dl.next m = ms.head? := (hV.threaded.links hv).1
          have hlen' : ms.length ≤ fuel := Nat.le_of_succ_le_succ hlen
          simp only [List.head?_cons, unlinkLoop, hnext]
          by_cases hm : s.dl.data m = sptr
          · have hdata : (dlinkDeleteNode m list s.dl).data = s.dl.data := dlinkDelete_data m list s.dl
            rw [if_pos hm, List.filter_cons_of_neg (by simp [hm])]
            have hrest := @ih fuel
              { s with dl := dlinkDeleteNode m list s.dl, sent := note ++ s.sent } _ as
              (hV.deleteNode hv) (by rw [Function.update_self]) hlen'
            simp only [Function.update_idem, hdata] at hrest
            exact hrest
          · rw [if_neg hm, List.filter_cons_of_pos (by simp [hm])]
            have hrest := @ih fuel s V (as ++ [m]) hV (by rw [hv]; simp) hlen'
            simp only [List.append_assoc, List.singleton_append] at hrest
            exact hrest

theorem unlinkList_represents (list : AllowList) (sptr : Nat) (note : List AllowMsg) {s : AllowSt}
    {V : AllowList → List Nat} (hV : Represents s.dl V) :
    let s' := unlinkLoop list sptr note s.dl.used.length (s.dl.head list) s
    Represents s'.dl (update V list ((V list).filter fun m => s.dl.data m ≠ sptr)) ∧
      s'.dl.data = s.dl.data ∧ s'.persons = s.persons := by
  rw [(hV.dlist list).1.head_eq]
  exact @unlinkLoop_represents list sptr note (V list) _ s V [] hV rfl (hV.length_le list)

/-- The list is empty, and `sptr` is off the lists that answer it. -/
theorem removeLoop_represents (other : Nat → AllowList) (note : Nat → List AllowMsg) (sptr : Nat)
    (hne : ∀ d, other d ≠ own) (ms : List Nat) :
    ∀ {fuel : Nat} {s : AllowSt} {V : AllowList → List Nat}, Represents s.dl V → V own = ms →
      ms.length ≤ fuel →
      let s' := removeLoop own other note sptr fuel ms.head? s
      ∃ V', Represents s'.dl V' ∧ s'.dl.data = s.dl.data ∧ s'.persons = s.persons ∧
        V' own = [] ∧ ∀ l, l ≠ own → V' l = if l ∈ (ms.map s.dl.data).map other then
          (V l).filter (fun m => s.dl.data m ≠ sptr) else V l := by
  induction ms with
  | nil =>
      intro fuel s V hV hv _
      have hs : removeLoop own other note sptr fuel none s = s := by cases fuel <;> rfl
      simp only [List.head?_nil, hs]
      exact ⟨V, hV, trivial, trivial, hv, fun l _ => rfl⟩
  | cons m ms ih =>
      intro fuel s V hV hv hlen
      cases fuel with
      | zero => cases hlen
      | succ fuel =>
          have hv' : V own = [] ++ m :: ms := hv
          have hnext : s.dl.next m = ms.head? := (hV.threaded.links hv').1
          simp only [List.head?_cons, removeLoop, hnext]
          obtain ⟨hV₁, hdata₁, hper₁⟩ :=
            unlinkList_represents (other (s.dl.data m)) sptr (note (s.dl.data m)) hV
          generalize unlinkLoop (other (s.dl.data m)) sptr (note (s.dl.data m)) s.dl.used.length
            (s.dl.head (other (s.dl.data m))) s = s₁ at hV₁ hdata₁ hper₁ ⊢
          have hv₁ : update V (other (s.dl.data m))
              ((V (other (s.dl.data m))).filter fun m => s.dl.data m ≠ sptr) own = [] ++ m :: ms := by
            rw [Function.update_of_ne (hne _).symm, hv, List.nil_append]
          have hdata₂ : (dlinkDeleteNode m own s₁.dl).data = s.dl.data :=
            (dlinkDelete_data m own s₁.dl).trans hdata₁
          obtain ⟨V', hV', hdata', hper', hown, hl⟩ := @ih fuel
            { s₁ with dl := dlinkDeleteNode m own s₁.dl } _ (hV₁.deleteNode hv₁)
            (Function.update_self ..) (Nat.le_of_succ_le_succ hlen)
          refine ⟨V', hV', hdata'.trans hdata₂, hper'.trans hper₁, hown, fun l hlo => ?_⟩
          rw [hl l hlo, Function.update_of_ne hlo]
          simp only [hdata₂, List.map_cons, List.mem_cons]
          -- The first client's list is filtered now, and perhaps once more.
          by_cases ha : l = other (s.dl.data m)
          · rw [← ha, Function.update_self, if_pos (Or.inl rfl), List.filter_filter]
            simp only [Bool.and_self, ite_self]
          · rw [Function.update_of_ne ha]
            simp only [ha, false_or]

/-- The lists, as the clients on them. -/
def lists (s : AllowSt) (l : AllowList) : List Nat := dlinkData l s.dl

theorem lists_of_contents {s : AllowSt} {C : AllowList → List Nat} (h : Contents s.dl C) :
    s.lists = C := funext fun l => h.data l

theorem removeLoop_lists {s : AllowSt} (h : Contents s.dl s.lists) (note : Nat → List AllowMsg)
    (own : AllowList) (other : Nat → AllowList) (sptr : Nat) (hne : ∀ d, other d ≠ own) :
    let s' := removeLoop own other note sptr s.dl.used.length (s.dl.head own) s
    Contents s'.dl s'.lists ∧ s'.persons = s.persons ∧ s'.lists own = [] ∧
      ∀ l, l ≠ own → s'.lists l = if l ∈ (s.lists own).map other then
        (s.lists l).filter (· ≠ sptr) else s.lists l := by
  obtain ⟨V, hV, hC⟩ := h
  rw [(hV.dlist own).1.head_eq]
  obtain ⟨V', hV', hdata, hper, hown, hl⟩ :=
    removeLoop_represents other note sptr hne (V own) hV rfl (hV.length_le own)
  have hc := Contents.data (C := fun l => (V' l).map s.dl.data)
    ⟨V', hV', fun l => by rw [hdata]⟩
  refine ⟨⟨V', hV', fun l => ?_⟩, hper, ?_, fun l hlo => ?_⟩
  · rw [lists, hc, hdata]
  · rw [lists, hc, hown]
    rfl
  · rw [lists, hc, hl l hlo, hC own, hC l]
    split
    · rw [List.filter_map]
      rfl
    · rfl

end AllowSt

open AllowSt

/-! ## Pairs -/

/-- The lists are linked, and every pair is on both its lists, once. -/
structure Paired (s : AllowSt) : Prop where
  contents : Contents s.dl s.lists
  symm : ∀ a x y, y ∈ s.lists (.given a x) ↔ x ∈ s.lists (.givenBy a y)
  once : ∀ l, (s.lists l).Nodup
  person : ∀ a x y, y ∈ s.lists (.given a x) → x ∈ s.persons ∧ y ∈ s.persons

/-- Lists have only lost clients. -/
def Shrunk (s s' : AllowSt) : Prop :=
  (∀ l, (s'.lists l).Sublist (s.lists l)) ∧ s'.persons = s.persons

theorem Shrunk.trans {s s' s'' : AllowSt} (h : Shrunk s s') (h' : Shrunk s' s'') : Shrunk s s'' :=
  ⟨fun l => (h'.1 l).trans (h.1 l), h'.2.trans h.2⟩

theorem Shrunk.nil {s s' : AllowSt} (h : Shrunk s s') {l : AllowList} (hl : s.lists l = []) :
    s'.lists l = [] := List.sublist_nil.mp (hl ▸ h.1 l)

variable {s : AllowSt} {a : Allow} {c sptr cptr : Nat}

theorem Paired.of_shrunk {s' : AllowSt} (h : Paired s) (hs : Shrunk s s')
    (hc : Contents s'.dl s'.lists)
    (hsymm : ∀ a x y, y ∈ s'.lists (.given a x) ↔ x ∈ s'.lists (.givenBy a y)) : Paired s' :=
  ⟨hc, hsymm, fun l => (h.once l).sublist (hs.1 l),
    fun a x y hy => hs.2.symm ▸ h.person a x y ((hs.1 _).subset hy)⟩

/-- What a loop does to the pairs, whichever side `f` it runs over: those of
`sptr` on that side go. -/
theorem removeLoop_pairs {f g : Allow → Nat → AllowList} (hfg : ∀ b x d y, g d y ≠ f b x)
    (hf : ∀ {b x d y}, f b x = f d y → b = d ∧ x = y)
    (hg : ∀ {b x d y}, g b x = g d y → b = d ∧ x = y) (hc : Contents s.dl s.lists)
    (hsymm : ∀ b x y, y ∈ s.lists (f b x) ↔ x ∈ s.lists (g b y)) (note : Nat → List AllowMsg)
    (a : Allow) (sptr : Nat) :
    let s' := removeLoop (f a sptr) (g a) note sptr s.dl.used.length (s.dl.head (f a sptr)) s
    Contents s'.dl s'.lists ∧ Shrunk s s' ∧ s'.lists (f a sptr) = [] ∧
      ∀ b x y, y ∈ s'.lists (f b x) ↔ x ∈ s'.lists (g b y) := by
  obtain ⟨hc', hper, hown, hl⟩ := removeLoop_lists hc note (f a sptr) (g a) sptr
    fun d => hfg a sptr a d
  have hsub : ∀ l, ((removeLoop (f a sptr) (g a) note sptr s.dl.used.length
      (s.dl.head (f a sptr)) s).lists l).Sublist (s.lists l) := by
    intro l
    by_cases hlo : l = f a sptr
    · rw [hlo, hown]
      exact List.nil_sublist _
    · rw [hl l hlo]
      split
      · exact List.filter_sublist
      · exact List.Sublist.refl _
  refine ⟨hc', ⟨hsub, hper⟩, hown, fun b x y => ?_⟩
  -- Both sides lose the pairs of `sptr`, and only them.
  have hleft : y ∈ (removeLoop (f a sptr) (g a) note sptr s.dl.used.length
      (s.dl.head (f a sptr)) s).lists (f b x) ↔ ¬ (b = a ∧ x = sptr) ∧ y ∈ s.lists (f b x) := by
    by_cases hlo : f b x = f a sptr
    · rw [hlo, hown]
      exact iff_of_false List.not_mem_nil fun h => h.1 (hf hlo)
    · rw [hl _ hlo, if_neg]
      · exact (and_iff_right fun h => hlo (by rw [h.1, h.2])).symm
      · intro hm
        obtain ⟨d, -, hd⟩ := List.mem_map.mp hm
        exact hfg b x a d hd
  have hright : x ∈ (removeLoop (f a sptr) (g a) note sptr s.dl.used.length
      (s.dl.head (f a sptr)) s).lists (g b y) ↔ ¬ (b = a ∧ x = sptr) ∧ x ∈ s.lists (g b y) := by
    rw [hl _ (hfg a sptr b y)]
    split
    · next hm =>
        obtain ⟨d, -, hd⟩ := List.mem_map.mp hm
        obtain ⟨rfl, rfl⟩ := hg hd
        simp only [List.mem_filter, decide_eq_true_eq, true_and, and_comm]
    · next hm =>
        refine (and_iff_right_of_imp fun hx h => hm ?_).symm
        obtain ⟨rfl, rfl⟩ := h
        exact List.mem_map_of_mem ((hsymm b x y).mpr hx)
  rw [hleft, hright, hsymm]

/-- `sptr` allows nobody any more. -/
theorem removeGiven_paired (h : Paired s) (a : Allow) (sptr : Nat) :
    Paired (s.removeGiven a sptr) ∧ Shrunk s (s.removeGiven a sptr) ∧
      (s.removeGiven a sptr).lists (.given a sptr) = [] := by
  obtain ⟨hc, hs, hnil, hsymm⟩ := removeLoop_pairs (f := .given) (g := .givenBy)
    (fun _ _ _ _ => AllowList.noConfusion) AllowList.given.inj AllowList.givenBy.inj
    h.contents h.symm (fun _ => []) a sptr
  exact ⟨h.of_shrunk hs hc hsymm, hs, hnil⟩

/-- Nobody allows `sptr` any more. -/
theorem removeGivenBy_paired (h : Paired s) (a : Allow) (note : Nat → List AllowMsg) (sptr : Nat) :
    Paired (s.removeGivenBy a note sptr) ∧ Shrunk s (s.removeGivenBy a note sptr) ∧
      (s.removeGivenBy a note sptr).lists (.givenBy a sptr) = [] := by
  obtain ⟨hc, hs, hnil, hsymm⟩ := removeLoop_pairs (f := .givenBy) (g := .given)
    (fun _ _ _ _ => AllowList.noConfusion) AllowList.givenBy.inj AllowList.given.inj
    h.contents (fun b x y => (h.symm b y x).symm) note a sptr
  exact ⟨h.of_shrunk hs hc fun b x y => (hsymm b y x).symm, hs, hnil⟩

/-- Both loops for one pair of lists. -/
theorem removeBoth_paired (h : Paired s) (a : Allow) (note : Nat → List AllowMsg) (sptr : Nat) :
    let s' := (s.removeGiven a sptr).removeGivenBy a note sptr
    Paired s' ∧ Shrunk s s' ∧ s'.lists (.given a sptr) = [] ∧ s'.lists (.givenBy a sptr) = [] := by
  obtain ⟨h₁, hs₁, hn₁⟩ := removeGiven_paired h a sptr
  obtain ⟨h₂, hs₂, hn₂⟩ := removeGivenBy_paired h₁ a note sptr
  exact ⟨h₂, hs₁.trans hs₂, hs₂.nil hn₁, hn₂⟩

/-- After the cleanup nobody is on a list of the user, and the user on none. -/
theorem removeReferences_paired (h : Paired s) (sptr : Nat) :
    let s' := (s.removeDccReferences sptr).removeAcceptReferences sptr
    Paired s' ∧ Shrunk s s' ∧
      ∀ a x, sptr ∉ s'.lists (.given a x) ∧ sptr ∉ s'.lists (.givenBy a x) ∧
        s'.lists (.given a sptr) = [] ∧ s'.lists (.givenBy a sptr) = [] := by
  obtain ⟨h₁, hs₁, hg₁, hb₁⟩ := removeBoth_paired h .dccallow
    (fun acptr => [.signingOff .dccallow acptr sptr]) sptr
  obtain ⟨h₂, hs₂, hg₂, hb₂⟩ := removeBoth_paired h₁ .accepted
    (fun acptr => [.signingOff .accepted acptr sptr]) sptr
  obtain ⟨h₃, hs₃, hg₃, hb₃⟩ := removeBoth_paired h₂ .acceptInformed (fun _ => []) sptr
  have hempty : ∀ a, ((s.removeDccReferences sptr).removeAcceptReferences sptr).lists
      (.given a sptr) = [] ∧ ((s.removeDccReferences sptr).removeAcceptReferences sptr).lists
      (.givenBy a sptr) = [] := by
    intro a
    cases a with
    | dccallow => exact ⟨(hs₂.trans hs₃).nil hg₁, (hs₂.trans hs₃).nil hb₁⟩
    | accepted => exact ⟨hs₃.nil hg₂, hs₃.nil hb₂⟩
    | acceptInformed => exact ⟨hg₃, hb₃⟩
  have hP : Paired ((s.removeDccReferences sptr).removeAcceptReferences sptr) := h₃
  refine ⟨hP, (hs₁.trans hs₂).trans hs₃, fun a x => ⟨fun hx => ?_, fun hx => ?_, hempty a⟩⟩
  · have hx' := (hP.symm a x sptr).mp hx
    rw [(hempty a).2] at hx'
    cases hx'
  · have hx' := (hP.symm a sptr x).mpr hx
    rw [(hempty a).1] at hx'
    cases hx'

/-- A pair gets on both its lists, or off both. -/
theorem Paired.toggled {s' : AllowSt} (on : Bool) (h : Paired s) (hx : sptr ∈ s.persons)
    (hy : cptr ∈ s.persons) (hper : s'.persons = s.persons)
    (hc : Contents s'.dl (update (update s.lists (.given a sptr)
      (toggle on cptr (s.lists (.given a sptr)))) (.givenBy a cptr)
        (toggle on sptr (s.lists (.givenBy a cptr))))) : Paired s' := by
  have hl := lists_of_contents hc
  have hgiven : ∀ b x, s'.lists (.given b x) =
      if b = a ∧ x = sptr then toggle on cptr (s.lists (.given b x)) else s.lists (.given b x) := by
    intro b x
    rw [hl, Function.update_of_ne AllowList.noConfusion]
    split
    · next he => rw [he.1, he.2, Function.update_self]
    · next he => rw [Function.update_of_ne fun heq => he (AllowList.given.inj heq)]
  have hgivenBy : ∀ b y, s'.lists (.givenBy b y) =
      if b = a ∧ y = cptr then toggle on sptr (s.lists (.givenBy b y))
      else s.lists (.givenBy b y) := by
    intro b y
    rw [hl]
    split
    · next he => rw [he.1, he.2, Function.update_self]
    · next he =>
        rw [Function.update_of_ne fun heq => he (AllowList.givenBy.inj heq),
          Function.update_of_ne AllowList.noConfusion]
  refine ⟨hl ▸ hc, fun b x y => ?_, fun l => ?_, fun b x y hxy => ?_⟩
  · rw [hgiven, hgivenBy, mem_ite_toggle (h.once _), mem_ite_toggle (h.once _), h.symm]
    have hswap : (b = a ∧ x = sptr) ∧ y = cptr ↔ (b = a ∧ y = cptr) ∧ x = sptr := and_right_comm
    simp only [hswap]
  · cases l with
    | given b x =>
        rw [hgiven]
        exact nodup_ite_toggle (h.once _)
    | givenBy b y =>
        rw [hgivenBy]
        exact nodup_ite_toggle (h.once _)
  · rw [hgiven, mem_ite_toggle (h.once _)] at hxy
    rw [hper]
    split at hxy
    · next he =>
        rw [he.1.2, he.2]
        exact ⟨hx, hy⟩
    · exact h.person b x y hxy

/-- A new pair, with a node on each list. -/
theorem addPair_paired (A : Allocator) (h : Paired s) (hx : sptr ∈ s.persons)
    (hy : cptr ∈ s.persons) (hno : cptr ∉ s.lists (.given a sptr)) {s' : AllowSt}
    (hper : s'.persons = s.persons)
    (hdl : s'.dl = dlinkAddNew A sptr (.givenBy a cptr) (dlinkAddNew A cptr (.given a sptr) s.dl)) :
    Paired s' := by
  have hc := (h.contents.addNew A cptr (.given a sptr)).addNew A sptr (.givenBy a cptr)
  rw [← hdl, Function.update_of_ne AllowList.noConfusion, ← toggle_true hno,
    ← toggle_true fun hin => hno ((h.symm a sptr cptr).mpr hin)] at hc
  exact h.toggled true hx hy hper hc

theorem del_paired (h : Paired s) (hx : sptr ∈ s.persons) (hy : cptr ∈ s.persons) :
    Paired (s.del a sptr cptr) := by
  have hc := (h.contents.deleteFirst (.given a sptr) (· = cptr)).deleteFirst (.givenBy a cptr)
    (· = sptr)
  rw [Function.update_of_ne AllowList.noConfusion, eraseP_eq_erase, eraseP_eq_erase] at hc
  exact h.toggled false hx hy rfl hc

/-- The lists of who is no user are empty. -/
theorem Paired.empty (h : Paired s) (hx : c ∉ s.persons) (a : Allow) :
    s.lists (.given a c) = [] ∧ s.lists (.givenBy a c) = [] := by
  refine ⟨List.eq_nil_iff_forall_not_mem.mpr fun y hy => hx (h.person a c y hy).1,
    List.eq_nil_iff_forall_not_mem.mpr fun y hy => hx ?_⟩
  exact (h.person a y c ((h.symm a y c).mpr hy)).2

theorem clearLists_contents (h : Paired s) (hx : c ∉ s.persons) :
    Contents (clearLists c s.dl) s.lists := by
  have hclear : ∀ {D : Dlinks AllowList Nat} (a : Allow), Contents D s.lists →
      Contents (clearDlinkList (.givenBy a c) (clearDlinkList (.given a c) D)) s.lists := by
    intro D a hD
    obtain ⟨hgiven, hgivenBy⟩ := h.empty hx a
    have hg : update s.lists (.given a c) [] = s.lists := by
      rw [← hgiven, Function.update_eq_self]
    have hb : update s.lists (.givenBy a c) [] = s.lists := by
      rw [← hgivenBy, Function.update_eq_self]
    have hc := (hD.clear (.given a c)).clear (.givenBy a c)
    rw [hg, hb] at hc
    exact hc
  exact hclear .acceptInformed (hclear .accepted (hclear .dccallow h.contents))

/-! ## Runs -/

/-- The lists with a limit. -/
inductive Limited : Allow → Nat → Prop
  | dccallow : Limited .dccallow maxDccallow
  | accepted : Limited .accepted maxAccepted

/-- The lists are in step, and shorter than their limit. -/
structure AllowSound (s : AllowSt) : Prop extends Paired s where
  bound : ∀ {a max}, Limited a max → ∀ x, (s.lists (.given a x)).length < max

theorem AllowSound.of_shrunk {s' : AllowSt} (h : AllowSound s) (hp : Paired s') (hs : Shrunk s s') :
    AllowSound s' :=
  ⟨hp, fun hl x => Nat.lt_of_le_of_lt (hs.1 _).length_le (h.bound hl x)⟩

/-- What `add` does: nothing to the lists, or a new pair if there is room. -/
theorem add_cases (A : Allocator) (h : Paired s) (a : Allow) (max sptr cptr : Nat) :
    ((s.add A a max sptr cptr).dl = s.dl ∧ (s.add A a max sptr cptr).persons = s.persons) ∨
      sptr ∈ s.persons ∧ cptr ∈ s.persons ∧ cptr ∉ s.lists (.given a sptr) ∧
        (s.lists (.given a sptr)).length + 1 < max ∧
        (s.add A a max sptr cptr).persons = s.persons ∧
        (s.add A a max sptr cptr).dl =
          dlinkAddNew A sptr (.givenBy a cptr) (dlinkAddNew A cptr (.given a sptr) s.dl) := by
  simp only [add]
  split
  · exact Or.inl ⟨rfl, rfl⟩
  next hper =>
  split
  · exact Or.inl ⟨rfl, rfl⟩
  next hfind =>
  split
  · exact Or.inl ⟨rfl, rfl⟩
  next hroom =>
  rw [not_or, not_not, not_not] at hper
  have hno : cptr ∉ s.lists (.given a sptr) :=
    h.contents.find_eq_none.mp (Option.not_isSome_iff_eq_none.mp hfind)
  exact Or.inr ⟨hper.2, hper.1, hno, Nat.lt_of_not_le hroom, rfl, rfl⟩

theorem Paired.congr {s' : AllowSt} (h : Paired s) (hdl : s'.dl = s.dl)
    (hper : s'.persons = s.persons) : Paired s' := by
  have hl : s'.lists = s.lists := funext fun l => by rw [lists, lists, hdl]
  exact ⟨by rw [hdl, hl]; exact h.contents, by rw [hl]; exact h.symm, by rw [hl]; exact h.once,
    by rw [hl, hper]; exact h.person⟩

theorem AllowSound.congr {s' : AllowSt} (h : AllowSound s) (hdl : s'.dl = s.dl)
    (hper : s'.persons = s.persons) : AllowSound s' := by
  refine ⟨h.toPaired.congr hdl hper, fun hl x => ?_⟩
  rw [lists, hdl]
  exact h.bound hl x

/-- A new pair makes one list longer, which has room if it has a limit. -/
theorem addPair_sound (A : Allocator) (h : AllowSound s) (hx : sptr ∈ s.persons)
    (hy : cptr ∈ s.persons) (hno : cptr ∉ s.lists (.given a sptr))
    (hroom : ∀ max, Limited a max → (s.lists (.given a sptr)).length + 1 < max) {s' : AllowSt}
    (hper : s'.persons = s.persons)
    (hdl : s'.dl = dlinkAddNew A sptr (.givenBy a cptr) (dlinkAddNew A cptr (.given a sptr) s.dl)) :
    AllowSound s' := by
  refine ⟨addPair_paired A h.toPaired hx hy hno hper hdl, fun {b max} hl x => ?_⟩
  have hc := (h.contents.addNew A cptr (.given a sptr)).addNew A sptr (.givenBy a cptr)
  rw [← hdl] at hc
  rw [lists_of_contents hc, Function.update_of_ne AllowList.noConfusion]
  by_cases he : AllowList.given b x = .given a sptr
  · obtain ⟨rfl, rfl⟩ := AllowList.given.inj he
    rw [Function.update_self]
    exact hroom max hl
  · rw [Function.update_of_ne he]
    exact h.bound hl x

theorem add_sound (A : Allocator) (h : AllowSound s) {max : Nat} (hl : Limited a max)
    (sptr cptr : Nat) : AllowSound (s.add A a max sptr cptr) := by
  rcases add_cases A h.toPaired a max sptr cptr with ⟨hdl, hper⟩ | ⟨hx, hy, hno, hroom, hper, hdl⟩
  · exact h.congr hdl hper
  · refine addPair_sound A h hx hy hno (fun max' hl' => ?_) hper hdl
    have hmax : max' = max := by cases hl <;> cases hl' <;> rfl
    rw [hmax]
    exact hroom

theorem del_sound (h : AllowSound s) (hx : sptr ∈ s.persons) (hy : cptr ∈ s.persons) :
    AllowSound (s.del a sptr cptr) := by
  refine ⟨del_paired h.toPaired hx hy, fun {b max} hl x => ?_⟩
  have hc := (h.contents.deleteFirst (.given a sptr) (· = cptr)).deleteFirst (.givenBy a cptr)
    (· = sptr)
  rw [show (s.del a sptr cptr).lists = _ from lists_of_contents hc,
    Function.update_of_ne AllowList.noConfusion]
  refine Nat.lt_of_le_of_lt ?_ (h.bound hl x)
  by_cases he : AllowList.given b x = .given a sptr
  · rw [he, Function.update_self]
    exact (List.eraseP_sublist ..).length_le
  · rw [Function.update_of_ne he]

/-- Being informed has no limit, and happens once. -/
theorem checkAccept_sound (A : Allocator) (h : AllowSound s) {source target : Nat}
    (hx : source ∈ s.persons) (hy : target ∈ s.persons) (myClient denyPrivmsg privileged : Bool) :
    AllowSound (s.checkAccept A source target myClient denyPrivmsg privileged).2 := by
  simp only [checkAccept]
  split
  · exact h
  split
  · exact h
  split
  · exact h
  split
  · exact h
  split
  · exact h
  next hfind =>
  have hno : source ∉ s.lists (.given .acceptInformed target) :=
    h.contents.find_eq_none.mp (Option.not_isSome_iff_eq_none.mp hfind)
  exact addPair_sound A h hy hx hno (fun _ hl => nomatch hl) rfl rfl

theorem makeUser_sound (h : AllowSound s) (hc : c ∉ s.persons) :
    AllowSound { s with dl := clearLists c s.dl, persons := c :: s.persons } := by
  have hcont := clearLists_contents h.toPaired hc
  have hl : AllowSt.lists { s with dl := clearLists c s.dl, persons := c :: s.persons } = s.lists :=
    lists_of_contents hcont
  refine ⟨⟨by rw [hl]; exact hcont, by rw [hl]; exact h.symm, by rw [hl]; exact h.once,
    fun a x y hxy => ?_⟩, fun {a max} hlim x => by rw [hl]; exact h.bound hlim x⟩
  rw [hl] at hxy
  obtain ⟨hx, hy⟩ := h.person a x y hxy
  exact ⟨List.mem_cons_of_mem _ hx, List.mem_cons_of_mem _ hy⟩

/-- Who exits is on no list any more, and has nobody on a list. -/
theorem exit_sound (h : AllowSound s) (c : Nat) {s' : AllowSt}
    (hs' : s' = (s.removeDccReferences c).removeAcceptReferences c) :
    AllowSound { s' with persons := s'.persons.erase c } ∧
      ∀ a x, c ∉ s'.lists (.given a x) ∧ c ∉ s'.lists (.givenBy a x) := by
  obtain ⟨hp, hs, hno⟩ := removeReferences_paired h.toPaired c
  rw [← hs'] at hp hs hno
  have hsound := h.of_shrunk hp hs
  refine ⟨⟨⟨hp.contents, hp.symm, hp.once, fun a x y hxy => ?_⟩, hsound.bound⟩,
    fun a x => ⟨(hno a x).1, (hno a x).2.1⟩⟩
  obtain ⟨hx, hy⟩ := hp.person a x y hxy
  refine ⟨(List.mem_erase_of_ne fun he => ?_).mpr hx, (List.mem_erase_of_ne fun he => ?_).mpr hy⟩
  · have hnil : s'.lists (.given a c) = [] := (hno a x).2.2.1
    have hmem : y ∈ s'.lists (.given a x) := hxy
    rw [he, hnil] at hmem
    cases hmem
  · exact (hno a x).1 (he ▸ hxy)

namespace AllowSt

theorem init_sound : AllowSound init := by
  have hc : Contents init.dl fun _ => [] := Contents.empty 0
  have hl : init.lists = fun _ => [] := lists_of_contents hc
  refine ⟨⟨hl ▸ hc, fun a x y => ?_, fun l => ?_, fun a x y hy => ?_⟩, fun hlim x => ?_⟩
  · rw [hl]
    exact iff_of_false List.not_mem_nil List.not_mem_nil
  · rw [hl]
    exact List.nodup_nil
  · rw [hl] at hy
    cases hy
  · rw [hl]
    cases hlim with
    | dccallow => exact Nat.zero_lt_succ _
    | accepted => exact Nat.zero_lt_succ _

theorem step_sound (A : Allocator) (s : AllowSt) (op : AllowOp) (s' : AllowSt) (h : AllowSound s)
    (hs : step A s op = .ok s') : AllowSound s' := by
  cases op with
  | makeUser cptr =>
      rw [step] at hs
      split at hs
      · cases hs
      · next hc =>
          cases hs
          exact makeUser_sound h hc
  | addDccallow sptr cptr =>
      cases hs
      exact add_sound A h .dccallow sptr cptr
  | acceptClient sptr cptr =>
      cases hs
      exact add_sound A h .accepted sptr cptr
  | delDccallow sptr optr =>
      rw [step] at hs
      split at hs
      · next hp =>
          cases hs
          exact del_sound h hp.1 hp.2
      · cases hs
  | denyClient sptr optr =>
      rw [step] at hs
      split at hs
      · next hp =>
          cases hs
          exact del_sound h hp.1 hp.2
      · cases hs
  | checkAccept source target myClient denyPrivmsg privileged =>
      rw [step] at hs
      split at hs
      · next hp =>
          cases hs
          exact checkAccept_sound A h hp.1 hp.2 _ _ _
      · cases hs
  | exit cptr =>
      generalize hs₁ : (s.removeDccReferences cptr).removeAcceptReferences cptr = s₁
      rw [step, hs₁] at hs
      split at hs
      · cases hs
        exact (exit_sound h cptr hs₁.symm).1
      · cases hs

/-- In every state of a run the lists answer each other, with every pair once
and within the limits; and whoever exits is on no list any more. -/
theorem run_allow (A : Allocator) (ops : List AllowOp) {s : AllowSt}
    (hrun : run (step A) init ops = .ok s) :
    (∀ a x y, y ∈ s.lists (.given a x) ↔ x ∈ s.lists (.givenBy a y)) ∧
      (∀ l, (s.lists l).Nodup) ∧
      (∀ x, (s.lists (.given .dccallow x)).length ≤ maxDccallow) ∧
      (∀ x, (s.lists (.given .accepted x)).length ≤ maxAccepted) ∧
      ∀ c s', step A s (.exit c) = .ok s' →
        ∀ a x, c ∉ s'.lists (.given a x) ∧ c ∉ s'.lists (.givenBy a x) := by
  have h : AllowSound s := run_invariant (step_sound A) ops init_sound hrun
  refine ⟨h.symm, h.once, fun x => Nat.le_of_lt (h.bound .dccallow x),
    fun x => Nat.le_of_lt (h.bound .accepted x), fun c s' hs => ?_⟩
  generalize hs₁ : (s.removeDccReferences c).removeAcceptReferences c = s₁
  rw [step, hs₁] at hs
  split at hs
  · cases hs
    exact (exit_sound h c hs₁.symm).2
  · cases hs

/-- Three users, with pairs on all three kinds of lists. -/
def allowRun : List AllowOp :=
  [.makeUser 1, .makeUser 2, .makeUser 3, .addDccallow 1 2, .addDccallow 1 3, .acceptClient 2 1,
    .checkAccept 2 3 true true false]

theorem run_allow_three :
    ∃ s, run (step Allocator.bump) init allowRun = .ok s ∧
      s.lists (.given .dccallow 1) = [3, 2] ∧ (s.lists (.given .dccallow 1)).Nodup :=
  ⟨_, rfl, by decide, (run_allow Allocator.bump allowRun rfl).2.1 _⟩

end AllowSt

end TrIrcd
