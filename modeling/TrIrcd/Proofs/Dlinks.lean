import TrIrcd.Lib.Dlist
import TrIrcd.Src.Tools
import Mathlib.Data.List.Perm.Subperm

/-!
# The dlink lists hold lists

`Represents D V` says that the nodes of every list of `D` are the list of
addresses `V` gives it: linked both ways, in no other list, and handed out.
`Contents D C` forgets the addresses and keeps the data, which is all the
callers of `tools.c` ever see of a list. Each operation then is an operation
on `C`: adding is `cons`, deleting the first node with a property is
`eraseP`, and no list but the one named changes.

The one thing a caller can see beyond `C` is a node it still points at after
deleting it; `dlinkDelete_next` is what such a caller reads there.
-/

namespace TrIrcd

open Function (update)
open TrIrcd.Lib

variable {ι α : Type}

/-! ## The fields after an operation -/

/-- The first of `dlinkDelete`'s assignments may write the `prev` that the
second one reads, but only with the value it has. -/
theorem update_of_eq {f : Nat → Option Nat} {m : Nat} {q : Option Nat}
    (h : f m = q) (x : Nat) : update f x q m = q := by
  by_cases hx : m = x
  · rw [hx, Function.update_self]
  · rw [Function.update_of_ne hx, h]

section Fields

variable [DecidableEq ι] (a : α) (m : Nat) (l : ι) (D : Dlinks ι α)

@[simp] theorem dlinkAdd_data : (dlinkAdd a m l D).data = update D.data m a := by
  simp only [dlinkAdd]
  split <;> [rfl; (split <;> rfl)]

@[simp] theorem dlinkAdd_used : (dlinkAdd a m l D).used = D.used := by
  simp only [dlinkAdd]
  split <;> [rfl; (split <;> rfl)]

@[simp] theorem dlinkDelete_data : (dlinkDelete m l D).data = D.data := by
  simp only [dlinkDelete]
  split <;> split <;> rfl

@[simp] theorem dlinkDelete_used : (dlinkDelete m l D).used = D.used := by
  simp only [dlinkDelete]
  split <;> split <;> rfl

/-- What a caller reads in a node it has just deleted. -/
@[simp] theorem dlinkDelete_next_self : (dlinkDelete m l D).next m = none := by
  simp [dlinkDelete]

theorem dlinkDelete_next :
    (dlinkDelete m l D).next =
      update (match D.prev m with
        | some p => update D.next p (D.next m)
        | none => D.next) m none := by
  cases hnx : D.next m <;> cases hpx : D.prev m <;>
    simp only [dlinkDelete, hnx, hpx, update_of_eq hpx]

theorem dlinkDelete_prev :
    (dlinkDelete m l D).prev =
      update (match D.next m with
        | some x => update D.prev x (D.prev m)
        | none => D.prev) m none := by
  cases hnx : D.next m <;> cases hpx : D.prev m <;>
    simp only [dlinkDelete, hnx, hpx, update_of_eq hpx]

theorem dlinkDelete_head (k : ι) :
    (dlinkDelete m l D).head k =
      if k = l then
        match D.prev m with
        | some _ => D.head l
        | none => D.next m
      else D.head k := by
  by_cases hk : k = l
  · subst hk
    cases hnx : D.next m <;> cases hpx : D.prev m <;>
      simp [dlinkDelete, hnx, hpx, update_of_eq hpx]
  · cases hnx : D.next m <;> cases hpx : D.prev m <;>
      simp [dlinkDelete, hnx, hpx, update_of_eq hpx, hk]

theorem dlinkDelete_tail (k : ι) :
    (dlinkDelete m l D).tail k =
      if k = l then
        match D.next m with
        | some _ => D.tail l
        | none => D.prev m
      else D.tail k := by
  by_cases hk : k = l
  · subst hk
    cases hnx : D.next m <;> cases hpx : D.prev m <;>
      simp [dlinkDelete, hnx, hpx, update_of_eq hpx]
  · cases hnx : D.next m <;> cases hpx : D.prev m <;>
      simp [dlinkDelete, hnx, hpx, update_of_eq hpx, hk]

end Fields

/-! ## The lists as lists of addresses -/

/-- Writing the field of a node that is not on a list. -/
theorem update_off {f : Nat → Option Nat} {xs : List Nat} {m x : Nat} (hm : m ∉ xs)
    (hx : x ∈ xs) (v : Option Nat) : update f m v x = f x :=
  Function.update_of_ne (ne_of_mem_of_not_mem hx hm) v f

/-- The lists of `D` are linked through the addresses `V`, whichever of them have been
handed out. -/
structure Threaded (D : Dlinks ι α) (V : ι → List Nat) : Prop where
  dlist : ∀ l, IsDlist D.next D.prev (D.head l) (D.tail l) (V l)
  apart : Apart V

namespace Threaded

variable {D D' : Dlinks ι α} {V : ι → List Nat}

/-- The neighbours of a node of a list, as its links name them. -/
theorem links (h : Threaded D V) {l : ι} {as bs : List Nat} {m : Nat}
    (hv : V l = as ++ m :: bs) :
    D.next m = bs.head? ∧ D.prev m = as.getLast? ∧ m ∉ as ∧ m ∉ bs := by
  have hd := h.dlist l
  rw [hv] at hd
  have hnd := List.nodup_append.mp hd.nodup
  refine ⟨hd.next_eq, hd.prev_eq, fun ha => ?_, (List.nodup_cons.mp hnd.2.1).1⟩
  exact hnd.2.2 m ha m (List.mem_cons_self ..) rfl

variable [DecidableEq ι]

/-- The list `l` has become `xs`, and nothing that the others read is written. -/
theorem set (h : Threaded D V) {l : ι} {xs : List Nat}
    (hlist : IsDlist D'.next D'.prev (D'.head l) (D'.tail l) xs)
    (hoff : ∀ x ∈ xs, ∀ k, k ≠ l → x ∉ V k)
    (hhead : ∀ k, k ≠ l → D'.head k = D.head k ∧ D'.tail k = D.tail k)
    (hlinks : ∀ k, k ≠ l → ∀ x ∈ V k, D'.next x = D.next x ∧ D'.prev x = D.prev x) :
    Threaded D' (update V l xs) := by
  refine ⟨fun k => ?_, h.apart.update hoff⟩
  by_cases hk : k = l
  · rw [hk, Function.update_self]
    exact hlist
  · rw [Function.update_of_ne hk, (hhead k hk).1, (hhead k hk).2]
    exact (h.dlist k).congr (fun x hx => (hlinks k hk x hx).1) fun x hx => (hlinks k hk x hx).2

theorem add (h : Threaded D V) {m : Nat} (hm : ∀ l, m ∉ V l) (a : α) (l : ι) :
    Threaded (dlinkAdd a m l D) (update V l (m :: V l)) := by
  have hd := h.dlist l
  have hoff : ∀ x ∈ m :: V l, ∀ k, k ≠ l → x ∉ V k := by
    intro x hx k hk
    rcases List.mem_cons.mp hx with rfl | hx
    · exact hm k
    · exact h.apart.notMem hx k hk
  cases hv : V l with
  | nil =>
      rw [hv] at hd hoff
      have hh : D.head l = none := hd.1
      have ht : D.tail l = none := hd.2
      refine h.set ?_ hoff (fun k hk => ?_) fun k hk x hx => ?_
      · simp only [dlinkAdd, hh, ht, Function.update_self]
        exact IsDlist.push_empty
      · simp only [dlinkAdd, hh, ht, Function.update_of_ne hk, and_self]
      · simp only [dlinkAdd, hh, ht, update_off (hm k) hx, and_self]
  | cons y ys =>
      rw [hv] at hd hoff
      have hh : D.head l = some y := hd.1.1
      refine h.set ?_ hoff (fun k hk => ?_) fun k hk x hx => ?_
      · simp only [dlinkAdd, hh, Function.update_self]
        exact hd.push_cons (by rw [← hv]; exact hm l)
      · simp only [dlinkAdd, hh, Function.update_of_ne hk, and_self]
      · have hy : y ∉ V k := hoff y (by simp) k hk
        simp only [dlinkAdd, hh, update_off (hm k) hx, update_off hy hx, and_self]

theorem delete (h : Threaded D V) {l : ι} {as bs : List Nat} {m : Nat}
    (hv : V l = as ++ m :: bs) :
    Threaded (dlinkDelete m l D) (update V l (as ++ bs)) := by
  obtain ⟨hn, hp, hma, hmb⟩ := h.links hv
  have hd := h.dlist l
  rw [hv] at hd
  have hmem : ∀ {x}, x ∈ as ++ bs → x ∈ V l ∧ x ≠ m := by
    intro x hx
    rw [hv]
    rcases List.mem_append.mp hx with hx | hx
    · exact ⟨List.mem_append_left _ hx, ne_of_mem_of_not_mem hx hma⟩
    · exact ⟨List.mem_append_right _ (List.mem_cons_of_mem _ hx), ne_of_mem_of_not_mem hx hmb⟩
  have hoff : ∀ x ∈ as ++ bs, ∀ k, k ≠ l → x ∉ V k := fun x hx => h.apart.notMem (hmem hx).1
  have hmoff : ∀ k, k ≠ l → m ∉ V k := h.apart.notMem (by rw [hv]; simp)
  refine h.set ?_ hoff (fun k hk => ?_) fun k hk x hx => ?_
  · rw [dlinkDelete_next, dlinkDelete_prev, dlinkDelete_head, dlinkDelete_tail, if_pos rfl,
      if_pos rfl]
    have hu := hd.unlink
    cases hnx : D.next m <;> cases hpx : D.prev m <;>
      simp only [hnx, hpx] at hu ⊢ <;>
      exact hu.congr (fun x hx => Function.update_of_ne (hmem hx).2 ..)
        fun x hx => Function.update_of_ne (hmem hx).2 ..
  · rw [dlinkDelete_head, dlinkDelete_tail, if_neg hk, if_neg hk]
    exact ⟨rfl, rfl⟩
  · -- The neighbours that are written are nodes of `l`.
    rw [dlinkDelete_next, dlinkDelete_prev, update_off (hmoff k hk) hx, update_off (hmoff k hk) hx]
    constructor
    · cases hpx : D.prev m with
      | none => rfl
      | some q =>
          rw [hp] at hpx
          exact update_off (hoff q (List.mem_append_left _ (List.mem_of_getLast? hpx)) k hk) hx _
    · cases hnx : D.next m with
      | none => rfl
      | some q =>
          rw [hn] at hnx
          exact update_off (hoff q (List.mem_append_right _ (List.mem_of_head? hnx)) k hk) hx _

end Threaded

/-- The lists of `D` are linked through the addresses `V`. -/
structure Represents (D : Dlinks ι α) (V : ι → List Nat) : Prop where
  dlist : ∀ l, IsDlist D.next D.prev (D.head l) (D.tail l) (V l)
  apart : Apart V
  used : ∀ {l m}, m ∈ V l → m ∈ D.used

namespace Represents

variable {D : Dlinks ι α} {V : ι → List Nat}

theorem nodup (h : Represents D V) (l : ι) : (V l).Nodup := (h.dlist l).nodup

theorem length_le (h : Represents D V) (l : ι) :
    (V l).length ≤ D.used.length :=
  ((h.nodup l).subperm fun _ hm => h.used hm).length_le

theorem find (h : Represents D V) (l : ι) (p : α → Bool) :
    dlinkFind l p D = (V l).find? fun m => p (D.data m) :=
  findFrom_eq (h.dlist l).1 (h.length_le l)

theorem data (h : Represents D V) (l : ι) :
    dlinkData l D = (V l).map D.data := by
  rw [dlinkData, walk_eq (h.dlist l).1 (h.length_le l)]

/-- A new node is in no list, and no list notices it. -/
theorem make (h : Represents D V) (A : Allocator) :
    Represents (makeDlinkNode A D).2 V ∧ ∀ l, (makeDlinkNode A D).1 ∉ V l := by
  have hm : ∀ l, A.pick D.used ∉ V l := fun l hl => A.pick_fresh _ (h.used hl)
  refine ⟨⟨fun l => ?_, h.apart, fun hl => ?_⟩, hm⟩
  · refine (h.dlist l).congr (fun x hx => ?_) fun x hx => ?_
    · exact Function.update_of_ne (fun e => hm l (by rw [← e]; exact hx)) ..
    · exact Function.update_of_ne (fun e => hm l (by rw [← e]; exact hx)) ..
  · exact List.mem_cons_of_mem _ (h.used hl)

theorem threaded (h : Represents D V) : Threaded D V := ⟨h.dlist, h.apart⟩

variable [DecidableEq ι]

theorem add (h : Represents D V) {m : Nat} (hm : ∀ l, m ∉ V l)
    (hu : m ∈ D.used) (a : α) (l : ι) :
    Represents (dlinkAdd a m l D) (update V l (m :: V l)) := by
  have hl := h.threaded.add hm a l
  refine ⟨hl.dlist, hl.apart, fun {k x} hx => ?_⟩
  rw [dlinkAdd_used]
  by_cases hk : k = l
  · subst hk
    rw [Function.update_self] at hx
    rcases List.mem_cons.mp hx with rfl | hx
    · exact hu
    · exact h.used hx
  · rw [Function.update_of_ne hk] at hx
    exact h.used hx

theorem delete (h : Represents D V) {l : ι} {as bs : List Nat} {m : Nat}
    (hv : V l = as ++ m :: bs) :
    Represents (dlinkDelete m l D) (update V l (as ++ bs)) := by
  have hl := h.threaded.delete hv
  refine ⟨hl.dlist, hl.apart, fun {k x} hx => ?_⟩
  rw [dlinkDelete_used]
  by_cases hk : k = l
  · subst hk
    rw [Function.update_self] at hx
    refine h.used (l := k) ?_
    rw [hv]
    exact List.mem_append.mpr ((List.mem_append.mp hx).imp_right (List.mem_cons_of_mem m))
  · rw [Function.update_of_ne hk] at hx
    exact h.used hx

/-- A list head wiped; its nodes are in no list then. -/
theorem clear (h : Represents D V) (l : ι) :
    Represents (clearDlinkList l D) (update V l []) := by
  refine ⟨fun k => ?_, h.apart.update (fun x hx => by cases hx), fun {k m} hm => ?_⟩
  · by_cases hk : k = l
    · subst hk
      simp only [clearDlinkList, Function.update_self]
      exact IsDlist.empty
    · simp only [clearDlinkList, Function.update_of_ne hk]
      exact h.dlist k
  · by_cases hk : k = l
    · subst hk
      rw [Function.update_self] at hm
      cases hm
    · rw [Function.update_of_ne hk] at hm
      exact h.used hm

end Represents

/-! ## The lists as lists of data -/

/-- Deleting by pointer: what `dlinkFind` was asked for. -/
theorem eraseP_eq_erase {α : Type} [DecidableEq α] (a : α) (xs : List α) :
    xs.eraseP (· = a) = xs.erase a := by
  rw [List.erase_eq_eraseP']
  rfl

/-- The lists of `D` hold the data `C`. -/
def Contents (D : Dlinks ι α) (C : ι → List α) : Prop :=
  ∃ V, Represents D V ∧ ∀ l, C l = (V l).map D.data

theorem Contents.data {D : Dlinks ι α} {C : ι → List α} (h : Contents D C)
    (l : ι) : dlinkData l D = C l := by
  obtain ⟨V, hV, hC⟩ := h
  rw [hV.data, hC]

/-- `dlinkFind` answers whether the pointer is on the list. -/
theorem Contents.find_eq_none [DecidableEq α] {D : Dlinks ι α} {C : ι → List α}
    (h : Contents D C) {l : ι} {a : α} : dlinkFind l (· = a) D = none ↔ a ∉ C l := by
  obtain ⟨V, hV, hC⟩ := h
  rw [hV.find, List.find?_eq_none, hC, List.mem_map]
  simp only [decide_eq_true_eq, not_exists, not_and]

theorem Contents.head_eq_none {D : Dlinks ι α} {C : ι → List α} (h : Contents D C)
    {l : ι} : D.head l = none ↔ C l = [] := by
  obtain ⟨V, hV, hC⟩ := h
  rw [hC, List.map_eq_nil_iff, (hV.dlist l).1.head_eq, List.head?_eq_none_iff]

theorem Contents.length_le {D : Dlinks ι α} {C : ι → List α} (h : Contents D C)
    (l : ι) : (C l).length ≤ D.used.length := by
  obtain ⟨V, hV, hC⟩ := h
  rw [hC, List.length_map]
  exact hV.length_le l

theorem Contents.empty (a : α) :
    Contents (Dlinks.empty a : Dlinks ι α) fun _ => [] := by
  refine ⟨fun _ => [], ⟨fun _ => IsDlist.empty, ?_, ?_⟩, fun _ => rfl⟩
  · intro l l' m hm
    cases hm
  · intro l m hm
    cases hm

section

variable [DecidableEq ι] {D : Dlinks ι α} {V : ι → List Nat}

/-- `dlinkDeleteNode`: the node is also free again. -/
theorem Represents.deleteNode (h : Represents D V) {l : ι} {as bs : List Nat}
    {m : Nat} (hv : V l = as ++ m :: bs) :
    Represents (dlinkDeleteNode m l D) (update V l (as ++ bs)) := by
  obtain ⟨-, -, hma, hmb⟩ := h.threaded.links hv
  have hd := h.delete hv
  refine ⟨hd.dlist, hd.apart, fun {k x} hx => ?_⟩
  refine (List.mem_erase_of_ne ?_).mpr (hd.used hx)
  intro heq
  subst heq
  by_cases hk : k = l
  · subst hk
    rw [Function.update_self] at hx
    exact (List.mem_append.mp hx).elim hma hmb
  · rw [Function.update_of_ne hk] at hx
    exact hk (h.apart hx (by rw [hv]; simp))

namespace Contents

variable {C : ι → List α}

/-- Deleting the first node of a list: what it held, and what is first then. -/
theorem deleteHead (h : Contents D C) {l : ι} {ptr : Nat} (hh : D.head l = some ptr) :
    ∃ as, C l = D.data ptr :: as ∧ Contents (dlinkDeleteNode ptr l D) (update C l as) ∧
      (dlinkDeleteNode ptr l D).head l = D.next ptr := by
  obtain ⟨V, hV, hC⟩ := h
  cases hv : V l with
  | nil =>
      rw [(hV.dlist l).1.head_eq, hv] at hh
      cases hh
  | cons m bs =>
      rw [(hV.dlist l).1.head_eq, hv] at hh
      cases hh
      have hv' : V l = [] ++ ptr :: bs := hv
      obtain ⟨-, hp, -, -⟩ := hV.threaded.links hv'
      refine ⟨bs.map D.data, by rw [hC, hv, List.map_cons], ⟨_, hV.deleteNode hv',
        fun k => ?_⟩, ?_⟩
      · rw [show (dlinkDeleteNode ptr l D).data = D.data from dlinkDelete_data ptr l D,
          List.nil_append]
        by_cases hk : k = l
        · subst hk
          rw [Function.update_self, Function.update_self]
        · rw [Function.update_of_ne hk, Function.update_of_ne hk, hC]
      · rw [show (dlinkDeleteNode ptr l D).head l = (dlinkDelete ptr l D).head l from rfl,
          dlinkDelete_head, if_pos rfl, hp]
        rfl

/-- Deleting from one list does not move the head of another. -/
theorem deleteFirst_off (h : Contents D C) {l k : ι} (hne : l ≠ k) (p : α → Bool)
    {ptr : Nat} (hh : D.head l = some ptr) :
    (dlinkDeleteFirst k p D).head l = some ptr ∧
      (dlinkDeleteFirst k p D).next ptr = D.next ptr ∧
      (dlinkDeleteFirst k p D).data = D.data := by
  obtain ⟨V, hV, -⟩ := h
  rw [dlinkDeleteFirst, hV.find]
  cases hf : (V k).find? fun m => p (D.data m) with
  | none => exact ⟨hh, rfl, rfl⟩
  | some m =>
      obtain ⟨-, as, bs, hv, -⟩ := List.find?_eq_some_iff_append.mp hf
      have hV' := hV.deleteNode hv
      have hhead : (dlinkDeleteNode m k D).head l = some ptr := by
        rw [show (dlinkDeleteNode m k D).head l = (dlinkDelete m k D).head l from rfl,
          dlinkDelete_head, if_neg hne, hh]
      refine ⟨hhead, ?_, dlinkDelete_data m k D⟩
      -- Both heaps link the head of `l` to the second node of `V l`.
      rw [(hV.dlist l).1.head_eq] at hh
      cases hl : V l with
      | nil => rw [hl] at hh; cases hh
      | cons x xs =>
          rw [hl] at hh
          cases hh
          have hl' : update V k (as ++ bs) l = [] ++ ptr :: xs := by
            rw [Function.update_of_ne hne, hl, List.nil_append]
          rw [(hV'.threaded.links hl').1, (hV.threaded.links (show V l = [] ++ ptr :: xs from hl)).1]

theorem addNew (h : Contents D C) (A : Allocator) (a : α) (l : ι) :
    Contents (dlinkAddNew A a l D) (update C l (a :: C l)) := by
  obtain ⟨V, hV, hC⟩ := h
  obtain ⟨hV', hm⟩ := hV.make A
  refine ⟨_, hV'.add hm (List.mem_cons_self ..) a l, fun k => ?_⟩
  have hold : ∀ {j}, (V j).map D.data =
      (V j).map (update D.data (A.pick D.used) a) := by
    intro j
    refine List.map_congr_left fun x hx => ?_
    rw [Function.update_of_ne]
    intro heq
    subst heq
    exact hm j hx
  rw [show (dlinkAddNew A a l D).data = update D.data (A.pick D.used) a from
    dlinkAdd_data ..]
  show update C l (a :: C l) k = _
  by_cases hk : k = l
  · subst hk
    simp only [Function.update_self, List.map_cons, hC, makeDlinkNode]
    rw [hold]
  · simp only [Function.update_of_ne hk, hC, makeDlinkNode]
    exact hold

theorem deleteFirst (h : Contents D C) (l : ι) (p : α → Bool) :
    Contents (dlinkDeleteFirst l p D) (update C l ((C l).eraseP p)) := by
  obtain ⟨V, hV, hC⟩ := h
  rw [dlinkDeleteFirst, hV.find]
  cases hf : (V l).find? fun m => p (D.data m) with
  | none =>
      have hnone : (C l).eraseP p = C l := by
        refine List.eraseP_of_forall_not fun x hx => ?_
        rw [hC, List.mem_map] at hx
        obtain ⟨m, hm, rfl⟩ := hx
        simpa using List.find?_eq_none.mp hf m hm
      rw [hnone, Function.update_eq_self]
      exact ⟨V, hV, hC⟩
  | some m =>
      obtain ⟨hpm, as, bs, hv, has⟩ := List.find?_eq_some_iff_append.mp hf
      refine ⟨_, hV.deleteNode hv, fun k => ?_⟩
      show update C l ((C l).eraseP p) k = _
      rw [show (dlinkDeleteNode m l D).data = D.data from dlinkDelete_data m l D]
      by_cases hk : k = l
      · subst hk
        rw [Function.update_self, Function.update_self, hC, hv, List.map_append,
          List.map_cons, List.eraseP_append_right, List.eraseP_cons_of_pos hpm,
          List.map_append]
        intro b hb
        obtain ⟨x, hx, rfl⟩ := List.mem_map.mp hb
        simpa using has x hx
      · rw [Function.update_of_ne hk, Function.update_of_ne hk, hC]

theorem clear (h : Contents D C) (l : ι) :
    Contents (clearDlinkList l D) (update C l []) := by
  obtain ⟨V, hV, hC⟩ := h
  refine ⟨_, hV.clear l, fun k => ?_⟩
  by_cases hk : k = l
  · subst hk
    rw [Function.update_self, Function.update_self, List.map_nil]
  · rw [Function.update_of_ne hk, Function.update_of_ne hk]
    exact hC k

end Contents

end

end TrIrcd
