import TrIrcd.Proofs.Dlinks

/-!
# Every dlink list stays a list

`dlinkAddTail` is `dlinkAdd` seen from the other end, `dlinkAddBefore` opens a list
between two nodes, and `dlinkMoveList` links the end of one list to the front of
another. The last leaves `to->tail` alone, which is right as there is something in
the list, and makes the first `prev` of the joined list the one that the second list
had, which is NULL. So all five keep the lists threaded both ways, and what each
list holds is what the same operations make of lists of nodes with their data
(`dlinkRun_spec`).
-/

namespace TrIrcd

open Function (update)
open TrIrcd.Lib

variable {ι α : Type} [DecidableEq ι]

theorem dlinkAddTail_data (a : α) (m : Nat) (l : ι) (D : Dlinks ι α) :
    (dlinkAddTail a m l D).data = update D.data m a := by
  simp only [dlinkAddTail]
  split <;> [rfl; (split <;> rfl)]

namespace Threaded

variable {D D' : Dlinks ι α} {V : ι → List Nat}

theorem addTail (h : Threaded D V) {m : Nat} (hm : ∀ l, m ∉ V l) (a : α) (l : ι) :
    Threaded (dlinkAddTail a m l D) (update V l (V l ++ [m])) := by
  have hd := h.dlist l
  have hoff : ∀ x ∈ V l ++ [m], ∀ k, k ≠ l → x ∉ V k := by
    intro x hx k hk
    rcases List.mem_append.mp hx with hx | hx
    · exact h.apart.notMem hx k hk
    · rw [List.mem_singleton.mp hx]
      exact hm k
  rcases List.eq_nil_or_concat (V l) with hv | ⟨ys, y, hv⟩
  · rw [hv] at hd hoff ⊢
    have hh : D.head l = none := hd.1
    have ht : D.tail l = none := hd.2
    refine h.set ?_ hoff (fun k hk => ?_) fun k hk x hx => ?_
    · simp only [dlinkAddTail, hh, ht, Function.update_self]
      exact IsDlist.push_empty
    · simp only [dlinkAddTail, hh, ht, Function.update_of_ne hk, and_self]
    · simp only [dlinkAddTail, hh, ht, update_off (hm k) hx, and_self]
  · rw [List.concat_eq_append] at hv
    rw [hv] at hd hoff ⊢
    have ht : D.tail l = some y := by rw [hd.tail_eq, List.getLast?_concat]
    refine h.set ?_ hoff (fun k hk => ?_) fun k hk x hx => ?_
    · simp only [dlinkAddTail, ht, Function.update_self]
      exact hd.push_last (by rw [← hv]; exact hm l)
    · simp only [dlinkAddTail, ht, Function.update_of_ne hk, and_self]
    · have hy : y ∉ V k := hoff y (by simp) k hk
      simp only [dlinkAddTail, ht, update_off (hm k) hx, update_off hy hx, and_self]

/-- In front of a node of the list. -/
theorem addBefore (h : Threaded D V) {m b : Nat} {as bs : List Nat} {l : ι}
    (hm : ∀ l, m ∉ V l) (hv : V l = as ++ b :: bs) (a : α) :
    ∃ D', dlinkAddBefore b a m l D = some D' ∧
      Threaded D' (update V l (as ++ m :: b :: bs)) ∧ D'.data = update D.data m a := by
  have hd := h.dlist l
  rcases List.eq_nil_or_concat as with rfl | ⟨as', p, rfl⟩
  · have hhead : D.head l = some b := by rw [hd.1.head_eq, hv]; rfl
    refine ⟨dlinkAdd a m l D, if_pos hhead, ?_, dlinkAdd_data a m l D⟩
    have hadd := h.add hm a l
    rwa [hv] at hadd
  · rw [List.concat_eq_append, List.append_assoc, List.singleton_append] at hv
    have hd : IsDlist D.next D.prev (D.head l) (D.tail l) (as' ++ p :: b :: bs) := hv ▸ h.dlist l
    have hsplit : V l = (as' ++ [p]) ++ b :: bs := by
      rw [hv, List.append_assoc, List.singleton_append]
    obtain ⟨-, hprev, hnot, -⟩ := h.links hsplit
    rw [List.getLast?_concat] at hprev
    have hhead : D.head l ≠ some b := by
      intro hh
      rw [(h.dlist l).1.head_eq, hsplit, List.head?_append_of_ne_nil _ (List.concat_ne_nil _ _)]
        at hh
      exact hnot (List.mem_of_head? hh)
    have hmp : m ≠ p := fun e => hm l (by rw [hv, e]; simp)
    have hinsert := hd.insert (hv ▸ hm l)
    rw [Function.update_comm hmp] at hinsert
    rw [dlinkAddBefore, if_neg hhead]
    simp only [hprev]
    refine ⟨_, rfl, ?_, rfl⟩
    rw [List.concat_eq_append, List.append_assoc, List.singleton_append]
    refine h.set hinsert (fun x hx k hk => ?_) (fun k hk => ⟨rfl, rfl⟩) fun k hk x hx => ?_
    · by_cases hxm : x = m
      · exact hxm ▸ hm k
      · refine h.apart.notMem (i := l) ?_ k hk
        rw [hv]
        simpa [hxm] using hx
    · have hp : p ∉ V k := h.apart.notMem (i := l) (by rw [hv]; simp) k hk
      have hb : b ∉ V k := h.apart.notMem (i := l) (by rw [hv]; simp) k hk
      simp only [update_off (hm k) hx, update_off hp hx, update_off hb hx, and_self]

/-- No two lists share a node when one has taken over those of another. -/
theorem apart_move {V : ι → List Nat} (h : Apart V) (source target : ι) :
    Apart (update (update V target (V source ++ V target)) source []) := by
  intro i j x hi hj
  have hmem : ∀ k, x ∈ update (update V target (V source ++ V target)) source [] k →
      k ≠ source ∧ (x ∈ V k ∨ k = target ∧ x ∈ V source) := by
    intro k hk
    by_cases hks : k = source
    · rw [hks, Function.update_self] at hk
      cases hk
    · rw [Function.update_of_ne hks] at hk
      refine ⟨hks, ?_⟩
      by_cases hkt : k = target
      · rw [hkt, Function.update_self] at hk
        exact (List.mem_append.mp hk).elim (fun h => .inr ⟨hkt, h⟩) fun h => .inl (hkt ▸ h)
      · rw [Function.update_of_ne hkt] at hk
        exact .inl hk
  obtain ⟨his, hi⟩ := hmem i hi
  obtain ⟨hjs, hj⟩ := hmem j hj
  rcases hi with hi | ⟨hit, hi⟩
  · rcases hj with hj | ⟨hjt, hj⟩
    · exact h hi hj
    · exact absurd (h hi hj) his
  · rcases hj with hj | ⟨hjt, hj⟩
    · exact absurd (h hj hi) hjs
    · rw [hit, hjt]

/-- A list is put in front of another one. -/
theorem moveList (h : Threaded D V) (source target : ι) :
    ∃ D', dlinkMoveList source target D = some D' ∧
      Threaded D' (update (update V target (V source ++ V target)) source []) ∧
      D'.data = D.data := by
  have happart := apart_move h.apart source target
  have hsource := h.dlist source
  have htarget := h.dlist target
  cases hs : V source with
  | nil =>
      have hh : D.head source = none := by rw [hsource.1.head_eq, hs]; rfl
      refine ⟨D, by rw [dlinkMoveList, hh], ?_, rfl⟩
      rw [List.nil_append, Function.update_eq_self, ← hs, Function.update_eq_self]
      exact h
  | cons x xs =>
      obtain ⟨ys, t, hlast⟩ : ∃ ys t, x :: xs = ys ++ [t] :=
        ⟨_, _, (List.dropLast_append_getLast (List.cons_ne_nil x xs)).symm⟩
      have hh : D.head source = some x := by rw [hsource.1.head_eq, hs]; rfl
      have ht : D.tail source = some t := by
        rw [hsource.tail_eq, hs, hlast, List.getLast?_concat]
      rw [← hs]
      cases hv : V target with
      | nil =>
          have hfirst : D.head target = none := by rw [htarget.1.head_eq, hv]; rfl
          rw [dlinkMoveList, hh, hfirst]
          refine ⟨_, rfl, ⟨fun k => ?_, hv ▸ happart⟩, rfl⟩
          by_cases hks : k = source
          · rw [hks]
            simp only [Function.update_self]
            exact IsDlist.empty
          · by_cases hkt : k = target
            · rw [hkt] at hks ⊢
              simp only [Function.update_of_ne hks, Function.update_self, List.append_nil]
              rwa [hh] at hsource
            · simp only [Function.update_of_ne hks, Function.update_of_ne hkt]
              exact h.dlist k
      | cons y zs =>
          have hfirst : D.head target = some y := by rw [htarget.1.head_eq, hv]; rfl
          have hxprev : D.prev x = none := (@Threaded.links _ _ _ _ h _ [] _ _ hs).2.1
          have hyprev : D.prev y = none := (@Threaded.links _ _ _ _ h _ [] _ _ hv).2.1
          have hsame : update D.prev x (D.prev y) = D.prev := by
            rw [hyprev, ← hxprev, Function.update_eq_self]
          rw [dlinkMoveList, hh, hfirst, ht]
          refine ⟨_, rfl, ⟨fun k => ?_, hv ▸ happart⟩, rfl⟩
          simp only [hsame]
          by_cases hks : k = source
          · rw [hks]
            simp only [Function.update_self]
            exact IsDlist.empty
          · by_cases hkt : k = target
            · rw [hkt] at hks ⊢
              simp only [Function.update_of_ne hks, Function.update_self]
              rw [hh, ht, hs, hlast] at hsource
              rw [hv] at htarget
              rw [hs, hlast]
              refine hsource.append htarget fun z hz hzt => hks ?_
              exact h.apart (hv ▸ hzt) (hs ▸ hlast ▸ hz)
            · simp only [Function.update_of_ne hks, Function.update_of_ne hkt]
              have htk : t ∉ V k := h.apart.notMem (i := source) (by rw [hs, hlast]; simp) k hks
              have hyk : y ∉ V k := h.apart.notMem (i := target) (by rw [hv]; simp) k hkt
              exact (h.dlist k).congr (fun z hz => update_off htk hz _) fun z hz =>
                update_off hyk hz _

end Threaded

/-! ## Runs -/

/-- A call, on a list that is named. -/
inductive DlinkOp (ι α : Type)
  | add (data : α) (m : Nat) (list : ι)
  | addBefore (b : Nat) (data : α) (m : Nat) (list : ι)
  | addTail (data : α) (m : Nat) (list : ι)
  | delete (m : Nat) (list : ι)
  | moveList (source target : ι)

namespace DlinkOp

/-- What the call does, or none where it goes through NULL. -/
def run (D : Dlinks ι α) : DlinkOp ι α → Option (Dlinks ι α)
  | add data m list => some (dlinkAdd data m list D)
  | addBefore b data m list => dlinkAddBefore b data m list D
  | addTail data m list => some (dlinkAddTail data m list D)
  | delete m list => some (dlinkDelete m list D)
  | moveList source target => dlinkMoveList source target D

/-- The lists as lists of nodes with their data. -/
abbrev Lists (ι α : Type) : Type := ι → List (Nat × α)

/-- In front of the node `b`. -/
def insertBefore (b : Nat) (entry : Nat × α) : List (Nat × α) → List (Nat × α)
  | [] => []
  | x :: xs => if x.1 = b then entry :: x :: xs else x :: insertBefore b entry xs

/-- What the call is to do with the lists. -/
def apply (W : Lists ι α) : DlinkOp ι α → Lists ι α
  | add data m list => update W list ((m, data) :: W list)
  | addBefore b data m list => update W list (insertBefore b (m, data) (W list))
  | addTail data m list => update W list (W list ++ [(m, data)])
  | delete m list => update W list ((W list).eraseP fun x => x.1 = m)
  | moveList source target => update (update W target (W source ++ W target)) source []

/-- The callers add nodes that are in no list, and delete nodes, or add in front of nodes,
of the list that they name. -/
def Disciplined (W : Lists ι α) : DlinkOp ι α → Prop
  | add _ m _ => ∀ l, m ∉ (W l).map Prod.fst
  | addBefore b _ m list => b ∈ (W list).map Prod.fst ∧ ∀ l, m ∉ (W l).map Prod.fst
  | addTail _ m _ => ∀ l, m ∉ (W l).map Prod.fst
  | delete m list => m ∈ (W list).map Prod.fst
  | moveList _ _ => True

end DlinkOp

/-- The calls one after another. -/
def dlinkRun : List (DlinkOp ι α) → Dlinks ι α → Option (Dlinks ι α)
  | [], D => some D
  | op :: ops, D => (op.run D).bind (dlinkRun ops)

/-- What they are to do. -/
def dlinkApply : List (DlinkOp ι α) → DlinkOp.Lists ι α → DlinkOp.Lists ι α
  | [], W => W
  | op :: ops, W => dlinkApply ops (op.apply W)

/-- All calls of a run follow the rules of the callers. -/
def DisciplinedRun : List (DlinkOp ι α) → DlinkOp.Lists ι α → Prop
  | [], _ => True
  | op :: ops, W => op.Disciplined W ∧ DisciplinedRun ops (op.apply W)

/-- The lists hold these nodes, with these data. -/
structure Holding (D : Dlinks ι α) (W : DlinkOp.Lists ι α) : Prop where
  threaded : Threaded D fun l => (W l).map Prod.fst
  data : ∀ l, ∀ x ∈ W l, D.data x.1 = x.2

namespace Holding

variable {D D' : Dlinks ι α} {W : DlinkOp.Lists ι α}

theorem nodes_update (W : DlinkOp.Lists ι α) (l : ι) (xs : List (Nat × α)) :
    (fun k => (update W l xs k).map Prod.fst) =
      update (fun k => (W k).map Prod.fst) l (xs.map Prod.fst) := by
  funext k
  by_cases hk : k = l
  · rw [hk, Function.update_self, Function.update_self]
  · rw [Function.update_of_ne hk, Function.update_of_ne hk]

omit [DecidableEq ι] in
/-- A node of a list, which stands there once. -/
theorem split (h : Holding D W) {l : ι} {m : Nat} (hm : m ∈ (W l).map Prod.fst) :
    ∃ as c bs, W l = as ++ (m, c) :: bs ∧ ∀ x ∈ as, x.1 ≠ m := by
  obtain ⟨⟨m, c⟩, hx, rfl⟩ := List.mem_map.mp hm
  obtain ⟨as, bs, heq⟩ := List.append_of_mem hx
  refine ⟨as, c, bs, heq, fun x hx hxm => ?_⟩
  have hnd := (h.threaded.dlist l).nodup
  rw [heq, List.map_append, List.map_cons] at hnd
  exact (List.nodup_append.mp hnd).2.2 x.1 (List.mem_map_of_mem hx) m List.mem_cons_self hxm

theorem insertBefore_eq {b m : Nat} {c a : α} {as bs : List (Nat × α)} (has : ∀ x ∈ as, x.1 ≠ b) :
    DlinkOp.insertBefore b (m, a) (as ++ (b, c) :: bs) = as ++ (m, a) :: (b, c) :: bs := by
  induction as with
  | nil => exact if_pos rfl
  | cons x as ih =>
      rw [List.cons_append, DlinkOp.insertBefore, if_neg (has x List.mem_cons_self),
        ih fun y hy => has y (List.mem_cons_of_mem x hy), List.cons_append]

/-- A new node with its data, and the others with theirs. -/
theorem with_new {l : ι} {m : Nat} {a : α} {xs : List (Nat × α)} (h : Holding D W)
    (hm : ∀ l, m ∉ (W l).map Prod.fst) (hdata : D'.data = update D.data m a)
    (hthreaded : Threaded D' (update (fun k => (W k).map Prod.fst) l (xs.map Prod.fst)))
    (hxs : ∀ x ∈ xs, x = (m, a) ∨ x ∈ W l) : Holding D' (update W l xs) := by
  have hold : ∀ k, ∀ x ∈ W k, D'.data x.1 = x.2 := by
    intro k x hx
    rw [hdata, Function.update_of_ne (ne_of_mem_of_not_mem (List.mem_map_of_mem hx) (hm k))]
    exact h.data k x hx
  refine ⟨by rwa [nodes_update], fun k x hx => ?_⟩
  by_cases hk : k = l
  · rw [hk, Function.update_self] at hx
    rcases hxs x hx with rfl | hx
    · rw [hdata, Function.update_self]
    · exact hold l x hx
  · rw [Function.update_of_ne hk] at hx
    exact hold k x hx

omit [DecidableEq ι] in
/-- The nodes of before, in other places. -/
theorem with_same {W' : DlinkOp.Lists ι α} (h : Holding D W)
    (hthreaded : Threaded D' fun l => (W' l).map Prod.fst) (hdata : D'.data = D.data)
    (hsub : ∀ k, ∀ x ∈ W' k, ∃ l, x ∈ W l) : Holding D' W' := by
  refine ⟨hthreaded, fun k x hx => ?_⟩
  obtain ⟨l, hl⟩ := hsub k x hx
  rw [hdata]
  exact h.data l x hl

/-- Every call that follows the rules does what it is to do. -/
theorem step (h : Holding D W) {op : DlinkOp ι α} (hop : op.Disciplined W) :
    ∃ D', op.run D = some D' ∧ Holding D' (op.apply W) := by
  cases op with
  | add a m l =>
      have hthreaded := h.threaded.add hop a l
      exact ⟨_, rfl, h.with_new hop (dlinkAdd_data a m l D) hthreaded fun x hx =>
        List.mem_cons.mp hx⟩
  | addBefore b a m l =>
      obtain ⟨hb, hm⟩ := hop
      obtain ⟨as, c, bs, heq, has⟩ := h.split hb
      have hnodes : (W l).map Prod.fst = as.map Prod.fst ++ b :: bs.map Prod.fst := by
        rw [heq, List.map_append, List.map_cons]
      obtain ⟨D', hrun, hthreaded, hdata⟩ := h.threaded.addBefore hm hnodes a
      have hinsert : DlinkOp.insertBefore b (m, a) (W l) = as ++ (m, a) :: (b, c) :: bs := by
        rw [heq, insertBefore_eq has]
      refine ⟨D', hrun, h.with_new hm hdata ?_ fun x hx => ?_⟩
      · simpa [hinsert] using hthreaded
      · rw [hinsert] at hx
        rw [heq]
        simp only [List.mem_append, List.mem_cons] at hx ⊢
        grind
  | addTail a m l =>
      have hthreaded := h.threaded.addTail hop a l
      refine ⟨_, rfl, h.with_new hop (dlinkAddTail_data a m l D) ?_ fun x hx => ?_⟩
      · rwa [List.map_append, List.map_singleton]
      · exact (List.mem_append.mp hx).symm.imp_left List.mem_singleton.mp
  | delete m l =>
      obtain ⟨as, c, bs, heq, has⟩ := h.split hop
      have hnodes : (W l).map Prod.fst = as.map Prod.fst ++ m :: bs.map Prod.fst := by
        rw [heq, List.map_append, List.map_cons]
      have herase : (W l).eraseP (fun x => x.1 = m) = as ++ bs := by
        rw [heq, List.eraseP_append_right _ fun x hx => by simpa using has x hx,
          List.eraseP_cons_of_pos (by simp)]
      have hthreaded := h.threaded.delete hnodes
      rw [← List.map_append, ← herase, ← nodes_update] at hthreaded
      refine ⟨_, rfl, h.with_same hthreaded (dlinkDelete_data m l D) fun k x hx => ?_⟩
      by_cases hk : k = l
      · rw [hk, DlinkOp.apply, Function.update_self] at hx
        exact ⟨l, List.mem_of_mem_eraseP hx⟩
      · rw [DlinkOp.apply, Function.update_of_ne hk] at hx
        exact ⟨k, hx⟩
  | moveList source target =>
      obtain ⟨D', hrun, hthreaded, hdata⟩ := h.threaded.moveList source target
      rw [← List.map_append, ← nodes_update, ← List.map_nil (f := Prod.fst (α := Nat) (β := α)),
        ← nodes_update] at hthreaded
      refine ⟨D', hrun, h.with_same hthreaded hdata fun k x hx => ?_⟩
      by_cases hks : k = source
      · rw [hks, DlinkOp.apply, Function.update_self] at hx
        cases hx
      · rw [DlinkOp.apply, Function.update_of_ne hks] at hx
        by_cases hkt : k = target
        · rw [hkt, Function.update_self] at hx
          exact (List.mem_append.mp hx).elim (fun h => ⟨source, h⟩) fun h => ⟨target, h⟩
        · rw [Function.update_of_ne hkt] at hx
          exact ⟨k, hx⟩

end Holding

omit [DecidableEq ι] in
/-- The front and the back of a list that holds this. -/
theorem Holding.walks {D : Dlinks ι α} {W : DlinkOp.Lists ι α} (h : Holding D W) (l : ι) :
    ∃ nodes, IsChain D.next (D.head l) nodes ∧ IsChain D.prev (D.tail l) nodes.reverse ∧
      (D.head l = none ↔ D.tail l = none) ∧ nodes.map D.data = (W l).map Prod.snd := by
  have hd := h.threaded.dlist l
  refine ⟨(W l).map Prod.fst, hd.1, hd.2, ?_, ?_⟩
  · rw [hd.1.head_eq, hd.tail_eq, List.head?_eq_none_iff, List.getLast?_eq_none_iff]
  · rw [List.map_map]
    exact List.map_congr_left fun x hx => h.data l x hx

/-- In a run of calls that follow the rules no call goes through NULL, and after it every list
is a chain both ways that holds what the operations on lists give. -/
theorem dlinkRun_spec (ops : List (DlinkOp ι α)) {D : Dlinks ι α} {W : DlinkOp.Lists ι α}
    (h : Holding D W) (hops : DisciplinedRun ops W) :
    ∃ D', dlinkRun ops D = some D' ∧ ∀ l,
      ∃ nodes, IsChain D'.next (D'.head l) nodes ∧ IsChain D'.prev (D'.tail l) nodes.reverse ∧
        (D'.head l = none ↔ D'.tail l = none) ∧
        nodes.map D'.data = (dlinkApply ops W l).map Prod.snd := by
  induction ops generalizing D W with
  | nil => exact ⟨D, rfl, h.walks⟩
  | cons op ops ih =>
      obtain ⟨D₁, hrun, hstep⟩ := h.step hops.1
      obtain ⟨D', hrest, hwalks⟩ := ih hstep hops.2
      exact ⟨D', by rw [dlinkRun, hrun]; exact hrest, hwalks⟩

omit [DecidableEq ι] in
theorem holding_empty (a : α) : Holding (Dlinks.empty a : Dlinks ι α) fun _ => [] where
  threaded := ⟨fun _ => IsDlist.empty, fun _ _ _ hx => nomatch hx⟩
  data _ _ hx := nomatch hx

/-- All five calls on two lists. -/
def dlinkCalls : List (DlinkOp Bool Nat) :=
  [.add 10 1 false, .addTail 20 2 false, .addBefore 2 30 3 false, .addTail 40 4 true,
    .moveList false true, .delete 3 true]

/-- The theorem at these calls. -/
theorem dlinkRun_calls :
    ∃ D', dlinkRun dlinkCalls (Dlinks.empty 0) = some D' ∧
      ∃ nodes, IsChain D'.next (D'.head true) nodes ∧
        IsChain D'.prev (D'.tail true) nodes.reverse ∧ nodes.map D'.data = [10, 20, 40] := by
  obtain ⟨D', hrun, hwalks⟩ := dlinkRun_spec dlinkCalls (holding_empty 0) (by
    refine ⟨?_, ?_, ⟨?_, ?_⟩, ?_, trivial, ?_, trivial⟩
    all_goals
      simp only [DlinkOp.Disciplined, DlinkOp.apply]
      decide)
  obtain ⟨nodes, hnext, hprev, -, hdata⟩ := hwalks true
  exact ⟨D', hrun, nodes, hnext, hprev, hdata⟩

end TrIrcd
